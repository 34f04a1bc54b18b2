import Maw.Library.FileOps
import Maw.Library.Triples

/-!
# Attaching an orphaned workspace directory

A directory of a workspace that is no worktree any more is attached again: what is in it is moved
to a backup directory beside it, the worktree is created in its place, and the backup is moved back
over what the checkout has written. If the worktree cannot be created, the backup is moved back without
regard to errors. In both cases the backup is removed at the end.

## Main definitions

* `AttachAction.exec` — what the calls do to the file tree.
* `backupWorkspaceContents`, `restoreBackupBestEffort`, `restoreBackupOverwrite` — the moves.
* `createWorkspace` — the creation of the worktree.
* `attach` — all of it, and `AttachOutcome`, what it reports.
-/

open Interleaved LinkTree

namespace Maw.Backend

variable {β : Type}

abbrev FileTree (β : Type) := Tree String β

/-- What a listing or a rename is for. -/
inductive Purpose
  | backup
  | restore
  | bestEffort
  deriving DecidableEq

inductive AttachAction
  | repoRoot
  | workspacePath (name : String)
  | getBackend
  | workspaceId (name : String)
  | worktreeListed (name : String)
  | resolveEpoch (revision : Option String)
  | exists_ (place : List String)
  | isDir (place : List String)
  | createDirAll (place : List String)
  | readDir (place : List String) (purpose : Purpose)
  | rename (src dst : List String) (purpose : Purpose)
  | removeDirAll (place : List String)
  | removeFile (place : List String)
  | worktreePrune
  | parseOid (epoch : String)
  | worktreeAdd (name oid : String) (place : List String)
  | writeEpochRef (name epoch : String)
  | recordWorkspaceCreateOp (name epoch : String)

inductive AttachError
  | call
  | defaultWorkspace
  | directoryMissing
  | alreadyTracked
  deriving DecidableEq, Repr

namespace AttachAction

abbrev Ret : AttachAction → Type
  | worktreeListed _ | exists_ _ | isDir _ => Bool
  | resolveEpoch _ | parseOid _ => String
  | readDir .. => List String
  | _ => Unit

/-- How many links a path may lead through. -/
def maxLinks : ℕ := 40

/-- A call that fails and changes nothing. -/
def Fails {α : Type} (fs : FileTree β) (r : Except AttachError α) (fs' : FileTree β) : Prop :=
  r = .error .call ∧ fs' = fs

/-- What a call does to the file tree. The refs and the administrative files of the worktrees are
not part of it. -/
def exec (op : AttachAction) (fs : FileTree β) (r : Except AttachError op.Ret)
    (fs' : FileTree β) : Prop :=
  match op with
  | repoRoot | workspacePath _ | getBackend | workspaceId _ | resolveEpoch _ | worktreePrune
  | parseOid _ | writeEpochRef .. | recordWorkspaceCreateOp .. =>
    fs' = fs ∧ ∀ e, r = .error e → e = .call
  | worktreeListed _ => fs' = fs ∧ ∃ b, r = .ok b
  | exists_ place => fs' = fs ∧ r = .ok (followed fs maxLinks place).isSome
  | isDir place => fs' = fs ∧ r = .ok ((followed fs maxLinks place).any Node.isDir)
  -- The directories above it that are missing are created first.
  | createDirAll place => DirsAdded fs fs' ∧
    (r = .ok () ∧ (fs' place).any Node.isDir ∨ r = .error .call)
  -- Entries that cannot be read are passed over.
  | readDir place _ => (fs' = fs ∧ (fs place).any Node.isDir ∧ ∃ names, r = .ok names ∧
      names.Nodup ∧ ∀ name ∈ names, ∃ below, (fs (place ++ name :: below)).isSome) ∨
    Fails fs r fs'
  | rename src dst _ => (Renamable fs src dst ∧ r = .ok () ∧ fs' = moved fs src dst) ∨
    Fails fs r fs'
  -- A link is removed, not what it leads to. A removal that fails may stop halfway.
  | removeDirAll place =>
    ((fs place).any (fun node => node.isDir || node.isLink) ∧ r = .ok () ∧
      fs' = removed fs place) ∨ r = .error .call ∧ Thinned place fs fs'
  | removeFile place =>
    ((fs place).any (fun node => !node.isDir) ∧ r = .ok () ∧ fs' = removed fs place) ∨
      Fails fs r fs'
  | worktreeAdd _ _ place => OnlyBelow place fs fs' ∧
    (r = .ok () ∧ (fs' place).any Node.isDir ∨ r = .error .call)

end AttachAction

/-! ### Programs -/

abbrev AttachProg := Fallible AttachError AttachAction AttachAction.Ret

def invoke (a : AttachAction) : AttachProg a.Ret := attempt a

/-- Move entries of a directory to another one. -/
def moveAll (src dst : List String) : List String → AttachProg Unit
  | [] => pure ()
  | name :: rest => do
    invoke (.rename (src ++ [name]) (dst ++ [name]) .backup)
    moveAll src dst rest

/-- Remove the metadata of git, a file or a directory. -/
def removeGitEntry (gitEntry : List String) : AttachProg Unit := do
  let there ← invoke (.exists_ gitEntry)
  if there then do
    let isDir ← invoke (.isDir gitEntry)
    if isDir then invoke (.removeDirAll gitEntry) else invoke (.removeFile gitEntry)
  else pure ()

/-- Remove what is there, without regard to errors. -/
def removeIfExists (place : List String) : AttachProg Unit := do
  let there ← invoke (.exists_ place)
  if there then ignoreError (invoke (.removeDirAll place)) else pure ()

/-- Move all that is in the workspace but its metadata to the backup, and remove the metadata. -/
def backupWorkspaceContents (workspace backup : List String) : AttachProg Unit := do
  invoke (.createDirAll backup)
  let entries ← invoke (.readDir workspace .backup)
  moveAll workspace backup (entries.filter fun name => name ≠ ".git" && name ≠ ".jj")
  removeGitEntry (workspace ++ [".git"])
  removeIfExists (workspace ++ [".jj"])

def moveBackBestEffort (backup workspace : List String) : List String → AttachProg Unit
  | [] => pure ()
  | name :: rest => do
    ignoreError (invoke (.rename (backup ++ [name]) (workspace ++ [name]) .bestEffort))
    moveBackBestEffort backup workspace rest

/-- Move the backup back as far as that is possible. -/
def restoreBackupBestEffort (backup workspace : List String) : AttachProg Unit := do
  let entries ← asOption (invoke (.readDir backup .bestEffort))
  moveBackBestEffort backup workspace (entries.getD [])

/-- Remove what the checkout has written. -/
def clearEntry (place : List String) : AttachProg Unit := do
  let there ← invoke (.exists_ place)
  if there then do
    let isDir ← invoke (.isDir place)
    ignoreError (if isDir then invoke (.removeDirAll place) else invoke (.removeFile place))
  else pure ()

def moveBackOverwrite (backup workspace : List String) : List String → AttachProg Unit
  | [] => pure ()
  | name :: rest => do
    clearEntry (workspace ++ [name])
    invoke (.rename (backup ++ [name]) (workspace ++ [name]) .restore)
    moveBackOverwrite backup workspace rest

/-- Move the backup back over what is there. -/
def restoreBackupOverwrite (backup workspace : List String) : AttachProg Unit := do
  let entries ← invoke (.readDir backup .restore)
  moveBackOverwrite backup workspace entries

section Attach

variable (workspacesDir : List String) (name : String)

def workspacePlace : List String := workspacesDir ++ [name]

def backupPlace : List String := workspacesDir ++ ["." ++ name ++ "-attach-backup"]

/-- The directory is there, and git lists it as a worktree. -/
def workspaceExists : AttachProg Bool := do
  let there ← invoke (.exists_ (workspacePlace workspacesDir name))
  if there then invoke (.worktreeListed name) else pure false

/-- Remove a directory that is no worktree. -/
def removeStaleDir (place : List String) : AttachProg Unit := do
  let there ← invoke (.exists_ place)
  if there then invoke (.removeDirAll place) else pure ()

/-- Create the worktree where there was none; what is in its place is removed. -/
def createWorkspaceNew (epoch : String) : AttachProg Unit := do
  removeStaleDir (workspacePlace workspacesDir name)
  ignoreError (invoke .worktreePrune)
  invoke (.createDirAll workspacesDir)
  let oid ← invoke (.parseOid epoch)
  onError (invoke (.worktreeAdd name oid (workspacePlace workspacesDir name)))
    (removeIfExists (workspacePlace workspacesDir name))
  invoke (.writeEpochRef name epoch)

def createWorkspace (epoch : String) : AttachProg Unit := do
  let known ← workspaceExists workspacesDir name
  if known then pure () else createWorkspaceNew workspacesDir name epoch

/-- Whether the directory can be attached, and at which epoch. -/
def checkAttach (revision : Option String) : AttachProg String := do
  invoke .repoRoot
  invoke (.workspacePath name)
  let there ← invoke (.exists_ (workspacePlace workspacesDir name))
  if !there then throw .directoryMissing
  else do
    invoke .getBackend
    invoke (.workspaceId name)
    let tracked ← workspaceExists workspacesDir name
    if tracked then throw .alreadyTracked else invoke (.resolveEpoch revision)

/-- After the creation of the worktree, and whether it has succeeded. -/
def restoreBackup (epoch : String) : Option Unit → AttachProg Bool
  | some () => do
    ignoreError (invoke (.recordWorkspaceCreateOp name epoch))
    restoreBackupOverwrite (backupPlace workspacesDir name) (workspacePlace workspacesDir name)
    ignoreError (invoke (.removeDirAll (backupPlace workspacesDir name)))
    pure true
  | none => do
    restoreBackupBestEffort (backupPlace workspacesDir name) (workspacePlace workspacesDir name)
    ignoreError (invoke (.removeDirAll (backupPlace workspacesDir name)))
    pure false

/-- Attach a workspace; whether its worktree could be created. -/
def attachSteps (revision : Option String) : AttachProg Bool :=
  if name = "default" then throw .defaultWorkspace
  else do
    let epoch ← checkAttach workspacesDir name revision
    backupWorkspaceContents (workspacePlace workspacesDir name) (backupPlace workspacesDir name)
    let created ← asOption (createWorkspace workspacesDir name epoch)
    restoreBackup workspacesDir name epoch created

/-- What is reported: that the workspace is attached, that it cannot be attached and the files have
been restored, or another error. -/
inductive AttachOutcome
  | attached
  | restored
  | failed (e : AttachError)
  deriving DecidableEq

def AttachOutcome.of : Except AttachError Bool → AttachOutcome
  | .ok true => attached
  | .ok false => restored
  | .error e => failed e

def attach (revision : Option String) :
    Prog AttachAction (fun op => Except AttachError op.Ret) AttachOutcome :=
  (attachSteps workspacesDir name revision).run >>= fun r => .done (.of r)

end Attach

end Maw.Backend
