import Maw.Core.Refs
import Maw.Library.Triples
import Maw.Merge.FfAbsorb

/-!
# The operations that move the epoch

Merges, epoch syncs and undos move the current epoch under the epoch lock. The creation of a
workspace, the repair by the doctor, the promotion of a quarantine and a pull move it without the
lock: they read the epoch, decide, and write. Most of them also have to move the baseline of the
default workspace, which is a ref of its own.

## Main definitions

* `EpochEnv`, `EpochState` — the repository, and what changes in it.
* `EpochOp`, `EpochOp.exec` — calls and what they do.
* `resolveEpoch`, `epochSync`, `autoAdvanceIfSafe`, `mergeIntoDefault`, `undoMerge`,
  `promoteQuarantine`, `mergeEpochRef` — the operations.
* `EpochTask` — what a process does.
-/

open Interleaved

namespace Maw.EpochMoves

/-- The configured branch and the configured default workspace. -/
structure MawConfig where
  branch : String
  defaultWorkspace : String
  deriving DecidableEq, Repr

/-- The commits, which refs can be read and written, and whether the worktree of the default
workspace exists. -/
structure EpochEnv where
  commits : CommitStore
  ancestry : AncestryTest commits
  readable : String → Bool
  writable : String → Bool
  worktreeExists : Bool

/-- The paths that a workspace has touched, and whether they can be told. -/
structure TouchedState where
  paths : Finset Path
  readable : Bool
  deriving DecidableEq

/-- The refs, all values that the current epoch was set to, the epoch lock, and the workspaces. -/
structure EpochState where
  refs : RefStore
  epochLog : List GitOid
  locked : Bool
  workspaces : FiniteMap String TouchedState

inductive EpochError
  | git
  | busy
  | unset
  | diverged
  deriving DecidableEq, Repr

namespace EpochState

variable (s : EpochState)

def epoch : Option GitOid := s.refs.lookup epochCurrent

def setRef (name : String) (oid : GitOid) : EpochState :=
  { s with
    refs := s.refs.insert name oid
    epochLog := if name = epochCurrent then s.epochLog ++ [oid] else s.epochLog }

def setRefs (edits : List RefEdit) : EpochState :=
  edits.foldl (fun s edit => s.setRef edit.name edit.newOid) s

theorem lookup_setRef (name other : String) (oid : GitOid) :
    (s.setRef name oid).refs.lookup other =
      if other = name then some oid else s.refs.lookup other :=
  FiniteMap.lookup_insert ..

end EpochState

/-- What the doctor found: the epoch and the branch, and what the workspaces have touched. -/
structure Drift where
  epoch : GitOid
  branch : GitOid
  touched : List WorkspaceTouchedPaths

/-- What the write of a repair rests on: how many values the epoch had had when the repair began,
and the drift if it was classified. -/
structure Basis where
  since : ℕ
  drift : Option Drift

/-- Calls of git and of the file system. -/
inductive EpochOp
  | start
  | acquireEpochLock
  | releaseEpochLock
  | readRef (name : String)
  | writeRef (name : String) (oid : GitOid)
  | repairEpoch (basis : Basis) (oid : GitOid)
  | updateRefsAtomic (edits : List RefEdit)
  | revParse
  | listWorkspaces
  | collectTouchedWorkspace (ws : String)
  | buildCommit (epoch branch : GitOid)
  | rebaseSiblings
  | worktreeExists
  | otherStep
  | editWorkspace (ws : String) (touched : TouchedState)
  | removeWorkspace (ws : String)

namespace EpochOp

/-- What a call returns. -/
abbrev Ret : EpochOp → Type
  | start => ℕ
  | readRef _ => Option GitOid
  | revParse => GitOid
  | listWorkspaces => List String
  | collectTouchedWorkspace _ => Finset Path
  | buildCommit _ _ => GitOid
  | rebaseSiblings => List String
  | worktreeExists => Bool
  | acquireEpochLock => Unit
  | releaseEpochLock => Unit
  | writeRef _ _ => Unit
  | repairEpoch _ _ => Unit
  | updateRefsAtomic _ => Unit
  | otherStep => Unit
  | editWorkspace _ _ => Unit
  | removeWorkspace _ => Unit

/-- A call that changes nothing returns a value, or fails. -/
def Reads {α : Type} (s s' : EpochState) (r : Except EpochError α) (P : α → Prop) : Prop :=
  s' = s ∧ ((∃ a, r = .ok a ∧ P a) ∨ ∃ e, r = .error e)

/-- A ref that can be written is. -/
def Writes (env : EpochEnv) (name : String) (oid : GitOid) (s s' : EpochState)
    (r : Except EpochError Unit) : Prop :=
  if env.writable name then r = .ok () ∧ s' = s.setRef name oid else r = .error .git ∧ s' = s

/-- What a call does. A new commit is not below those that it is built on. The lock is given back by
the system when its holder dies. -/
def exec (env : EpochEnv) :
    (op : EpochOp) → EpochState → Except EpochError op.Ret → EpochState → Prop
  | start, s, r, s' => s' = s ∧ r = .ok s.epochLog.length
  | acquireEpochLock, s, r, s' =>
    (s.locked = false ∧ r = .ok () ∧ s' = { s with locked := true }) ∨
      (∃ e, r = .error e) ∧ s' = s
  | releaseEpochLock, s, r, s' => r = .ok () ∧ s' = { s with locked := false }
  | readRef name, s, r, s' =>
    s' = s ∧ r = if env.readable name then .ok (s.refs.lookup name) else .error .git
  | writeRef name oid, s, r, s' => Writes env name oid s s' r
  | repairEpoch _ oid, s, r, s' => Writes env epochCurrent oid s s' r
  | updateRefsAtomic edits, s, r, s' =>
    (r = .ok () ∧ (∀ edit ∈ edits, s.refs.Matches edit.name edit.oldOid) ∧
        s' = s.setRefs edits) ∨ (∃ e, r = .error e) ∧ s' = s
  | revParse, s, r, s' => Reads s s' r fun _ => True
  | listWorkspaces, s, r, s' => Reads s s' r fun wss => wss.toFinset = s.workspaces.keys
  | collectTouchedWorkspace ws, s, r, s' =>
    s' = s ∧ r = match s.workspaces.lookup ws with
      | some touched => if touched.readable then .ok touched.paths else .error .git
      | none => .error .git
  | buildCommit epoch branch, s, r, s' => Reads s s' r fun oid =>
    ¬ env.commits.IsAncestor oid epoch ∧ ¬ env.commits.IsAncestor oid branch
  | rebaseSiblings, s, r, s' => Reads s s' r fun wss => ∀ ws ∈ wss, ws ∈ s.workspaces
  | worktreeExists, s, r, s' => s' = s ∧ r = .ok env.worktreeExists
  | otherStep, s, r, s' => Reads s s' r fun _ => True
  | editWorkspace ws touched, s, r, s' =>
    r = .ok () ∧ s' = { s with workspaces := s.workspaces.insert ws touched }
  | removeWorkspace ws, s, r, s' =>
    r = .ok () ∧ s' = { s with workspaces := s.workspaces.erase ws }

end EpochOp

/-- Programs that move the epoch. -/
abbrev EpochProg := Fallible EpochError EpochOp EpochOp.Ret

/-- Hold the epoch lock while a program runs. -/
def withEpochLock {α : Type} (p : EpochProg α) : EpochProg α := do
  attempt EpochOp.acquireEpochLock
  ExceptT.mk (p.run >>= fun r =>
    (attempt EpochOp.releaseEpochLock : EpochProg Unit).run >>= fun _ => .done r)

/-- Write a ref; only a warning is printed if that fails. -/
def tryWriteRef (name : String) (oid : GitOid) : EpochProg Unit :=
  ignoreError (attempt (EpochOp.writeRef name oid))

/-! ### The creation of a workspace -/

/-- The epoch of a new workspace. If the epoch is not at the branch, it is moved there. -/
def resolveEpoch (config : MawConfig) (revision : Bool) : EpochProg GitOid := do
  let since ← attempt EpochOp.start
  if revision then attempt EpochOp.revParse
  else
    match ← asOption (attempt (EpochOp.readRef epochCurrent)) with
    | some (some oid) =>
      match ← asOption (attempt (EpochOp.readRef (branchRef config.branch))) with
      | some (some branchOid) =>
        if oid ≠ branchOid then
          attempt (EpochOp.repairEpoch ⟨since, none⟩ branchOid)
          return branchOid
        else return oid
      | _ => return oid
    | _ => attempt EpochOp.revParse

/-! ### Epoch sync -/

def epochSync (config : MawConfig) : EpochProg Unit := withEpochLock do
  attempt EpochOp.otherStep
  let some epochOid ← attempt (EpochOp.readRef epochCurrent) | throw .unset
  let some branchOid ← attempt (EpochOp.readRef (branchRef config.branch)) | throw .unset
  if epochOid = branchOid then attempt EpochOp.otherStep
  else
    attempt (EpochOp.writeRef epochCurrent branchOid)
    tryWriteRef (workspaceEpochRef config.defaultWorkspace) branchOid
    attempt EpochOp.otherStep

/-! ### The repair by the doctor -/

inductive EpochDriftKind
  | inSync
  | ffAbsorbable
  | ffBlocked (affectedWorkspaces : Finset String)
  | diverged
  deriving DecidableEq

section Drift

variable (env : EpochEnv)

def isStrictAncestor (epoch branch : GitOid) : Bool :=
  epoch ≠ branch && env.ancestry.isAncestor epoch branch

/-- The paths that differ between the epoch and the branch. -/
def ffPaths (epoch branch : GitOid) : Finset Path :=
  computeFfChangedPaths (env.commits.treeOf epoch) (env.commits.treeOf branch)

/-- What the workspaces have touched, but for the one called `default`; those that cannot be read
are left out. -/
def collectReadable : List String → EpochProg (List WorkspaceTouchedPaths)
  | [] => pure []
  | ws :: wss => do
    if ws = "default" then collectReadable wss
    else
      match ← asOption (attempt (EpochOp.collectTouchedWorkspace ws)) with
      | none => collectReadable wss
      | some paths => do
        let rest ← collectReadable wss
        return ⟨ws, paths⟩ :: rest

def classifyDrift (config : MawConfig) : EpochProg (Option (EpochDriftKind × Drift)) := do
  let some epochOid ← attempt (EpochOp.readRef epochCurrent) | return none
  let some branchOid ← attempt (EpochOp.readRef (branchRef config.branch)) | return none
  if epochOid = branchOid then return some (.inSync, ⟨epochOid, branchOid, []⟩)
  else if isStrictAncestor env epochOid branchOid = false then
    return some (.diverged, ⟨epochOid, branchOid, []⟩)
  else
    let wss ← attempt EpochOp.listWorkspaces
    let touched ← collectReadable wss
    match evaluateFfSafety (ffPaths env epochOid branchOid) touched with
    | .safe => return some (.ffAbsorbable, ⟨epochOid, branchOid, touched⟩)
    | .blocked affected => return some (.ffBlocked affected, ⟨epochOid, branchOid, touched⟩)

inductive AutoAdvanceOutcome
  | advanced (newEpoch : GitOid)
  | noOp (reason : Option EpochDriftKind)
  deriving DecidableEq

/-- Advance the epoch if the classification says so, to what the branch is at by then. -/
def autoAdvanceIfSafe (config : MawConfig) : EpochProg AutoAdvanceOutcome := do
  let since ← attempt EpochOp.start
  match ← classifyDrift env config with
  | none => return .noOp none
  | some (.ffAbsorbable, drift) =>
    let some newEpoch ← attempt (EpochOp.readRef (branchRef config.branch)) | throw .unset
    attempt (EpochOp.repairEpoch ⟨since, some drift⟩ newEpoch)
    tryWriteRef (workspaceEpochRef config.defaultWorkspace) newEpoch
    return .advanced newEpoch
  | some (kind, _) => return .noOp (some kind)

/-! ### Merges -/

/-- What the workspaces but the target have touched. -/
def collectSiblings (target : String) : List String → EpochProg (List WorkspaceTouchedPaths)
  | [] => pure []
  | ws :: wss => do
    if ws = target then collectSiblings target wss
    else
      let paths ← attempt (EpochOp.collectTouchedWorkspace ws)
      let rest ← collectSiblings target wss
      return ⟨ws, paths⟩ :: rest

/-- Move the baselines of workspaces. -/
def writeBaselines (oid : GitOid) : List String → EpochProg Unit
  | [] => pure ()
  | ws :: wss => do
    tryWriteRef (workspaceEpochRef ws) oid
    writeBaselines oid wss

/-- Take the epoch to the branch if no workspace has touched what differs. -/
def reconcileEpochWithBranch (target : String) (epochOid branchOid : GitOid) : EpochProg Unit := do
  if epochOid = branchOid then pure ()
  else if isStrictAncestor env epochOid branchOid = false then throw .diverged
  else
    let wss ← attempt EpochOp.listWorkspaces
    let touched ← collectSiblings target wss
    attempt EpochOp.otherStep
    match evaluateFfSafety (ffPaths env epochOid branchOid) touched with
    | .blocked _ => throw .diverged
    | .safe =>
      attempt EpochOp.otherStep
      attempt (EpochOp.writeRef epochCurrent branchOid)
      writeBaselines branchOid (touched.map (·.name))
      tryWriteRef (workspaceEpochRef target) branchOid

/-- Reconcile the epoch, if there is one, with the branch. -/
def reconcile (config : MawConfig) (branchBefore : GitOid) : EpochProg Unit := do
  match ← asOption (attempt (EpochOp.readRef epochCurrent)) with
  | some (some epochOid) =>
    reconcileEpochWithBranch env config.defaultWorkspace epochOid branchBefore
  | _ => pure ()

/-- Take the default workspace, if its worktree exists, to the new epoch. -/
def updateDefaultWorkspace (config : MawConfig) (candidate : GitOid) : EpochProg Unit := do
  if ← attempt EpochOp.worktreeExists then
    attempt EpochOp.otherStep
    tryWriteRef (workspaceEpochRef config.defaultWorkspace) candidate

/-- A merge into the default workspace. Other workspaces are rebased after the commit. -/
def mergeIntoDefault (config : MawConfig) : EpochProg Unit := withEpochLock do
  let some branchBefore ← attempt (EpochOp.readRef (branchRef config.branch)) | throw .unset
  reconcile env config branchBefore
  let some epochBefore ← attempt (EpochOp.readRef epochCurrent) | throw .unset
  let candidate ← attempt (EpochOp.buildCommit epochBefore branchBefore)
  attempt EpochOp.otherStep
  attempt (EpochOp.updateRefsAtomic [⟨epochCurrent, epochBefore, candidate⟩,
    ⟨branchRef config.branch, branchBefore, candidate⟩])
  let siblings ← attempt EpochOp.rebaseSiblings
  writeBaselines candidate (siblings.filter (· ≠ config.defaultWorkspace))
  updateDefaultWorkspace config candidate
  attempt EpochOp.otherStep

/-! ### Undo and redo -/

/-- Recreate workspaces; a failure is only noted. -/
def restoreSources (config : MawConfig) : ℕ → EpochProg Unit
  | 0 => pure ()
  | n + 1 => do
    let _ ← asOption (resolveEpoch config false)
    restoreSources config n

/-- Move the epoch and the branch from one commit to another one and restore the workspaces. -/
def undoMerge (config : MawConfig) (source target : GitOid) (restored : ℕ) : EpochProg Unit :=
  withEpochLock do
    attempt EpochOp.otherStep
    attempt (EpochOp.updateRefsAtomic [⟨epochCurrent, source, target⟩,
      ⟨branchRef config.branch, source, target⟩])
    attempt EpochOp.otherStep
    tryWriteRef (workspaceEpochRef "default") target
    restoreSources config restored
    attempt EpochOp.otherStep

end Drift

/-! ### Quarantines -/

/-- Commit the edits in a quarantine, validate it and move the epoch and then the branch to it. -/
def promoteQuarantine (epochBefore : GitOid) (branch : String) : EpochProg Unit := do
  attempt EpochOp.otherStep
  let commitOid ← attempt (EpochOp.buildCommit epochBefore epochBefore)
  attempt EpochOp.otherStep
  attempt (EpochOp.updateRefsAtomic [⟨epochCurrent, epochBefore, commitOid⟩])
  attempt (EpochOp.updateRefsAtomic [⟨branchRef branch, epochBefore, commitOid⟩])

/-! ### Pulls -/

/-- The ref that a fetched epoch is kept at. -/
def remoteEpoch : String := "refs/manifold/remote/epoch/current"

inductive EpochMergeResult
  | noRemote
  | newFromRemote
  | upToDate
  | localAhead
  | fastForward
  | divergenceWarned
  deriving DecidableEq, Repr

/-- Merge the fetched epoch. -/
def mergeEpochRef (env : EpochEnv) : EpochProg EpochMergeResult := do
  let since ← attempt EpochOp.start
  let localOid ← attempt (EpochOp.readRef epochCurrent)
  let remoteOid ← attempt (EpochOp.readRef remoteEpoch)
  match localOid, remoteOid with
  | _, none => return .noRemote
  | none, some remoteOid =>
    attempt (EpochOp.repairEpoch ⟨since, none⟩ remoteOid)
    return .newFromRemote
  | some localOid, some remoteOid =>
    if localOid = remoteOid then return .upToDate
    else if env.ancestry.isAncestor localOid remoteOid then
      attempt (EpochOp.repairEpoch ⟨since, none⟩ remoteOid)
      return .fastForward
    else if env.ancestry.isAncestor remoteOid localOid then return .localAhead
    else return .divergenceWarned

/-! ### Processes -/

/-- What a process does: the operations that move the epoch, and the steps of others that they rely
on. -/
inductive EpochTask
  | create (revision : Bool)
  | sync
  | autoAdvance
  | merge
  | undo (source target : GitOid) (restored : ℕ)
  | promote (epochBefore : GitOid) (branch : String)
  | pull
  | userCommit (oid : GitOid)
  | fetch (oid : GitOid)
  | edit (ws : String) (touched : TouchedState)
  | remove (ws : String)
  | holderDies

def EpochTask.program (env : EpochEnv) (config : MawConfig) : EpochTask → EpochProg Unit
  | create revision => do
    let _ ← resolveEpoch config revision
  | sync => epochSync config
  | autoAdvance => do
    let _ ← autoAdvanceIfSafe env config
  | merge => mergeIntoDefault env config
  | undo source target restored => undoMerge config source target restored
  | promote epochBefore branch => promoteQuarantine epochBefore branch
  | pull => do
    let _ ← mergeEpochRef env
  | userCommit oid => attempt (EpochOp.writeRef (branchRef config.branch) oid)
  | fetch oid => attempt (EpochOp.writeRef remoteEpoch oid)
  | edit ws touched => attempt (EpochOp.editWorkspace ws touched)
  | remove ws => attempt (EpochOp.removeWorkspace ws)
  | holderDies => attempt EpochOp.releaseEpochLock

end Maw.EpochMoves
