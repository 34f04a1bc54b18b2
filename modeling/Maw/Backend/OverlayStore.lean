import Maw.Core.Types
import Maw.Library.Triples

/-!
# Overlay workspaces and the snapshots of epochs

An overlay workspace is a mount of an upper layer over the snapshot of an epoch. The upper layer,
the file with its epoch, the mount and the snapshot with its reference count are changed one after
the other, without a lock. Snapshots are removed when a count reaches zero and by the collection of
those that no git worktree and no ref needs.

## Main definitions

* `OverlayEnv`, `OverlayState` — the commits, and what is on the disk.
* `OverlayOp`, `OverlayOp.exec` — calls and what they do.
* `ensureEpochSnapshot`, `mountOverlay`, `create`, `destroy`, `status`, `gcUnreferencedEpochs` —
  the operations.
* `OverlayTask` — what a process does.
-/

open Interleaved

namespace Maw.OverlayBackend

/-! ### What is on the disk -/

/-- An entry of the directory of a snapshot; the reference count is a file of its own. -/
inductive SnapshotEntry
  | dir
  | file (entry : MaterializedEntry)
  | refcount (count : ℕ)
  deriving DecidableEq

abbrev SnapshotDir := FiniteMap Path SnapshotEntry

def refcountPath : Path := ⟨[Component.lit ".refcount"], by decide⟩

/-- The files of the epochs, what `git archive` makes of an epoch, with the directories, and the
number that is the text of a file, zero if there is none. -/
structure OverlayEnv where
  treeOf : GitOid → GitTree
  archive : GitOid → Option (List (Path × Option MaterializedEntry))
  parseCount : MaterializedEntry → ℕ

/-- An edit, with the epoch of the mount that it was made through. -/
structure Edit where
  epoch : GitOid
  path : Path
  deriving DecidableEq

/-- The directory of a workspace: the upper layer, the directory of the mount, and the file with the
epoch. -/
structure CowDir where
  upper : Option (List Edit)
  work : Bool
  epochFile : Option GitOid
  deriving DecidableEq

/-- The directories of the workspaces, their mount points and mounts, the snapshots, and the epochs
of the git worktrees and of the current ref. -/
structure OverlayState where
  cows : FiniteMap String CowDir
  mountPoints : Finset String
  mounts : FiniteMap String GitOid
  epochs : FiniteMap GitOid SnapshotDir
  referenced : Finset GitOid

inductive OverlayError
  | io
  | command
  | notFound
  deriving DecidableEq, Repr

namespace SnapshotDir

/-- The directory has more than the reference count. -/
def hasContent (dir : SnapshotDir) : Bool := decide (¬ dir.keys ⊆ {refcountPath})

/-- The reference count, zero if it cannot be read. -/
def refcount (env : OverlayEnv) (dir : SnapshotDir) : ℕ :=
  match dir.lookup refcountPath with
  | some (.refcount count) => count
  | some (.file entry) => env.parseCount entry
  | _ => 0

end SnapshotDir

namespace OverlayState

variable (s : OverlayState)

/-- The directory of a workspace; a missing one is empty. -/
def cow (name : String) : CowDir := (s.cows.lookup name).getD ⟨none, false, none⟩

def setCow (name : String) (cow : CowDir) : OverlayState :=
  { s with cows := s.cows.insert name cow }

/-- The directory of a snapshot; a missing one is empty. -/
def snapshot (epoch : GitOid) : SnapshotDir := (s.epochs.lookup epoch).getD ∅

def setSnapshot (epoch : GitOid) (dir : SnapshotDir) : OverlayState :=
  { s with epochs := s.epochs.insert epoch dir }

/-- An edit in a workspace goes to the upper layer of its mount. -/
def edit (name : String) (path : Path) : OverlayState :=
  match s.mounts.lookup name, (s.cow name).upper with
  | some epoch, some edits =>
    s.setCow name { s.cow name with upper := some (edits ++ [⟨epoch, path⟩]) }
  | _, _ => s

end OverlayState

/-! ### Calls -/

inductive OverlayOp
  | isOverlayMounted (name : String)
  | mountPointExists (name : String)
  | cowExists (name : String)
  | upperExists (name : String)
  | snapshotExists (epoch : GitOid)
  | hasContent (epoch : GitOid)
  | readWorkspaceEpoch (name : String)
  | createUpper (name : String)
  | createWork (name : String)
  | createMountPoint (name : String)
  | truncateWorkspaceEpoch (name : String)
  | writeWorkspaceEpoch (name : String) (epoch : GitOid)
  | createSnapshotDir (epoch : GitOid)
  | archive (epoch : GitOid)
  | extract (epoch : GitOid) (path : Path) (entry : Option MaterializedEntry)
  | removeSnapshotEntries (epoch : GitOid)
  | removeSnapshotDir (epoch : GitOid)
  | readRefcount (epoch : GitOid)
  | truncateRefcount (epoch : GitOid)
  | writeRefcount (epoch : GitOid) (count : ℕ)
  | mount (name : String) (epoch : GitOid)
  | unmount (name : String)
  | removeMountPoint (name : String)
  | removeCowEntries (name : String)
  | removeCowDir (name : String)
  | listReferenced
  | listSnapshots
  | edit (name : String) (path : Path)
  | loseMount (name : String)
  | setReferenced (epochs : Finset GitOid)

namespace OverlayOp

/-- What a call returns. -/
abbrev Ret : OverlayOp → Type
  | isOverlayMounted _ => Bool
  | mountPointExists _ => Bool
  | cowExists _ => Bool
  | upperExists _ => Bool
  | snapshotExists _ => Bool
  | hasContent _ => Bool
  | readWorkspaceEpoch _ => GitOid
  | archive _ => List (Path × Option MaterializedEntry)
  | readRefcount _ => ℕ
  | listReferenced => Finset GitOid
  | listSnapshots => List GitOid
  | createUpper _ => Unit
  | createWork _ => Unit
  | createMountPoint _ => Unit
  | truncateWorkspaceEpoch _ => Unit
  | writeWorkspaceEpoch _ _ => Unit
  | createSnapshotDir _ => Unit
  | extract _ _ _ => Unit
  | removeSnapshotEntries _ => Unit
  | removeSnapshotDir _ => Unit
  | truncateRefcount _ => Unit
  | writeRefcount _ _ => Unit
  | mount _ _ => Unit
  | unmount _ => Unit
  | removeMountPoint _ => Unit
  | removeCowEntries _ => Unit
  | removeCowDir _ => Unit
  | edit _ _ => Unit
  | loseMount _ => Unit
  | setReferenced _ => Unit

/-- A question that has an answer. -/
def Answers {α : Type} (s s' : OverlayState) (r : Except OverlayError α) (a : α) : Prop :=
  s' = s ∧ r = .ok a

/-- A call that changes nothing returns a value, or fails. -/
def Reads {α : Type} (s s' : OverlayState) (r : Except OverlayError α) (P : α → Prop) : Prop :=
  s' = s ∧ ((∃ a, r = .ok a ∧ P a) ∨ ∃ e, r = .error e)

/-- A call that changes the state, or fails and leaves it. -/
def Changes (s s' : OverlayState) (r : Except OverlayError Unit) (P : Prop) : Prop :=
  (r = .ok () ∧ P) ∨ ((∃ e, r = .error e) ∧ s' = s)

/-- What is left of the directory of a workspace while it is removed. -/
def Remains (cow cow' : CowDir) : Prop :=
  (cow'.upper = none ∨ ∃ edits edits', cow.upper = some edits ∧ cow'.upper = some edits' ∧
    edits' ⊆ edits) ∧ (cow'.epochFile = none ∨ cow'.epochFile = cow.epochFile)

/-- What a call does. The removal of a directory that fails, or is interrupted, leaves a part of
it. -/
def exec (env : OverlayEnv) :
    (op : OverlayOp) → OverlayState → Except OverlayError op.Ret → OverlayState → Prop
  | isOverlayMounted name, s, r, s' => Answers s s' r (decide (name ∈ s.mounts))
  | mountPointExists name, s, r, s' => Answers s s' r (decide (name ∈ s.mountPoints))
  | cowExists name, s, r, s' => Answers s s' r (decide (name ∈ s.cows))
  | upperExists name, s, r, s' => Answers s s' r (s.cow name).upper.isSome
  | snapshotExists epoch, s, r, s' => Answers s s' r (decide (epoch ∈ s.epochs))
  | hasContent epoch, s, r, s' => Answers s s' r (s.snapshot epoch).hasContent
  | readWorkspaceEpoch name, s, r, s' => Reads s s' r fun epoch =>
    (s.cow name).epochFile = some epoch
  | createUpper name, s, r, s' => Changes s s' r
    (s' = s.setCow name { s.cow name with upper := some ((s.cow name).upper.getD []) })
  | createWork name, s, r, s' => Changes s s' r
    (s' = s.setCow name { s.cow name with work := true })
  | createMountPoint name, s, r, s' => Changes s s' r
    (s' = { s with mountPoints := insert name s.mountPoints })
  | truncateWorkspaceEpoch name, s, r, s' => Changes s s' r
    (s' = s.setCow name { s.cow name with epochFile := none })
  | writeWorkspaceEpoch name epoch, s, r, s' => Changes s s' r
    (s' = s.setCow name { s.cow name with epochFile := some epoch })
  | createSnapshotDir epoch, s, r, s' => Changes s s' r
    (s' = s.setSnapshot epoch (s.snapshot epoch))
  | archive epoch, s, r, s' => Reads s s' r fun members => env.archive epoch = some members
  | extract epoch path entry, s, r, s' => Changes s s' r (epoch ∈ s.epochs ∧
    s' = s.setSnapshot epoch
      ((s.snapshot epoch).insert path (entry.elim SnapshotEntry.dir SnapshotEntry.file)))
  | removeSnapshotEntries epoch, s, _, s' => s' = s ∨ epoch ∈ s.epochs ∧ ∃ dir : SnapshotDir,
    (∀ p entry, dir.lookup p = some entry → (s.snapshot epoch).lookup p = some entry) ∧
      s' = s.setSnapshot epoch dir
  | removeSnapshotDir epoch, s, r, s' => Changes s s' r
    (s' = { s with epochs := s.epochs.erase epoch })
  | readRefcount epoch, s, r, s' => Answers s s' r ((s.snapshot epoch).refcount env)
  | truncateRefcount epoch, s, r, s' => Changes s s' r (epoch ∈ s.epochs ∧
    s' = s.setSnapshot epoch ((s.snapshot epoch).insert refcountPath (.refcount 0)))
  | writeRefcount epoch count, s, r, s' => Changes s s' r (epoch ∈ s.epochs ∧
    s' = s.setSnapshot epoch ((s.snapshot epoch).insert refcountPath (.refcount count)))
  | mount name epoch, s, r, s' => Changes s s' r (name ∈ s.mountPoints ∧ name ∈ s.cows ∧
    epoch ∈ s.epochs ∧ s' = { s with mounts := s.mounts.insert name epoch })
  | unmount name, s, r, s' => Changes s s' r (s' = { s with mounts := s.mounts.erase name })
  | removeMountPoint name, s, r, s' =>
    (r = .ok () ∧ name ∉ s.mounts ∧ s' = { s with mountPoints := s.mountPoints.erase name }) ∨
      (∃ e, r = .error e) ∧ ∃ paths : List Path, s' = paths.foldl (fun s p => s.edit name p) s
  | removeCowEntries name, s, _, s' => s' = s ∨ name ∈ s.cows ∧ ∃ cow,
    Remains (s.cow name) cow ∧ s' = s.setCow name cow
  | removeCowDir name, s, r, s' => Changes s s' r (s' = { s with cows := s.cows.erase name })
  | listReferenced, s, r, s' => Reads s s' r fun epochs => epochs = s.referenced
  | listSnapshots, s, r, s' => Reads s s' r fun epochs => epochs.toFinset = s.epochs.keys
  | edit name path, s, r, s' => r = .ok () ∧ s' = s.edit name path
  | loseMount name, s, r, s' => r = .ok () ∧ s' = { s with mounts := s.mounts.erase name }
  | setReferenced epochs, s, r, s' => r = .ok () ∧ s' = { s with referenced := epochs }

end OverlayOp

abbrev OverlayProg := Fallible OverlayError OverlayOp OverlayOp.Ret

/-! ### Snapshots -/

def removeSnapshot (epoch : GitOid) : OverlayProg Unit := do
  attempt (OverlayOp.removeSnapshotEntries epoch)
  attempt (OverlayOp.removeSnapshotDir epoch)

def extractAll (epoch : GitOid) : List (Path × Option MaterializedEntry) → OverlayProg Unit
  | [] => pure ()
  | (path, entry) :: members => do
    attempt (OverlayOp.extract epoch path entry)
    extractAll epoch members

/-- Extract the epoch, unless its snapshot has content. -/
def ensureEpochSnapshot (epoch : GitOid) : OverlayProg Unit := do
  if ← attempt (OverlayOp.hasContent epoch) then pure ()
  else
    attempt (OverlayOp.createSnapshotDir epoch)
    onError (do extractAll epoch (← attempt (OverlayOp.archive epoch)))
      (ignoreError (removeSnapshot epoch))

/-- Count one reference more; the count is an unsigned number of 32 bits. -/
def epochRefcountInc (epoch : GitOid) : OverlayProg Unit := do
  let count ← attempt (OverlayOp.readRefcount epoch)
  attempt (OverlayOp.truncateRefcount epoch)
  attempt (OverlayOp.writeRefcount epoch ((count + 1) % 2 ^ 32))

def epochRefcountDec (epoch : GitOid) : OverlayProg ℕ := do
  let count ← attempt (OverlayOp.readRefcount epoch)
  attempt (OverlayOp.truncateRefcount epoch)
  attempt (OverlayOp.writeRefcount epoch (count - 1))
  return count - 1

def maybeRemoveEpochSnapshot (epoch : GitOid) : OverlayProg Unit := do
  if (← attempt (OverlayOp.readRefcount epoch)) = 0 then
    if ← attempt (OverlayOp.snapshotExists epoch) then removeSnapshot epoch

/-! ### Mounts -/

def mountOverlay (name : String) (epoch : GitOid) : OverlayProg Unit := do
  if ← attempt (OverlayOp.isOverlayMounted name) then pure ()
  else
    ensureEpochSnapshot epoch
    attempt (OverlayOp.createMountPoint name)
    attempt (OverlayOp.createUpper name)
    attempt (OverlayOp.createWork name)
    attempt (OverlayOp.mount name epoch)

/-- Unmount if there is a mount; a failure is only logged. -/
def unmountOverlay (name : String) : OverlayProg Unit := do
  if ← attempt (OverlayOp.mountPointExists name) then
    if ← attempt (OverlayOp.isOverlayMounted name) then
      ignoreError (attempt (OverlayOp.unmount name))

def removeCow (name : String) : OverlayProg Unit := do
  attempt (OverlayOp.removeCowEntries name)
  attempt (OverlayOp.removeCowDir name)

def removeMountPointIfAny (name : String) : OverlayProg Unit := do
  if ← attempt (OverlayOp.mountPointExists name) then attempt (OverlayOp.removeMountPoint name)

def removeCowIfAny (name : String) : OverlayProg Unit := do
  if ← attempt (OverlayOp.cowExists name) then removeCow name

/-- Remove what there is of a workspace, as far as that goes. -/
def cleanupPartialWorkspace (name : String) : OverlayProg Unit := do
  unmountOverlay name
  ignoreError (removeMountPointIfAny name)
  ignoreError (removeCowIfAny name)

/-! ### Workspaces -/

def writeWorkspaceEpoch (name : String) (epoch : GitOid) : OverlayProg Unit := do
  attempt (OverlayOp.truncateWorkspaceEpoch name)
  attempt (OverlayOp.writeWorkspaceEpoch name epoch)

/-- Create a workspace, or create it again after its mount is gone. -/
def create (name : String) (epoch : GitOid) : OverlayProg GitOid := do
  if ← attempt (OverlayOp.isOverlayMounted name) then
    match ← asOption (attempt (OverlayOp.readWorkspaceEpoch name)) with
    | some storedEpoch => return storedEpoch
    | none => return epoch
  else
    attempt (OverlayOp.createUpper name)
    attempt (OverlayOp.createWork name)
    writeWorkspaceEpoch name epoch
    ensureEpochSnapshot epoch
    onError (mountOverlay name epoch) (cleanupPartialWorkspace name)
    onError (epochRefcountInc epoch) (cleanupPartialWorkspace name)
    return epoch

/-- Take a workspace off the count of its epoch and remove the snapshot if that was the last. -/
def releaseEpoch (epoch : GitOid) : OverlayProg Unit := do
  if (← epochRefcountDec epoch) = 0 then maybeRemoveEpochSnapshot epoch

def destroy (name : String) : OverlayProg Unit := do
  unmountOverlay name
  let epochOpt ← asOption (attempt (OverlayOp.readWorkspaceEpoch name))
  removeMountPointIfAny name
  removeCowIfAny name
  match epochOpt with
  | some epoch => releaseEpoch epoch
  | none => pure ()

/-- Mount the overlay again if the mount is gone; the upper layer is read then. -/
def status (name : String) : OverlayProg Unit := do
  if ← attempt (OverlayOp.upperExists name) then
    let epoch ← attempt (OverlayOp.readWorkspaceEpoch name)
    if ← attempt (OverlayOp.isOverlayMounted name) then pure ()
    else mountOverlay name epoch
  else throw .notFound

/-! ### Collection -/

def removeUnreferenced (referenced : Finset GitOid) : List GitOid → OverlayProg Unit
  | [] => pure ()
  | epoch :: epochs => do
    if epoch ∈ referenced then removeUnreferenced referenced epochs
    else
      removeSnapshot epoch
      removeUnreferenced referenced epochs

/-- Remove the snapshots of the epochs that no git worktree is on and that are not current. -/
def gcUnreferencedEpochs : OverlayProg Unit := do
  let referenced ← attempt OverlayOp.listReferenced
  removeUnreferenced referenced (← attempt OverlayOp.listSnapshots)

/-! ### Processes -/

/-- What a process does: the operations, and what happens to workspaces and to refs meanwhile. -/
inductive OverlayTask
  | create (name : String) (epoch : GitOid)
  | destroy (name : String)
  | status (name : String)
  | gc
  | edit (name : String) (path : Path)
  | loseMount (name : String)
  | setReferenced (epochs : Finset GitOid)

def OverlayTask.program : OverlayTask → OverlayProg Unit
  | create name epoch => do
    let _ ← OverlayBackend.create name epoch
  | destroy name => OverlayBackend.destroy name
  | status name => OverlayBackend.status name
  | gc => gcUnreferencedEpochs
  | edit name path => attempt (OverlayOp.edit name path)
  | loseMount name => attempt (OverlayOp.loseMount name)
  | setReferenced epochs => attempt (OverlayOp.setReferenced epochs)

/-- Any number of processes. -/
def pool {ι : Type} (tasks : ι → OverlayTask) (start : OverlayState) :
    Pool OverlayOp (fun op => Except OverlayError op.Ret) (fun _ : ι => Except OverlayError Unit)
      OverlayState :=
  ⟨fun i => (tasks i).program.run, start⟩

end Maw.OverlayBackend
