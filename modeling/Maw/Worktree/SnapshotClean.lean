import Maw.Core.Refs
import Maw.Library.NodeStore
import Maw.Library.PrefixOrder
import Maw.Library.Triples
import Maw.Worktree.StatusItems

/-!
# Taking a snapshot of a worktree and cleaning it

Before a workspace is put on another commit its edits are staged, committed on top of HEAD and
pinned under the ref of the workspace; then the worktree is reset and cleaned. The directories of
git and of the workspaces themselves are unstaged again and left out by the clean. The ref of an
earlier snapshot is overwritten.

## Main definitions

* `SnapshotWorld` — the refs, the commits and the worktree.
* `SnapshotOp`, `SnapshotOp.exec` — the operations and what they do.
* `snapshotWorkingCopy` — the snapshot.
* `checkoutAndReplay` — what an advance does with it.
-/

open Interleaved PrefixOrder

namespace Maw.SnapshotClean

open StatusItems RelaPath

abbrev Tree := FiniteMap RelaPath MaterializedEntry

abbrev Files := FiniteMap RelaPath Occupant

/-- A commit whose paths need not be text. -/
structure WorkCommit where
  tree : Tree
  parents : List GitOid
  deriving DecidableEq

abbrev WorkCommits := NodeStore GitOid WorkCommit WorkCommit.parents

structure SnapshotEnv where
  wsName : String
  /-- The patterns, with the files `.gitignore` that are on disk. -/
  rules : Files → IgnoreRules
  /-- Whether the reset of the paths that are left out can fail. -/
  unstageFails : Bool

structure SnapshotWorld where
  refs : RefStore
  commits : WorkCommits
  head : GitOid
  index : FiniteMap RelaPath IndexEntry
  disk : Files

/-- The directories of git and of the workspaces. -/
def adminExcludes : List Name :=
  [.text (.lit ".maw"), .text (.lit "repo.git"), .text (.lit ".manifold"), .text (.lit ".git")]

/-- A path that is one of them, or below. -/
def isAdmin (p : RelaPath) : Bool := p.names.head?.any (· ∈ adminExcludes)

/-- A path that a clean leaves out: the names are excluded at any level. -/
def excludedByClean (p : RelaPath) : Bool := p.names.any (· ∈ adminExcludes)

def snapshotRefName (env : SnapshotEnv) : String := "refs/manifold/snapshot/" ++ env.wsName

/-- A repository of its own. -/
def isRepository : Occupant → Bool
  | .repository _ => true
  | _ => false

namespace SnapshotWorld

variable (env : SnapshotEnv) (w : SnapshotWorld)

def headTree : Tree := ((w.commits.nodes.lookup w.head).map WorkCommit.tree).getD ∅

def statusRepo : StatusRepo := ⟨w.headTree, w.index, w.disk, env.rules w.disk⟩

/-- A path that git adds: it is in the index or not ignored. -/
def IsAdded (p : RelaPath) : Prop :=
  w.index.lookup p ≠ none ∨ (env.rules w.disk).gitIgnored p = false

instance (p : RelaPath) : Decidable (w.IsAdded env p) := inferInstanceAs (Decidable (_ ∨ _))

/-- What git refuses to add: a repository without a commit, or what is no file any more. -/
def Refused (p : RelaPath) : Prop :=
  (w.disk.lookup p = some (.repository none) ∧ w.IsAdded env p) ∨
    (w.disk.lookup p = some .special ∧ w.index.lookup p ≠ none)

/-- The index after `git add -A`. -/
def stagedIndex : FiniteMap RelaPath IndexEntry :=
  FiniteMap.ofFun (w.index.keys ∪ w.disk.keys) fun p =>
    if w.IsAdded env p then ((w.disk.lookup p).bind Occupant.entry).map .staged else none

/-- The index of HEAD, at the paths that are left out. -/
def unstagedIndex : FiniteMap RelaPath IndexEntry :=
  FiniteMap.ofFun (w.index.keys ∪ w.headTree.keys) fun p =>
    if isAdmin p then (w.headTree.lookup p).map .staged else w.index.lookup p

def headIndex : FiniteMap RelaPath IndexEntry :=
  FiniteMap.ofFun w.headTree.keys fun p => (w.headTree.lookup p).map .staged

/-- A path of HEAD or of the index is not as in HEAD, or not as in the index. -/
def IsDirty : Prop :=
  ∃ p, w.index.lookup p ≠ (w.headTree.lookup p).map .staged ∨
    ∃ e, w.index.lookup p = some (.staged e) ∧ (w.disk.lookup p).bind Occupant.entry ≠ some e

/-- The tree of the index: its entries that are text. After `git add -A` all entries are staged. -/
def writeIndexTree : Tree :=
  FiniteMap.ofFun w.index.keys fun p =>
    match w.index.lookup p with
    | some (.staged e) => if p.toStr.isSome ∧ e.mode ≠ .tree then some e else none
    | _ => none

/-! ### The reset and the clean -/

/-- What HEAD puts in its place: a file that is below, or above. -/
def InTheWay (p : RelaPath) (occupant : Occupant) : Prop :=
  ∃ q e, w.headTree.lookup q = some e ∧
    ((e.mode ≠ .commit ∧ StrictPrefix q.names p.names) ∨
      (isRepository occupant = false ∧ StrictPrefix p.names q.names))

/-- The file of an entry of HEAD; a repository is left where HEAD has one. -/
def fileOf (before : Option Occupant) (e : MaterializedEntry) : Option Occupant :=
  match e.mode with
  | .blob => some (.regular e.oid)
  | .blobExecutable => some (.executable e.oid)
  | .link => some (.symlink e.oid)
  | .commit => before.filter isRepository
  | .tree => none

open Classical in
/-- What a hard reset leaves at a path. -/
noncomputable def resetFile (p : RelaPath) : Option Occupant :=
  match w.headTree.lookup p with
  | some e => fileOf (w.disk.lookup p) e
  | none => (w.disk.lookup p).filter fun occupant =>
      ¬ w.InTheWay p occupant ∧ (w.index.lookup p = none ∨ isRepository occupant = true)

/-- A file that a clean removes: it is in neither the index nor ignored or left out. -/
def Cleaned (p : RelaPath) : Prop :=
  w.index.lookup p = none ∧ ((w.disk.lookup p).bind Occupant.fileEntry).isSome = true ∧
    (env.rules w.disk).gitIgnored p = false ∧ excludedByClean p = false

end SnapshotWorld

/-! ### The operations -/

inductive SnapshotError
  | git
  | silentDataLoss
  | noConflictsDetected
  deriving DecidableEq, Repr

inductive SnapshotOp
  | status
  | readRef
  | addAll
  | unstageAdmin
  | stashCreate
  | unstageAll
  | writeRef (oid : GitOid)
  | resetHard
  | clean
  | checkoutDetach
  | writeEpochRef
  | stashApply (oid : GitOid)
  | detectConflicts
  | deleteRef

namespace SnapshotOp

abbrev Ret : SnapshotOp → Type
  | status => List (Path × FileStatus)
  | readRef => Option GitOid
  | stashCreate => Option GitOid
  | detectConflicts => List Path
  | _ => Unit

variable (env : SnapshotEnv)

/-- An operation of which nothing is followed but that it leaves the refs and the commits. -/
def MovesFiles (w w' : SnapshotWorld) : Prop := w'.refs = w.refs ∧ w'.commits = w.commits

/-- What an operation returns and leaves. A reset that fails has reached some of the paths, and a
clean that fails has removed some. -/
def exec : (op : SnapshotOp) → SnapshotWorld → Except SnapshotError op.Ret → SnapshotWorld → Prop
  | status, w, r, w' => w' = w ∧ (r = .error .git ∨ ∃ items, Emits (w.statusRepo env) items ∧
      r = .ok (statusHeadToWorktree (env.rules w.disk).build items))
  | readRef, w, r, w' =>
    w' = w ∧ (r = .error .git ∨ r = .ok (w.refs.lookup (snapshotRefName env)))
  | addAll, w, r, w' =>
    (r = .error .git ∧ w' = w) ∨
    (r = .ok () ∧ (∀ p, ¬ w.Refused env p) ∧ w' = { w with index := w.stagedIndex env })
  | unstageAdmin, w, r, w' =>
    (env.unstageFails = true ∧ r = .error .git ∧ w' = w) ∨
    (r = .ok () ∧ w' = { w with index := w.unstagedIndex })
  | stashCreate, w, r, w' =>
    (r = .error .git ∧ w' = w) ∨ (r = .ok none ∧ w' = w ∧ ¬ w.IsDirty) ∨
    w.IsDirty ∧ ∃ indexOid stashOid indexed stashed,
      w.commits.Adds indexOid ⟨w.writeIndexTree, [w.head]⟩ indexed ∧
      NodeStore.Adds indexed stashOid ⟨w.writeIndexTree, [w.head, indexOid]⟩ stashed ∧
      r = .ok (some stashOid) ∧ w' = { w with commits := stashed }
  | unstageAll, w, r, w' =>
    (r = .error .git ∧ w' = w) ∨ (r = .ok () ∧ w' = { w with index := w.headIndex })
  | writeRef oid, w, r, w' =>
    (r = .error .git ∧ w' = w) ∨
    (r = .ok () ∧ w' = { w with refs := w.refs.insert (snapshotRefName env) oid })
  | resetHard, w, r, w' =>
    (∃ disk, r = .error .git ∧ w' = { w with disk } ∧
      ∀ p, disk.lookup p = w.disk.lookup p ∨ disk.lookup p = w.resetFile p) ∨
    ∃ disk, r = .ok () ∧ w' = { w with disk, index := w.headIndex } ∧
      ∀ p, disk.lookup p = w.resetFile p
  | clean, w, r, w' => ∃ disk, w' = { w with disk } ∧
      (∀ p, disk.lookup p = w.disk.lookup p ∨ w.Cleaned env p ∧ disk.lookup p = none) ∧
      (r = .ok () → ∀ p, w.Cleaned env p → disk.lookup p = none)
  | checkoutDetach, w, _, w' | stashApply _, w, _, w' => MovesFiles w w'
  | detectConflicts, w, _, w' => w' = w
  | writeEpochRef, w, _, w' => w'.commits = w.commits ∧ w'.head = w.head ∧ w'.index = w.index ∧
      w'.disk = w.disk ∧ ∃ name oid, name ≠ snapshotRefName env ∧
        (w'.refs = w.refs ∨ w'.refs = w.refs.insert name oid)
  | deleteRef, w, r, w' =>
    (r = .error .git ∧ w' = w) ∨
    (r = .ok () ∧ w' = { w with refs := w.refs.erase (snapshotRefName env) })

end SnapshotOp

/-! ### The programs -/

abbrev SnapshotProg := Fallible SnapshotError SnapshotOp SnapshotOp.Ret

open SnapshotOp

/-- The commit of the staged files; no commit of a dirty worktree is an error. -/
def stashOrAbort : SnapshotProg GitOid := do
  match ← onError (attempt stashCreate) (ignoreError (attempt unstageAll)) with
  | some oid => pure oid
  | none =>
    ignoreError (attempt unstageAll)
    throw .silentDataLoss

/-- Pin the edits of a worktree, and clean it. -/
def snapshotWorkingCopy : SnapshotProg (Option GitOid) := do
  let entries ← attempt status
  if entries = [] then pure none
  else
    ignoreError (attempt readRef)
    attempt addAll
    ignoreError (attempt unstageAdmin)
    let oid ← stashOrAbort
    attempt (writeRef oid)
    ignoreError (attempt resetHard)
    ignoreError (attempt clean)
    pure (some oid)

/-- Put the edits of a snapshot back; what is left in conflict is returned. -/
def replaySnapshot (oid : GitOid) : SnapshotProg (List Path) := do
  match ← asOption (attempt (stashApply oid)) with
  | some _ =>
    ignoreError (attempt unstageAll)
    pure []
  | none =>
    let conflicts ← attempt detectConflicts
    if conflicts = [] then throw .noConflictsDetected else pure conflicts

/-- Replay a snapshot, and drop its ref if nothing is in conflict. -/
def replayAndCleanup : Option GitOid → SnapshotProg (List Path)
  | none => pure []
  | some oid => do
    let conflicts ← replaySnapshot oid
    if conflicts = [] then
      ignoreError (attempt deleteRef)
      pure []
    else pure conflicts

/-- What an advance does after it has taken a snapshot. -/
def checkoutAndReplay (snapshot : Option GitOid) : SnapshotProg (List Path) := do
  attempt checkoutDetach
  ignoreError (attempt writeEpochRef)
  replayAndCleanup snapshot

end Maw.SnapshotClean
