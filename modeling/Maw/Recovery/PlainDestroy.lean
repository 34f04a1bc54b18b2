import Maw.Library.Triples
import Maw.Worktree.SnapshotExact
import Maw.Worktree.Touched

/-!
# Destroying a workspace without force

A workspace is destroyed without a capture if it has nothing to lose: a destroy refuses one that a
merge has frozen, takes the epoch lock, and counts what differs from the base; a prune destroys the
workspaces whose snapshot is empty. A merge holds the lock and freezes its sources.

## Main definitions

* `World` — the refs, the workspaces, the state file of a merge and the lock.
* `DestroyOp`, `DestroyEnv.exec` — the operations and what they do.
* `destroy`, `prune`, `merge` — the programs.
* `DestroyEnv.alone` — a program that runs on its own.
-/

open Interleaved KeyedSort

namespace Maw.PlainDestroy

/-- The refs that a destroy reads or removes. -/
inductive RefKey
  | branch (name : String)
  | recovery (name suffix : String)
  | epochCurrent
  | wsEpoch (name : String)
  | wsState (name : String)
  | opHead (name : String)
  deriving DecidableEq, Repr

namespace RefKey

/-- The refs that keep commits when a workspace is gone. -/
def keeps : RefKey → Bool
  | branch _ | recovery .. | epochCurrent => true
  | wsEpoch _ | wsState _ | opHead _ => false

/-- The refs that are removed with a workspace. -/
def ownedBy (name : String) : RefKey → Bool
  | wsEpoch n | wsState n | opHead n => n = name
  | branch _ | recovery .. | epochCurrent => false

end RefKey

/-- The state file of a merge; a merge that has returned is not live. -/
structure MergeFile (ι : Type) where
  owner : ι
  sources : Finset String
  terminal : Bool
  live : Bool

structure World (ι : Type) where
  refs : FiniteMap RefKey GitOid
  workspaces : FiniteMap String Worktree
  merge : Option (MergeFile ι)
  lock : Option ι

namespace World

variable {ι : Type} (w : World ι)

def epoch : Option GitOid := w.refs.lookup .epochCurrent

/-- A workspace with its recorded epoch. -/
def workspace (name : String) (wt : Worktree) : Workspace :=
  ⟨name, w.refs.lookup (.wsEpoch name), wt⟩

/-- A live merge has frozen the workspace. -/
def Frozen (name : String) : Prop :=
  ∃ m, w.merge = some m ∧ m.terminal = false ∧ m.live = true ∧ name ∈ m.sources

end World

structure DestroyEnv where
  commits : CommitStore
  ancestry : AncestryTest commits
  probes : WorktreeProbes
  metadata : (disk : Disk) → SymlinkMetadata disk
  /-- The commit of the state of a worktree, or its HEAD if it is clean. -/
  stateCommit : Worktree → GitOid
  gitCompatRefs : Bool
  /-- The blob of a destroy operation after another one. -/
  destroyOperation : String → Option GitOid → GitOid
  defaultWorkspace : String

inductive DestroyError
  | defaultWorkspace
  | frozen
  | lockBusy
  | notFound
  | inspection (error : DiffError)
  | unmergedChanges (count : ℕ)
  | aborted
  deriving DecidableEq, Repr

inductive DestroyOp (ι : Type)
  | pathExists (name : String)
  | readMergeState
  | acquireLock (me : ι)
  | releaseLock (me : ι)
  | status (name : String)
  | computePatchset (name : String) (base : GitOid)
  | recordDestroyOp (name : String)
  | backendDestroy (name : String)
  | list
  | heal (name : String)
  | snapshot (name : String)
  | prepare (me : ι) (sources : Finset String)
  | mergeWork (change : FiniteMap RefKey GitOid → FiniteMap RefKey GitOid)
  | finishMerge

namespace DestroyOp

/-- What an operation returns. -/
abbrev Ret {ι : Type} : DestroyOp ι → Type
  | pathExists _ => Bool
  | readMergeState => Option (MergeFile ι)
  | status _ => GitOid × ℕ
  | computePatchset .. => ℕ
  | list => List String
  | snapshot _ => Bool
  | _ => Unit

end DestroyOp

namespace DestroyEnv

variable {ι : Type} (env : DestroyEnv)

/-- A workspace whose recorded epoch is repaired. -/
def healed (w : World ι) (name : String) (wt : Worktree) : Workspace :=
  healEpochRef env.ancestry w.epoch (w.workspace name wt)

/-- Write the recorded epoch of a workspace. -/
def recordEpoch (w : World ι) (ws : Workspace) : World ι :=
  match ws.epochRef with
  | some oid => { w with refs := w.refs.insert (.wsEpoch ws.name) oid }
  | none => w

def dirtyCount (wt : Worktree) : ℕ :=
  (wt.statusHeadToWorktree env.probes.ignored (env.commits.treeOf wt.head)).length

/-- Whether the snapshot of a workspace is empty. -/
def snapshotIsEmpty (w : World ι) (name : String) (wt : Worktree) : Bool :=
  let base := snapshotBase w.epoch (w.workspace name wt)
  let pairs := diffNameStatusPairsWith (env.metadata wt.disk).isOk env.probes.ignored
    (env.commits.treeOf base) (env.commits.treeOf wt.head) wt
  decide (pairs.added = ∅ ∧ pairs.modified = ∅ ∧ pairs.deleted = ∅)

/-- Write the ref of the state of a workspace. -/
def refreshWorkspaceStateRef (w : World ι) (name : String) (wt : Worktree) : World ι :=
  if env.gitCompatRefs then { w with refs := w.refs.insert (.wsState name) (env.stateCommit wt) }
  else w

variable [DecidableEq ι]

/-- What an operation returns and leaves. -/
def exec : (op : DestroyOp ι) → World ι → Except DestroyError op.Ret × World ι
  | .pathExists name, w => (.ok (w.workspaces.lookup name).isSome, w)
  | .readMergeState, w => (.ok w.merge, w)
  | .acquireLock me, w =>
    if w.lock = none then (.ok (), { w with lock := some me }) else (.error .lockBusy, w)
  | .releaseLock me, w => (.ok (), { w with
      lock := if w.lock = some me then none else w.lock
      merge := w.merge.map fun m => if m.owner = me then { m with live := false } else m })
  | .status name, w =>
    match w.workspaces.lookup name with
    | some wt =>
      let ws := env.healed w name wt
      (.ok (ws.baseEpoch, env.dirtyCount wt), recordEpoch w ws)
    | none => (.error .notFound, w)
  | .computePatchset name base, w =>
    match w.workspaces.lookup name with
    | some wt => (((Maw.computePatchset env.probes (env.commits.treeOf base) wt).map
        List.length).mapError .inspection, w)
    | none => (.error .notFound, w)
  | .recordDestroyOp name, w =>
    let operation := env.destroyOperation name (w.refs.lookup (.opHead name))
    (.ok (), { w with refs := w.refs.insert (.opHead name) operation })
  | .backendDestroy name, w => (.ok (), { w with
      workspaces := w.workspaces.erase name
      refs := w.refs.filterKeys fun key => key.ownedBy name = false })
  | .list, w =>
    (.ok (inOrderOf String.toList (fun _ _ => String.toList_injective) w.workspaces.keys), w)
  | .heal name, w =>
    match w.workspaces.lookup name with
    | some wt => (.ok (), recordEpoch w (env.healed w name wt))
    | none => (.ok (), w)
  | .snapshot name, w =>
    match w.workspaces.lookup name with
    | some wt => (.ok (env.snapshotIsEmpty w name wt), env.refreshWorkspaceStateRef w name wt)
    | none => (.error .notFound, w)
  | .prepare me sources, w => (.ok (), { w with merge := some ⟨me, sources, false, true⟩ })
  | .mergeWork change, w => (.ok (), { w with refs := change w.refs })
  | .finishMerge, w =>
    (.ok (), { w with merge := w.merge.map fun m => { m with terminal := true } })

/-- A step of an operation. -/
def Takes (op : DestroyOp ι) (w : World ι) (r : Except DestroyError op.Ret) (w' : World ι) : Prop :=
  env.exec op w = (r, w')

end DestroyEnv

/-! ### The programs -/

abbrev DestroyProg (ι : Type) := Fallible DestroyError (DestroyOp ι) DestroyOp.Ret

section Programs

variable {ι : Type}

/-- Hold the epoch lock while a program runs. -/
def withEpochLock (me : ι) (p : DestroyProg ι Unit) : DestroyProg ι Unit := do
  attempt (DestroyOp.acquireLock me)
  ExceptT.mk (p.run >>= fun r =>
    (attempt (DestroyOp.releaseLock me) : DestroyProg ι Unit).run >>= fun _ => .done r)

/-- Refuse a workspace that is a source of a merge that has not come to its end. -/
def guardDestroyAgainstInflightMerge (name : String) : DestroyProg ι Unit := do
  match ← attempt (DestroyOp.readMergeState (ι := ι)) with
  | none => pure ()
  | some m => if m.terminal then pure () else if name ∈ m.sources then throw .frozen else pure ()

/-- Destroy a workspace unless something in it is counted or the user says no. -/
def destroyLocked (name : String) (answer : Option Bool) : DestroyProg ι Unit := do
  let (base, dirty) ← attempt (DestroyOp.status (ι := ι) name)
  let count ← attempt (DestroyOp.computePatchset (ι := ι) name base)
  if 0 < max count dirty then throw (.unmergedChanges (max count dirty))
  else if answer = some false then throw .aborted
  else
    ignoreError (attempt (DestroyOp.recordDestroyOp (ι := ι) name))
    attempt (DestroyOp.backendDestroy (ι := ι) name)

def destroy (env : DestroyEnv) (me : ι) (name : String) (answer : Option Bool) :
    DestroyProg ι Unit := do
  if name = env.defaultWorkspace then throw .defaultWorkspace
  else if ← attempt (DestroyOp.pathExists (ι := ι) name) then
    guardDestroyAgainstInflightMerge name
    withEpochLock me (destroyLocked name answer)
  else pure ()

/-- Repair the recorded epochs, as a list does. -/
def healAll : List String → DestroyProg ι Unit
  | [] => pure ()
  | name :: names => do
    attempt (DestroyOp.heal (ι := ι) name)
    healAll names

/-- Whether the snapshot of a workspace is empty; the default workspace is not asked. -/
def askEmpty (env : DestroyEnv) (name : String) : DestroyProg ι (Option Bool) :=
  if name = env.defaultWorkspace then pure none
  else asOption (attempt (DestroyOp.snapshot (ι := ι) name))

/-- The workspaces whose snapshot is empty. -/
def collectEmpty (env : DestroyEnv) : List String → DestroyProg ι (List String)
  | [] => pure []
  | name :: names => do
    let isEmpty ← askEmpty env name
    let rest ← collectEmpty env names
    pure (if isEmpty = some true then name :: rest else rest)

def pruneEmpty : List String → DestroyProg ι Unit
  | [] => pure ()
  | name :: names => do
    ignoreError (attempt (DestroyOp.backendDestroy (ι := ι) name))
    pruneEmpty names

def prune (env : DestroyEnv) (force includeEmpty : Bool) : DestroyProg ι Unit := do
  let tracked ← attempt (DestroyOp.list (ι := ι))
  healAll tracked
  let empty ← if includeEmpty then collectEmpty env tracked else pure []
  if force then pruneEmpty empty else pure ()

/-- A merge freezes its sources and moves refs while it holds the lock. -/
def merge (me : ι) (sources : Finset String)
    (change : FiniteMap RefKey GitOid → FiniteMap RefKey GitOid) : DestroyProg ι Unit :=
  withEpochLock me do
    attempt (DestroyOp.prepare me sources)
    attempt (DestroyOp.mergeWork (ι := ι) change)
    attempt (DestroyOp.finishMerge (ι := ι))

end Programs

/-- What a process does. -/
inductive DestroyTask
  | destroy (name : String) (answer : Option Bool)
  | prune (force includeEmpty : Bool)
  | merge (sources : Finset String) (change : FiniteMap RefKey GitOid → FiniteMap RefKey GitOid)

def DestroyTask.program {ι : Type} (env : DestroyEnv) (me : ι) : DestroyTask → DestroyProg ι Unit
  | destroy name answer => PlainDestroy.destroy env me name answer
  | prune force includeEmpty => PlainDestroy.prune env force includeEmpty
  | merge sources change => PlainDestroy.merge me sources change

end Maw.PlainDestroy
