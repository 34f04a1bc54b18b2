import Maw.Core.Commits
import Maw.Library.Triples

/-!
# The operations that move the HEAD of a workspace

A sync moves the HEAD of a workspace to the current epoch when the workspace has no commits of its
own, and a rebase replays its commits onto the epoch and moves HEAD to the last copy. Advancing a
persistent workspace does one or the other. Commits may be made in the workspace between any two
steps of an operation.

## Main definitions

* `WsRepo` — what a workspace sees of its repository; `SyncState` — the state of an operation.
* `SyncOp` — the steps of the operations, with `SyncOp.exec` for what they do.
* `syncWorktreeToEpoch`, `rebaseWorkspaceRun`, `advance` — the operations.
* `Lands` — a commit is made in the workspace.
-/

open Interleaved

namespace Maw.Sync

/-- HEAD names a commit or a branch. -/
inductive HeadRef
  | detached (oid : GitOid)
  | branch (name : String)
  deriving DecidableEq, Repr

/-- The commit of HEAD; a branch without commits has none. -/
def HeadRef.commit (branches : FiniteMap String GitOid) : HeadRef → Option GitOid
  | detached oid => some oid
  | branch name => branches.lookup name

/-- What a workspace sees of its repository. The commit of its HEAD is stored. -/
structure WsRepo where
  commits : CommitStore
  head : HeadRef
  branches : FiniteMap String GitOid
  /-- The base epoch that is recorded for the workspace. -/
  wsEpoch : Option GitOid
  epochCurrent : Option GitOid
  head_mem : ∀ oid, head.commit branches = some oid → oid ∈ commits.nodes

namespace WsRepo

variable (repo : WsRepo)

def headCommit : Option GitOid := repo.head.commit repo.branches

/-- HEAD names a branch. -/
def Attached : Prop := ∃ name, repo.head = .branch name

/-- The parents of a stored commit. -/
def parents (oid : GitOid) : Option (List GitOid) := (repo.commits.nodes.lookup oid).map (·.parents)

/-- Detach HEAD at a stored commit. -/
def setHead (oid : GitOid) (h : oid ∈ repo.commits.nodes) : WsRepo :=
  { repo with
    head := .detached oid
    head_mem := by
      rintro _ ⟨⟩
      exact h }

/-- Store more commits. -/
def withCommits (commits : CommitStore) (h : ∀ oid ∈ repo.commits.nodes, oid ∈ commits.nodes) :
    WsRepo :=
  { repo with
    commits := commits
    head_mem := fun oid hoid => h oid (repo.head_mem oid hoid) }

/-- Move HEAD, or the branch that it names, to a stored commit. -/
def moveTo (oid : GitOid) (h : oid ∈ repo.commits.nodes) : WsRepo :=
  match repo.head with
  | .detached _ => repo.setHead oid h
  | .branch name =>
    { repo with
      head := .branch name
      branches := repo.branches.insert name oid
      head_mem := by
        intro oid' h'
        rw [HeadRef.commit, Finmap.lookup_insert] at h'
        exact Option.some.inj h' ▸ h }

/-- Store a commit and move HEAD to it. -/
def land {oid : GitOid} {commit : Commit} {commits : CommitStore}
    (h : repo.commits.Adds oid commit commits) : WsRepo :=
  (repo.withCommits commits fun _ => h.mem).moveTo oid h.mem_self

def writeEpochRef (oid : GitOid) : WsRepo := { repo with wsEpoch := some oid }

end WsRepo

/-- The commits that are ancestors of a commit and not of a base. -/
structure Walk where
  base : GitOid
  head : GitOid
  commits : List GitOid

def WsRepo.Walks (repo : WsRepo) (walk : Walk) : Prop :=
  walk.head ∈ repo.commits.nodes ∧ ∀ c, c ∈ walk.commits ↔
    repo.commits.IsAncestor c walk.head ∧ ¬ repo.commits.IsAncestor c walk.base

/-- The repository and the history of an operation: the commits that were HEAD, the copies that
were made of commits, and what was read last. -/
structure SyncState where
  repo : WsRepo
  seen : Set GitOid
  copies : Set (GitOid × GitOid)
  lastRead : Option GitOid
  lastWalk : Option Walk

/-- The state before an operation, with the commits that were HEAD so far. -/
def SyncState.start (repo : WsRepo) (seen : Set GitOid) : SyncState := ⟨repo, seen, ∅, none, none⟩

inductive SyncError
  | lockHeld
  | uncommittedChanges
  | headUnreadable
  | epochUnresolved (epoch : GitOid)
  | wouldOrphan (head : GitOid)
  | headMoved (walkStart now : GitOid)
  | replayedNone (head oldEpoch newTip : GitOid)
  | noEpochRef
  | failed (message : String)
  deriving DecidableEq, Repr

/-- The steps of the operations. -/
inductive SyncOp
  | acquireLock
  | dirtyStatus
  | readHead
  | headIsDetached
  | resolve (oid : GitOid)
  | isAncestor (ancestor descendant : GitOid)
  | walkCommits (base head : GitOid)
  | readParents (oid : GitOid)
  /-- Replay a commit: merge its changes into the new tree, and store the result. -/
  | createCommit (original : GitOid) (parents : List GitOid)
  | checkoutTree (oid : GitOid)
  /-- Detach HEAD at a commit, on the way to an epoch. -/
  | setHead (oid epoch : GitOid)
  | readEpochRef
  | readEpochCurrent
  | writeEpochRef (oid : GitOid)
  | snapshotWorkingCopy
  | replaySnapshot
  deriving DecidableEq, Repr

namespace SyncOp

abbrev Ret : SyncOp → Type
  | acquireLock | dirtyStatus | headIsDetached | isAncestor _ _ => Bool
  | readHead | resolve _ | readEpochRef | readEpochCurrent => Option GitOid
  | walkCommits _ _ | readParents _ => List GitOid
  | createCommit _ _ => GitOid
  | checkoutTree _ | setHead _ _ | writeEpochRef _ | snapshotWorkingCopy | replaySnapshot => Unit

/-- What a step that succeeds returns and does. Files that others change may make any workspace
dirty at any time. -/
def effect : (op : SyncOp) → SyncState → op.Ret → SyncState → Prop
  | acquireLock, s, _, s' | dirtyStatus, s, _, s' => s' = s
  | checkoutTree _, s, _, s' | snapshotWorkingCopy, s, _, s' | replaySnapshot, s, _, s' => s' = s
  | readHead, s, head, s' =>
    head = s.repo.headCommit ∧ s' = { s with lastRead := s.repo.headCommit }
  | headIsDetached, s, detached, s' => (detached = true ↔ ¬ s.repo.Attached) ∧ s' = s
  | resolve oid, s, found, s' => (∀ x, found = some x ↔ x = oid ∧ x ∈ s.repo.commits.nodes) ∧ s' = s
  | isAncestor a d, s, is, s' => (is = true ↔ s.repo.commits.IsAncestor a d) ∧ s' = s
  | walkCommits base head, s, walked, s' =>
    s.repo.Walks ⟨base, head, walked⟩ ∧ s' = { s with lastWalk := some ⟨base, head, walked⟩ }
  | readParents oid, s, parents, s' => s.repo.parents oid = some parents ∧ s' = s
  | createCommit original parents, s, oid, s' => ∃ commit commits,
    commit.parents = parents ∧ ∃ h : s.repo.commits.Adds oid commit commits,
      s' = { s with
        repo := s.repo.withCommits commits fun _ => h.mem
        copies := insert (original, oid) s.copies }
  | setHead oid _, s, _, s' => ∃ h, s' = { s with
    repo := s.repo.setHead oid h
    seen := insert oid s.seen }
  | readEpochRef, s, oid, s' => oid = s.repo.wsEpoch ∧ s' = s
  | readEpochCurrent, s, oid, s' => oid = s.repo.epochCurrent ∧ s' = s
  | writeEpochRef oid, s, _, s' => s' = { s with repo := s.repo.writeEpochRef oid }

/-- Every step may fail, and then does nothing. -/
def exec (op : SyncOp) (s : SyncState) : Except SyncError op.Ret → SyncState → Prop
  | .ok a, s' => op.effect s a s'
  | .error _, s' => s' = s

end SyncOp

/-- A commit is made in the workspace, on top of HEAD. -/
def Lands (s s' : SyncState) : Prop :=
  ∃ oid commit commits, commit.parents.head? = s.repo.headCommit ∧
    ∃ h : s.repo.commits.Adds oid commit commits,
      s' = { s with repo := s.repo.land h, seen := insert oid s.seen }

/-! ### The operations -/

abbrev SyncProg := Fallible SyncError SyncOp SyncOp.Ret

section Programs

/-- `rev_parse` of HEAD, which has to name a commit. -/
def requireHead : SyncProg GitOid := do
  match ← attempt SyncOp.readHead with
  | some head => pure head
  | none => throw .headUnreadable

def requireResolved (epoch : GitOid) : SyncProg GitOid := do
  match ← attempt (SyncOp.resolve epoch) with
  | some oid => pure oid
  | none => throw (.epochUnresolved epoch)

def refuseDirty : SyncProg Unit := do
  let dirty ← attempt SyncOp.dirtyStatus
  if dirty = true then throw .uncommittedChanges else pure ()

inductive SyncOutcome
  | synced
  | skippedHeadMoved
  deriving DecidableEq, Repr

/-- Refuse to leave a detached HEAD that is not in the history of the epoch. -/
def refuseOrphans (currentHead : Option GitOid) (epoch : GitOid) : SyncProg Unit := do
  let detached ← asOption (attempt SyncOp.headIsDetached)
  match detached.getD true, currentHead with
  | true, some head => do
    match ← attempt (SyncOp.resolve epoch) with
    | some target => do
      let contained ← asOption (attempt (SyncOp.isAncestor head target))
      if head = target ∨ contained.getD false = true then pure () else throw (.wouldOrphan head)
    | none => pure () -- The checkout fails.
  | _, _ => pure ()

/-- Detach HEAD at an epoch, and record the epoch as the base. -/
def checkoutEpoch (epoch : GitOid) : SyncProg Unit := do
  let oid ← requireResolved epoch
  attempt (SyncOp.checkoutTree oid)
  attempt (SyncOp.setHead oid epoch)

def syncWorktreeToEpoch (epoch : GitOid) (expectedHead : Option GitOid) : SyncProg SyncOutcome := do
  refuseDirty
  let currentHead ← attempt SyncOp.readHead
  if expectedHead.isSome ∧ currentHead ≠ expectedHead then pure .skippedHeadMoved
  else do
    refuseOrphans currentHead epoch
    checkoutEpoch epoch
    ignoreError (attempt (SyncOp.writeEpochRef epoch))
    pure .synced

structure RebaseRunOptions where
  mutateWorktree : Bool
  acquireLock : Bool
  continuePastWorktreeFailure : Bool
  deriving DecidableEq, Repr

structure RebaseOutcome where
  replayed : Nat
  fastForwarded : Bool
  worktreeUpdated : Bool
  deriving DecidableEq, Repr

/-- The sync of a workspace without commits of its own. -/
def fastForward (opts : RebaseRunOptions) (newEpoch : GitOid) : SyncProg RebaseOutcome :=
  if opts.mutateWorktree then
    if opts.continuePastWorktreeFailure then do
      match ← asOption (attempt SyncOp.dirtyStatus) with
      | some false => do
        match ← asOption (syncWorktreeToEpoch newEpoch none) with
        | some _ => pure ⟨0, true, true⟩
        | none => do
          ignoreError (attempt (SyncOp.writeEpochRef newEpoch))
          pure ⟨0, true, false⟩
      | _ => do
        ignoreError (attempt (SyncOp.writeEpochRef newEpoch))
        pure ⟨0, true, false⟩
    else do
      let _ ← syncWorktreeToEpoch newEpoch none
      pure ⟨0, true, true⟩
  else do
    ignoreError (attempt (SyncOp.writeEpochRef newEpoch))
    pure ⟨0, true, false⟩

/-- Replay the commits one after another, each on top of the copy before. A commit without
parents is passed over. The further parents of a merge commit stay what they are. -/
def replayCommits : (parentGit : GitOid) → (replayed : Nat) → List GitOid → SyncProg (GitOid × Nat)
  | parentGit, replayed, [] => pure (parentGit, replayed)
  | parentGit, replayed, commit :: rest => do
    match ← attempt (SyncOp.readParents commit) with
    | [] => replayCommits parentGit replayed rest
    | _ :: sideParents => do
      let copy ← attempt (SyncOp.createCommit commit (parentGit :: sideParents))
      replayCommits copy (replayed + 1) rest

/-- Refuse to move HEAD when it moved since the walk, or when no commit was replayed. -/
def neverAbandonGuard (head oldEpoch parentGit : GitOid) (replayed : Nat) : SyncProg Unit := do
  let currentHead ← requireHead
  if currentHead ≠ head then throw (.headMoved head currentHead)
  else if replayed = 0 ∧ head ≠ oldEpoch then do
    let contained ← asOption (attempt (SyncOp.isAncestor head parentGit))
    if contained.getD false = true then pure () else throw (.replayedNone head oldEpoch parentGit)
  else pure ()

/-- Whether the files are left as they are because they were changed meanwhile. -/
def skipCheckout (opts : RebaseRunOptions) : SyncProg Bool :=
  if opts.mutateWorktree && opts.continuePastWorktreeFailure then do
    let dirty ← asOption (attempt SyncOp.dirtyStatus)
    pure (dirty.getD true)
  else pure false

/-- The checkout of the new tip; whether the files were updated. -/
def checkoutTip (opts : RebaseRunOptions) (parentGit : GitOid) (skip : Bool) : SyncProg Bool :=
  if opts.mutateWorktree && !skip then
    if opts.continuePastWorktreeFailure then do
      let done ← asOption (attempt (SyncOp.checkoutTree parentGit))
      pure done.isSome
    else do
      attempt (SyncOp.checkoutTree parentGit)
      pure true
  else pure false

/-- Replay the commits of a walk and move HEAD to the last copy. -/
def replayOnto (opts : RebaseRunOptions) (head oldEpoch newEpoch : GitOid)
    (commits : List GitOid) : SyncProg RebaseOutcome := do
  let _ ← attempt (SyncOp.readParents newEpoch)
  let (parentGit, replayed) ← replayCommits newEpoch 0 commits
  let skip ← skipCheckout opts
  neverAbandonGuard head oldEpoch parentGit replayed
  attempt (SyncOp.setHead parentGit newEpoch)
  let updated ← checkoutTip opts parentGit skip
  ignoreError (attempt (SyncOp.writeEpochRef newEpoch))
  pure ⟨replayed, false, updated⟩

def lockRebase (opts : RebaseRunOptions) : SyncProg Unit :=
  if opts.acquireLock then do
    let acquired ← attempt SyncOp.acquireLock
    if acquired = true then pure () else throw .lockHeld
  else pure ()

def rebaseWorkspaceRun (opts : RebaseRunOptions) (oldEpoch newEpoch : GitOid) :
    SyncProg RebaseOutcome := do
  lockRebase opts
  refuseDirty
  let head ← requireHead
  match ← attempt (SyncOp.walkCommits oldEpoch head) with
  | [] => fastForward opts newEpoch
  | commit :: rest => replayOnto opts head oldEpoch newEpoch (commit :: rest)

/-- The number of commits of HEAD that the base does not have. -/
def committedAheadOfEpoch (base : GitOid) : SyncProg Nat := do
  let baseOid ← requireResolved base
  let head ← requireHead
  let walked ← attempt (SyncOp.walkCommits baseOid head)
  pure (List.length walked)

/-- The base epoch of a workspace, or its HEAD where none is recorded. -/
def baseEpoch : SyncProg GitOid := do
  match ← attempt SyncOp.readEpochRef with
  | some oid => pure oid
  | none => requireHead

inductive AdvanceOutcome
  | upToDate
  | rebased
  | advanced
  deriving DecidableEq, Repr

/-- Advance a persistent workspace to the current epoch. -/
def advance : SyncProg AdvanceOutcome := do
  let oldEpoch ← baseEpoch
  match ← attempt SyncOp.readEpochCurrent with
  | none => throw .noEpochRef
  | some newEpoch =>
    if oldEpoch = newEpoch then pure .upToDate
    else do
      match ← asOption (committedAheadOfEpoch oldEpoch) with
      | some 0 => do
        attempt SyncOp.snapshotWorkingCopy
        checkoutEpoch newEpoch
        ignoreError (attempt (SyncOp.writeEpochRef newEpoch))
        attempt SyncOp.replaySnapshot
        pure .advanced
      | _ => do -- Also when the number is not known.
        let _ ← rebaseWorkspaceRun ⟨true, true, false⟩ oldEpoch newEpoch
        pure .rebased

end Programs

end Maw.Sync
