import Maw.Library.Interleaved
import Maw.Merge.MergeState
import Maw.Worktree.StateCommit

/-!
# Promoting a quarantine

A merge that fails its validation is put into a worktree of its own, on the candidate. An agent
fixes it there, and promoting commits the fixes, validates the worktree again, moves the epoch
and then the branch, and removes the worktree.

## Main definitions

* `PromoteOp` — the operations; `PromoteOp.exec` — what they do.
* `promoteQuarantine`, `commitQuarantineEdits`, `abandonQuarantine` — the programs.

## Main results

* `run_promoteQuarantine` — promoting, operation by operation.
-/

open Interleaved

namespace Maw

/-- What is recorded of a quarantine. -/
structure QuarantineState where
  epochBefore : GitOid
  candidate : GitOid
  branch : String
  deriving DecidableEq, Repr

inductive PromoteResult
  | committed (newEpoch : GitOid)
  | validationFailed (result : ValidationResult)
  deriving DecidableEq, Repr

inductive QuarantineError
  | notFound
  | worktreeNotFound
  | git
  | io
  | validate
  | commit (error : RefError)
  deriving DecidableEq, Repr

/-- The refs, the commits and one quarantine: its worktree and its record. -/
structure QuarantineWorld where
  refs : RefStore
  commits : CommitStore
  worktree : Option Worktree
  state : Option QuarantineState

namespace QuarantineWorld

/-- The worktree with another content. -/
def mapWorktree (w : QuarantineWorld) (f : Worktree → Worktree) : QuarantineWorld :=
  { w with worktree := w.worktree.map f }

end QuarantineWorld

inductive PromoteOp
  | readState
  | worktreeExists
  | worktreeStateCommit
  | writeHead (oid : GitOid)
  | unstageAll
  | runValidate
  | writeRefCas (name : String) (oldOid newOid : GitOid)
  | removeWorktree
  | removeState

namespace PromoteOp

/-- What an operation returns. -/
abbrev Ret : PromoteOp → Type
  | readState => QuarantineState
  | worktreeExists => Bool
  | worktreeStateCommit => Option GitOid
  | writeHead _ => Unit
  | unstageAll => Unit
  | runValidate => ValidateOutcome
  | writeRefCas _ _ _ => Unit
  | removeWorktree => Unit
  | removeState => Unit

/-- What an operation does; an operation that fails changes nothing unless it says so. The
commands of the validation run in the worktree and may write files there, and a removal that
fails has removed some of them. -/
def exec (ignored : Disk → Path → Bool) :
    (op : PromoteOp) → QuarantineWorld → Except QuarantineError op.Ret → QuarantineWorld → Prop
  | readState, w, r, w' =>
    w' = w ∧ ((∃ state, w.state = some state ∧ r = .ok state) ∨
      (w.state = none ∧ r = .error .notFound) ∨ r = .error .io)
  | worktreeExists, w, r, w' => w' = w ∧ r = .ok w.worktree.isSome
  | worktreeStateCommit, w, r, w' =>
    (r = .error .git ∧ w' = w) ∨ ∃ wt, w.worktree = some wt ∧
      match wt.stateCommit ignored w.commits with
      | none => r = .ok none ∧ w' = w
      | some commit => ∃ oid commits, w.commits.Adds oid commit commits ∧ r = .ok (some oid) ∧
          w' = { w with commits }
  | writeHead oid, w, r, w' =>
    (r = .error .git ∧ w' = w) ∨
      (r = .ok () ∧ w' = w.mapWorktree fun wt => { wt with head := oid })
  | unstageAll, w, r, w' =>
    (r = .error .git ∧ w' = w) ∨
      (r = .ok () ∧ w' = w.mapWorktree fun wt => { wt with index := w.commits.treeOf wt.head })
  | runValidate, w, r, w' =>
    (r = .error .validate ∨ ∃ outcome, r = .ok outcome) ∧
      ∃ disk, w' = w.mapWorktree fun wt => { wt with disk }
  | writeRefCas name oldOid newOid, w, r, w' =>
    ∃ result refs, UpdatesRefsAtomic [⟨name, oldOid, newOid⟩] w.refs result refs ∧
      r = result.mapError .commit ∧ w' = { w with refs }
  | removeWorktree, w, r, w' =>
    (r = .ok () ∧ w' = { w with worktree := none }) ∨
      (r = .error .git ∧ ∃ disk, w' = w.mapWorktree fun wt => { wt with disk })
  | removeState, w, r, w' =>
    (r = .ok () ∧ w' = { w with state := none }) ∨ (r = .error .io ∧ w' = w)

end PromoteOp

/-- Programs on a quarantine. -/
abbrev PromoteProg := Fallible QuarantineError PromoteOp PromoteOp.Ret

open PromoteOp

/-- Commit what was changed in the quarantine and move its HEAD there. -/
def commitQuarantineEdits (originalCandidate : GitOid) : PromoteProg GitOid := do
  match ← attempt worktreeStateCommit with
  | none => pure originalCandidate
  | some newHead => do
    attempt (writeHead newHead)
    attempt unstageAll
    pure newHead

/-- Remove the worktree and the record. -/
def abandonQuarantine : PromoteProg Unit := do
  if ← attempt worktreeExists then
    attempt removeWorktree
  attempt removeState

/-- Move the epoch and then the branch, if the validation lets it. -/
def publish (state : QuarantineState) (commitOid : GitOid) :
    ValidateOutcome → PromoteProg PromoteResult
  | .skipped | .passed _ | .passedWithWarnings _ => do
    attempt (writeRefCas epochCurrent state.epochBefore commitOid)
    attempt (writeRefCas (branchRef state.branch) state.epochBefore commitOid)
    ignoreError abandonQuarantine
    pure (.committed commitOid)
  | .blocked result | .quarantine result | .blockedAndQuarantine result =>
    pure (.validationFailed result)

/-- Validate the quarantine and publish it. -/
def promoteQuarantine : PromoteProg PromoteResult := do
  let state ← attempt readState
  if ← attempt worktreeExists then do
    let commitOid ← commitQuarantineEdits state.candidate
    let outcome ← attempt runValidate
    publish state commitOid outcome
  else throw .worktreeNotFound

/-! ### The program, operation by operation -/

section Unfold

variable {state : QuarantineState} {commitOid : GitOid}

/-- What follows the commit of the edits. -/
def validateAndPublish (state : QuarantineState) (commitOid : GitOid) :
    PromoteProg PromoteResult := do
  let outcome ← attempt runValidate
  publish state commitOid outcome

theorem run_validateAndPublish : (validateAndPublish state commitOid).run =
    .call .runValidate (andThen fun outcome => (publish state commitOid outcome).run) := by
  rw [validateAndPublish, run_attempt_bind]

/-- What follows the two checks. -/
def commitAndPublish (state : QuarantineState) : Option GitOid → PromoteProg PromoteResult
  | none => validateAndPublish state state.candidate
  | some newHead => do
    attempt (writeHead newHead)
    attempt unstageAll
    validateAndPublish state newHead

theorem run_commitAndPublish_some (newHead : GitOid) :
    (commitAndPublish state (some newHead)).run =
      .call (.writeHead newHead) (andThen fun _ => .call .unstageAll (andThen fun _ =>
        (validateAndPublish state newHead).run)) := by
  rw [commitAndPublish, run_attempt_bind]
  simp only [run_attempt_bind]

theorem run_abandonQuarantine : abandonQuarantine.run =
    .call .worktreeExists (andThen fun found =>
      if found then .call .removeWorktree (andThen fun _ => .call .removeState (andThen fun _ =>
        .done (.ok ())))
      else .call .removeState (andThen fun _ => .done (.ok ()))) := by
  rw [abandonQuarantine, run_attempt_bind]
  refine congrArg _ (congrArg _ (funext fun found => ?_))
  have hremove : (attempt removeState : PromoteProg Unit).run =
      .call .removeState (andThen fun _ => .done (.ok ())) := run_attempt _
  cases found
  · exact hremove
  · simp only [if_true, run_attempt_bind]
    rw [← hremove]

/-- What follows the two updates. -/
def cleanUp (commitOid : GitOid) : PromoteProg PromoteResult := do
  ignoreError abandonQuarantine
  pure (.committed commitOid)

theorem run_cleanUp : (cleanUp commitOid).run =
    abandonQuarantine.run >>= fun _ => .done (.ok (.committed commitOid)) := by
  change (abandonQuarantine.run >>= _) >>= _ = _
  rw [bind_assoc]
  rfl

theorem run_publish_skipped (state : QuarantineState) (commitOid : GitOid) :
    (publish state commitOid .skipped).run =
      .call (.writeRefCas epochCurrent state.epochBefore commitOid) (andThen fun _ =>
        .call (.writeRefCas (branchRef state.branch) state.epochBefore commitOid)
          (andThen fun _ => (cleanUp commitOid).run)) := by
  simp only [publish, run_attempt_bind]
  rfl

theorem run_publish (state : QuarantineState) (commitOid : GitOid) (outcome : ValidateOutcome) :
    (publish state commitOid outcome).run =
        .call (.writeRefCas epochCurrent state.epochBefore commitOid) (andThen fun _ =>
          .call (.writeRefCas (branchRef state.branch) state.epochBefore commitOid)
            (andThen fun _ => (cleanUp commitOid).run)) ∨
      ∃ result, (publish state commitOid outcome).run = .done (.ok (.validationFailed result)) := by
  rw [← run_publish_skipped]
  rcases outcome with _ | _ | _ | result | result | result
  · exact .inl rfl
  · exact .inl rfl
  · exact .inl rfl
  · exact .inr ⟨result, rfl⟩
  · exact .inr ⟨result, rfl⟩
  · exact .inr ⟨result, rfl⟩

theorem run_promoteQuarantine : promoteQuarantine.run =
    .call .readState (andThen fun state => .call .worktreeExists (andThen fun found =>
      if found then .call .worktreeStateCommit (andThen fun newHead =>
        (commitAndPublish state newHead).run)
      else .done (.error .worktreeNotFound))) := by
  rw [promoteQuarantine, run_attempt_bind]
  refine congrArg _ (congrArg _ (funext fun state => ?_))
  rw [run_attempt_bind]
  refine congrArg _ (congrArg _ (funext fun found => ?_))
  cases found
  · rfl
  · rw [if_pos rfl, if_pos rfl, commitQuarantineEdits, bind_assoc, run_attempt_bind]
    refine congrArg _ (congrArg _ (funext fun newHead => ?_))
    rcases newHead with _ | newHead
    · rfl
    · simp only [bind_assoc, pure_bind]
      rfl

end Unfold

end Maw
