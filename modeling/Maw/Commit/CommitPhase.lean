import Maw.Core.Refs
import Maw.Library.Interleaved

/-!
# The commit phase of a merge

A merge ends by moving the epoch and its target branch to the candidate in one transaction. The
state file is written before and after. Recovery reads the two refs and decides from them what
was done.

## Main definitions

* `CommitOp` — the operations of the commit phase; `CommitOp.exec` — what they do.
* `runCommitPhaseWithBranchBase` — the commit phase.
* `recoverPartialCommitWithBranchBase` — its recovery.
-/

open Interleaved

namespace Maw

inductive CommitPhase
  | commit
  | committed
  deriving DecidableEq, Repr

/-- What the state file holds. -/
structure CommitStateFile where
  phase : CommitPhase
  epochBefore : GitOid
  epochCandidate : GitOid
  epochRefUpdated : Bool
  branchRefUpdated : Bool
  deriving DecidableEq, Repr

inductive CommitResult
  | committed
  deriving DecidableEq, Repr

inductive CommitRecovery
  | alreadyCommitted
  | finalizedMainRef
  | notCommitted
  deriving DecidableEq, Repr

inductive CommitError
  | ref (error : RefError)
  | io
  | partialCommit
  | inconsistentRefState (epoch branch : Option GitOid)
  deriving DecidableEq, Repr

/-- The refs and the state file. -/
structure CommitWorld where
  refs : RefStore
  stateFile : Option CommitStateFile

inductive CommitOp
  | readRef (name : String)
  | updateRefsAtomic (edits : List RefEdit)
  | writeMergeState (state : CommitStateFile)

namespace CommitOp

/-- What an operation returns. -/
abbrev Ret : CommitOp → Type
  | readRef _ => Option GitOid
  | updateRefsAtomic _ => Unit
  | writeMergeState _ => Unit

/-- What an operation does. Each one may fail; a write of the state file that fails has either
replaced the file or left it as it was. -/
def exec : (op : CommitOp) → CommitWorld → Except CommitError op.Ret → CommitWorld → Prop
  | readRef name, w, r, w' =>
    (r = .ok (w.refs.lookup name) ∨ ∃ e, r = .error (.ref e)) ∧ w' = w
  | updateRefsAtomic edits, w, r, w' =>
    ∃ result refs, UpdatesRefsAtomic edits w.refs result refs ∧ r = result.mapError .ref ∧
      w' = { w with refs }
  | writeMergeState state, w, r, w' =>
    (r = .ok () ∧ w' = { w with stateFile := some state }) ∨
      (r = .error .io ∧ (w' = w ∨ w' = { w with stateFile := some state }))

end CommitOp

/-- Programs of the commit phase. -/
abbrev CommitProg := Fallible CommitError CommitOp CommitOp.Ret

namespace CommitProg

def readRef (name : String) : CommitProg (Option GitOid) := attempt (CommitOp.readRef name)

def updateRefsAtomic (edits : List RefEdit) : CommitProg Unit :=
  attempt (CommitOp.updateRefsAtomic edits)

/-- The transaction of one ref. -/
def writeRefCas (name : String) (oldOid newOid : GitOid) : CommitProg Unit :=
  updateRefsAtomic [⟨name, oldOid, newOid⟩]

def writeMergeState (state : CommitStateFile) : CommitProg Unit :=
  attempt (CommitOp.writeMergeState state)

end CommitProg

open CommitProg

/-- Move the epoch and the branch to the candidate. -/
def runCommitPhaseWithBranchBase (branch : String)
    (epochBefore branchBefore epochCandidate : GitOid) : CommitProg CommitResult := do
  let state : CommitStateFile := ⟨.commit, epochBefore, epochCandidate, false, false⟩
  writeMergeState state
  updateRefsAtomic [⟨epochCurrent, epochBefore, epochCandidate⟩,
    ⟨branchRef branch, branchBefore, epochCandidate⟩]
  writeMergeState
    { state with phase := .committed, epochRefUpdated := true, branchRefUpdated := true }
  pure .committed

def runCommitPhase (branch : String) (epochBefore epochCandidate : GitOid) :
    CommitProg CommitResult :=
  runCommitPhaseWithBranchBase branch epochBefore epochBefore epochCandidate

/-- Read the refs of a commit that was interrupted and finish it if that is safe. -/
def recoverPartialCommitWithBranchBase (branch : String)
    (epochBefore branchBefore epochCandidate : GitOid) : CommitProg CommitRecovery := do
  let epoch ← readRef epochCurrent
  let branchHead ← readRef (branchRef branch)
  if epoch = some epochCandidate ∧ branchHead = some epochCandidate then
    pure .alreadyCommitted
  else if epoch = some epochCandidate ∧ branchHead = some branchBefore then do
    writeRefCas (branchRef branch) branchBefore epochCandidate
    writeMergeState ⟨.committed, epochBefore, epochCandidate, true, true⟩
    pure .finalizedMainRef
  else if epoch = some epochBefore ∧ branchHead = some branchBefore then
    pure .notCommitted
  else throw (.inconsistentRefState epoch branchHead)

def recoverPartialCommit (branch : String) (epochBefore epochCandidate : GitOid) :
    CommitProg CommitRecovery :=
  recoverPartialCommitWithBranchBase branch epochBefore epochBefore epochCandidate

/-! ### The programs, operation by operation -/

section Unfold

variable {branch : String} {epochBefore branchBefore epochCandidate : GitOid}

theorem run_runCommitPhase :
    (runCommitPhaseWithBranchBase branch epochBefore branchBefore epochCandidate).run =
      .call (.writeMergeState ⟨.commit, epochBefore, epochCandidate, false, false⟩) (andThen fun _ =>
        .call (.updateRefsAtomic [⟨epochCurrent, epochBefore, epochCandidate⟩,
          ⟨branchRef branch, branchBefore, epochCandidate⟩]) (andThen fun _ =>
            .call (.writeMergeState ⟨.committed, epochBefore, epochCandidate, true, true⟩)
              (andThen fun _ => .done (.ok .committed)))) := by
  simp only [runCommitPhaseWithBranchBase, writeMergeState, updateRefsAtomic, run_attempt_bind,
    run_pure']

/-- What recovery does once it has read the refs. -/
def classifyRefs (branch : String) (epochBefore branchBefore epochCandidate : GitOid)
    (epoch branchHead : Option GitOid) : CommitProg CommitRecovery :=
  if epoch = some epochCandidate ∧ branchHead = some epochCandidate then
    pure .alreadyCommitted
  else if epoch = some epochCandidate ∧ branchHead = some branchBefore then do
    writeRefCas (branchRef branch) branchBefore epochCandidate
    writeMergeState ⟨.committed, epochBefore, epochCandidate, true, true⟩
    pure .finalizedMainRef
  else if epoch = some epochBefore ∧ branchHead = some branchBefore then
    pure .notCommitted
  else throw (.inconsistentRefState epoch branchHead)

theorem run_recoverPartialCommit :
    (recoverPartialCommitWithBranchBase branch epochBefore branchBefore epochCandidate).run =
      .call (.readRef epochCurrent) (andThen fun epoch =>
        .call (.readRef (branchRef branch)) (andThen fun branchHead =>
          (classifyRefs branch epochBefore branchBefore epochCandidate epoch branchHead).run)) := by
  simp only [recoverPartialCommitWithBranchBase, readRef, run_attempt_bind, classifyRefs]

theorem run_finalize :
    (do
      writeRefCas (branchRef branch) branchBefore epochCandidate
      writeMergeState ⟨.committed, epochBefore, epochCandidate, true, true⟩
      pure CommitRecovery.finalizedMainRef : CommitProg CommitRecovery).run =
      .call (.updateRefsAtomic [⟨branchRef branch, branchBefore, epochCandidate⟩]) (andThen fun _ =>
        .call (.writeMergeState ⟨.committed, epochBefore, epochCandidate, true, true⟩)
          (andThen fun _ => .done (.ok .finalizedMainRef))) := by
  simp only [writeRefCas, writeMergeState, updateRefsAtomic, run_attempt_bind, run_pure']

end Unfold

end Maw
