import Maw.Core.Refs
import Maw.Oplog.Types

/-!
# The state file of a merge

A merge keeps a file about itself: the phase that it is in, the epoch that it started from and the
candidate that it has built. An interrupted merge is aborted by removing the file, unless the refs
say that it may have committed.

## Main definitions

* `MergePhase`, `MergeStateFile` — the phases and the file.
* `abortMergeState` — aborting a merge.
-/

namespace Maw

inductive MergePhase
  | prepare
  | build
  | validate
  | commit
  | cleanup
  | complete
  | aborted
  deriving DecidableEq, Repr

namespace MergePhase

def isTerminal (phase : MergePhase) : Bool := phase = .complete || phase = .aborted

def validTransitions : MergePhase → List MergePhase
  | prepare => [build, aborted]
  | build => [validate, aborted]
  | validate => [commit, aborted]
  | commit => [cleanup, aborted]
  | cleanup => [complete, aborted]
  | complete | aborted => []

def canTransitionTo (phase next : MergePhase) : Bool := phase.validTransitions.contains next

def display : MergePhase → String
  | prepare => "prepare"
  | build => "build"
  | validate => "validate"
  | commit => "commit"
  | cleanup => "cleanup"
  | complete => "complete"
  | aborted => "aborted"

/-- The phases in which refs may have moved. -/
def postCommit (phase : MergePhase) : Bool := phase = .commit || phase = .cleanup

theorem not_isTerminal_of_postCommit {phase : MergePhase} (h : phase.postCommit = true) :
    phase.isTerminal = false := by
  revert h
  cases phase <;> decide

end MergePhase

/-- What the validation commands reported. -/
structure ValidationResult where
  passed : Bool
  exitCode : Option Int
  deriving DecidableEq, Repr

inductive ValidateOutcome
  | skipped
  | passed (result : ValidationResult)
  | passedWithWarnings (result : ValidationResult)
  | blocked (result : ValidationResult)
  | quarantine (result : ValidationResult)
  | blockedAndQuarantine (result : ValidationResult)
  deriving DecidableEq, Repr

namespace ValidateOutcome

/-- The validation result, if the commands ran. -/
def result : ValidateOutcome → Option ValidationResult
  | skipped => none
  | passed r | passedWithWarnings r | blocked r | quarantine r | blockedAndQuarantine r => some r

end ValidateOutcome

/-- The state file of a merge. -/
structure MergeStateFile where
  phase : MergePhase
  sources : List WorkspaceId
  epochBefore : EpochId
  frozenHeads : FiniteMap WorkspaceId GitOid
  epochCandidate : Option GitOid
  validationResult : Option ValidationResult
  epochAfter : Option EpochId
  abortReason : Option String
  commitMessage : Option String
  targetBranch : Option String
  deriving DecidableEq

inductive MergeStateError
  | notFound
  | invalidTransition (fromPhase toPhase : MergePhase)
  | deserialize
  | io
  deriving DecidableEq, Repr

namespace MergeStateFile

def new (sources : List WorkspaceId) (epochBefore : EpochId) : MergeStateFile where
  phase := .prepare
  sources := sources
  epochBefore := epochBefore
  frozenHeads := ∅
  epochCandidate := none
  validationResult := none
  epochAfter := none
  abortReason := none
  commitMessage := none
  targetBranch := none

def advance (state : MergeStateFile) (next : MergePhase) : Except MergeStateError MergeStateFile :=
  if state.phase.canTransitionTo next then .ok { state with phase := next }
  else .error (.invalidTransition state.phase next)

def abort (state : MergeStateFile) (reason : String) : Except MergeStateError MergeStateFile :=
  if state.phase.isTerminal then .error (.invalidTransition state.phase .aborted)
  else .ok { state with phase := .aborted, abortReason := some reason }

theorem advance_eq_ok {state state' : MergeStateFile} {next : MergePhase} :
    state.advance next = .ok state' ↔
      state.phase.canTransitionTo next = true ∧ state' = { state with phase := next } := by
  rw [advance]
  split_ifs with h
  · simp [h, eq_comm]
  · simp [h]

/-- The merge is past its commit and one of the refs is at the candidate. -/
def AtCandidate (state : MergeStateFile) (currentEpoch currentTargetHead : Option GitOid) : Prop :=
  state.phase.postCommit = true ∧ state.epochCandidate ≠ none ∧
    (currentEpoch = state.epochCandidate ∨ currentTargetHead = state.epochCandidate)

instance (state : MergeStateFile) (currentEpoch currentTargetHead : Option GitOid) :
    Decidable (state.AtCandidate currentEpoch currentTargetHead) :=
  inferInstanceAs (Decidable (_ ∧ _ ∧ _))

/-- The epoch is there and is not the one that the merge started from. -/
def EpochDrifted (state : MergeStateFile) (currentEpoch : Option GitOid) : Prop :=
  currentEpoch ≠ none ∧ currentEpoch ≠ some state.epochBefore.oid

instance (state : MergeStateFile) (currentEpoch : Option GitOid) :
    Decidable (state.EpochDrifted currentEpoch) :=
  inferInstanceAs (Decidable (_ ∧ _))

end MergeStateFile

/-- What the state file holds on disk. -/
inductive StateOnDisk
  | corrupt
  | state (state : MergeStateFile)
  deriving DecidableEq

inductive AbortOutcome
  | nothingToAbort
  | cleared (fromPhase : MergePhase)
  | refusedPostCommit (phase : MergePhase) (reason : String)
  deriving DecidableEq, Repr

/-- The first digits of an object id. -/
def GitOid.short (oid : GitOid) : String := String.ofList (oid.asStr.toList.take 12)

/-- Why a merge that has advanced a ref is not cleared. -/
def MergeStateFile.advancedReason (state : MergeStateFile) (currentEpoch : Option GitOid) : String :=
  "merge reached " ++ state.phase.display ++ " and the " ++
    (if currentEpoch = state.epochCandidate then "epoch" else "target branch") ++
    " already advanced to the merged commit; clearing now could orphan committed work"

/-- Why a merge is not cleared when the epoch has moved. -/
def MergeStateFile.driftedReason (state : MergeStateFile) (currentEpoch : Option GitOid) : String :=
  "epoch advanced since this merge started (was " ++ state.epochBefore.oid.short ++ ", now " ++
    (currentEpoch.map GitOid.short).getD "" ++
    "); refusing to clear merge-state to avoid clobbering newer state"

/-- Abort a merge: what is returned, and the state file that is left. -/
def abortMergeState (file : Option StateOnDisk) (currentEpoch currentTargetHead : Option GitOid) :
    Except MergeStateError AbortOutcome × Option StateOnDisk :=
  match file with
  | none => (.ok .nothingToAbort, none)
  | some .corrupt => (.error .deserialize, file)
  | some (.state state) =>
    if state.phase.isTerminal then (.ok (.cleared state.phase), none)
    else if state.AtCandidate currentEpoch currentTargetHead then
      (.ok (.refusedPostCommit state.phase (state.advancedReason currentEpoch)), file)
    else if state.EpochDrifted currentEpoch then
      (.ok (.refusedPostCommit state.phase (state.driftedReason currentEpoch)), file)
    else (.ok (.cleared state.phase), none)

section Abort

variable {state : MergeStateFile} {currentEpoch currentTargetHead : Option GitOid}

/-- A merge is cleared if it has ended, or if neither a ref nor the epoch speaks against it. -/
theorem abort_clears_iff : (∃ phase, (abortMergeState (some (.state state)) currentEpoch
      currentTargetHead).1 = .ok (.cleared phase)) ↔
    state.phase.isTerminal = true ∨ ¬ state.AtCandidate currentEpoch currentTargetHead ∧
      ¬ state.EpochDrifted currentEpoch := by
  rw [abortMergeState]
  split_ifs with hterminal hat hdrift <;> simp [*]

/-- Otherwise the abort is refused. -/
theorem abort_refuses_iff : (∃ phase reason, (abortMergeState (some (.state state)) currentEpoch
      currentTargetHead).1 = .ok (.refusedPostCommit phase reason)) ↔
    state.phase.isTerminal = false ∧ (state.AtCandidate currentEpoch currentTargetHead ∨
      state.EpochDrifted currentEpoch) := by
  rw [abortMergeState]
  split_ifs with hterminal hat hdrift <;> simp [*]

end Abort

end Maw
