import Maw.Library.Triples
import Maw.Merge.MergeState

/-!
# Running a merge

A merge prepares its inputs, builds a candidate, replaces it if conflicts were resolved on the
command line, validates it, moves the refs to it and cleans up. Before each phase it writes its
state file.

## Main definitions

* `MergeOp` — the operations of a merge; `MergeOp.exec` — what they do.
* `MergeProg.merge` — the merge.
* `abortInProgressMerge` — aborting it with the current values of the refs.
-/

open Interleaved

namespace Maw

inductive MergeError
  | ref (error : RefError)
  | state (error : MergeStateError)
  | noSources
  | epochNotFound
  | workspaceHeadNotFound
  | mergeAlreadyInProgress (phase : MergePhase) (live : Bool)
  | targetNotFound
  | diverged
  | wrongPhase (actual : MergePhase)
  | build
  | emptyMerge
  | conflicts
  | validate
  | io
  deriving DecidableEq, Repr

inductive Staleness
  | live
  | orphaned
  | indeterminate
  deriving DecidableEq, Repr

/-- What a merge is asked to do. -/
structure MergeOptions where
  sources : List WorkspaceId
  branch : String
  targetUpdatesEpoch : Bool
  message : Option String
  hasResolutions : Bool
  hasCommands : Bool
  deriving DecidableEq, Repr

structure FrozenInputs where
  epoch : EpochId
  heads : FiniteMap WorkspaceId GitOid

/-- The candidate of a merge, with the numbers of its paths and conflicts. -/
structure BuildPhaseOutput where
  candidate : GitOid
  uniqueCount : ℕ
  sharedCount : ℕ
  conflictCount : ℕ
  deriving DecidableEq, Repr

/-- The refs and the state file, and what has happened to them: the merge has written its state
file, it has moved refs to its candidate, and others have moved the epoch or the target branch. -/
structure MergeWorld where
  refs : RefStore
  stateFile : Option StateOnDisk
  prepared : Bool
  advanced : Bool
  moved : Bool

namespace MergeWorld

/-- Before the merge. -/
def start (refs : RefStore) (stateFile : Option StateOnDisk) : MergeWorld :=
  ⟨refs, stateFile, false, false, false⟩

/-- The merge has written this as its state file. -/
def write (w : MergeWorld) (content : StateOnDisk) : MergeWorld :=
  { w with stateFile := some content, prepared := true }

/-- A commit that is made on top of another one: it is another commit and no ref is at it yet. -/
def Fresh (w : MergeWorld) (parent oid : GitOid) : Prop :=
  oid ≠ parent ∧ ∀ name, w.refs.lookup name ≠ some oid

end MergeWorld

inductive MergeOp
  | readRef (name : String)
  | readWorkspaceHeads (sources : List WorkspaceId)
  | writeExclusive (state : MergeStateFile)
  | readState
  | writeAtomic (state : MergeStateFile)
  | removeState
  | staleness (existing : MergeStateFile)
  | absorbFastForward (branchOid : GitOid)
  | runPipeline (state : MergeStateFile)
  | applyResolutions (output : BuildPhaseOutput)
  | patchCandidateTree (parent candidate : GitOid)
  | runValidatePhase (candidate : GitOid)
  | updateRefsAtomic (edits : List RefEdit)
  | otherWork

namespace MergeOp

/-- What an operation returns. -/
abbrev Ret : MergeOp → Type
  | readRef _ => Option GitOid
  | readWorkspaceHeads _ => FiniteMap WorkspaceId GitOid
  | writeExclusive _ => Bool
  | readState => MergeStateFile
  | writeAtomic _ => Unit
  | removeState => Unit
  | staleness _ => Staleness
  | absorbFastForward _ => Unit
  | runPipeline _ => BuildPhaseOutput
  | applyResolutions _ => ℕ
  | patchCandidateTree _ _ => GitOid
  | runValidatePhase _ => ValidateOutcome
  | updateRefsAtomic _ => Unit
  | otherWork => Unit

/-- What an operation does. Each one may fail. The exclusive creation of the state file writes in
place, and if it is interrupted it may leave part of the file; the atomic write leaves the old file
or the new one. -/
def exec : (op : MergeOp) → MergeWorld → Except MergeError op.Ret → MergeWorld → Prop
  | readRef name, w, r, w' =>
    (r = .ok (w.refs.lookup name) ∨ ∃ e, r = .error (.ref e)) ∧ w' = w
  | readWorkspaceHeads _, w, _, w' => w' = w
  | writeExclusive state, w, r, w' =>
    (w.stateFile ≠ none ∧ r = .ok false ∧ w' = w) ∨
      (w.stateFile = none ∧ r = .ok true ∧ w' = w.write (.state state)) ∨
      (r = .error (.state .io) ∧ (w' = w ∨ w.stateFile = none ∧
        (w' = w.write .corrupt ∨ w' = w.write (.state state))))
  | readState, w, r, w' =>
    ((∃ state, w.stateFile = some (.state state) ∧ r = .ok state) ∨
      (w.stateFile = none ∧ r = .error (.state .notFound)) ∨
      (w.stateFile = some .corrupt ∧ r = .error (.state .deserialize)) ∨
      r = .error (.state .io)) ∧ w' = w
  | writeAtomic state, w, r, w' =>
    (r = .ok () ∧ w' = w.write (.state state)) ∨
      (r = .error (.state .io) ∧ (w' = w ∨ w' = w.write (.state state)))
  | removeState, w, r, w' =>
    (r = .ok () ∧ w' = { w with stateFile := none }) ∨ (r = .error (.state .io) ∧ w' = w)
  | staleness _, w, _, w' => w' = w
  | absorbFastForward branchOid, w, r, w' =>
    (r = .ok () ∧ w' = { w with refs := w.refs.insert epochCurrent branchOid }) ∨
      (r = .error .diverged ∧ w' = w)
  | runPipeline state, w, r, w' =>
    (∀ output, r = .ok output → w.Fresh state.epochBefore.oid output.candidate) ∧ w' = w
  | applyResolutions _, w, _, w' => w' = w
  | patchCandidateTree parent candidate, w, r, w' =>
    (∀ oid, r = .ok oid → oid = candidate ∨ w.Fresh parent oid) ∧ w' = w
  | runValidatePhase _, w, _, w' => w' = w
  | updateRefsAtomic edits, w, r, w' =>
    ∃ result refs, UpdatesRefsAtomic edits w.refs result refs ∧ r = result.mapError .ref ∧
      w' = { w with refs, advanced := w.advanced || result.isOk }
  | otherWork, w, _, w' => w' = w

end MergeOp

/-- Programs of a merge. -/
abbrev MergeProg := Fallible MergeError MergeOp MergeOp.Ret

namespace MergeProg

def readRef (name : String) : MergeProg (Option GitOid) := attempt (MergeOp.readRef name)

def readState : MergeProg MergeStateFile := attempt MergeOp.readState

def writeAtomic (state : MergeStateFile) : MergeProg Unit := attempt (MergeOp.writeAtomic state)

def removeState : MergeProg Unit := attempt MergeOp.removeState

def updateRefsAtomic (edits : List RefEdit) : MergeProg Unit :=
  attempt (MergeOp.updateRefsAtomic edits)

/-- The transaction of one ref. -/
def writeRefCas (name : String) (oldOid newOid : GitOid) : MergeProg Unit :=
  updateRefsAtomic [⟨name, oldOid, newOid⟩]

/-- What a merge does that touches neither the epoch, nor the target branch, nor the state file. -/
def otherWork : MergeProg Unit := attempt MergeOp.otherWork

/-! ### The state file -/

/-- Read the state file, change it and write it back. -/
def updateState (f : MergeStateFile → Except MergeStateError MergeStateFile) : MergeProg Unit := do
  let state ← readState
  let state ← ofExcept ((f state).mapError .state)
  writeAtomic state

def advanceMergeState (nextPhase : MergePhase) : MergeProg Unit := updateState (·.advance nextPhase)

def recordValidationResult (result : ValidationResult) : MergeProg Unit :=
  updateState fun state => .ok { state with validationResult := some result }

def recordEpochAfter (candidate : GitOid) : MergeProg Unit :=
  updateState fun state => .ok { state with epochAfter := some ⟨candidate⟩ }

def recordMergeTargetContext (targetBranch : String) (epochBeforeOverride : Option EpochId) :
    MergeProg Unit :=
  updateState fun state => .ok { state with
    targetBranch := some targetBranch
    epochBefore := epochBeforeOverride.getD state.epochBefore }

def recordCommitMessage (message : String) : MergeProg Unit :=
  ignoreError (updateState fun state => .ok { state with commitMessage := some message })

/-- Abort the merge by writing the reason and removing the state file. -/
def abortMerge (reason : String) : MergeProg Unit := do
  ignoreError do
    let state ← readState
    writeAtomic ((state.abort reason).toOption.getD state)
  ignoreError removeState

/-- Abort the merge if the program fails. -/
def abortOnError {α : Type} (reason : String) (p : MergeProg α) : MergeProg α :=
  onError p (abortMerge reason)

/-- Abort the merge and fail. -/
def abortAndThrow {α : Type} (reason : String) (error : MergeError) : MergeProg α := do
  abortMerge reason
  throw error

/-! ### The phases -/

/-- Whether a merge that was interrupted after its commit had moved the refs. -/
def staleCompleted (existing : MergeStateFile) : MergeProg Bool :=
  match existing.epochCandidate with
  | some candidate =>
    if existing.phase.postCommit then do
      let epoch ← asOption (readRef epochCurrent)
      if epoch = some (some candidate) then
        pure true
      else
        match existing.targetBranch with
        | some branch => do
          let head ← asOption (readRef (branchRef branch))
          pure (head = some (some candidate))
        | none => pure false
    else pure false
  | none => pure false

/-- Take over a state file that is no longer in use. -/
def overwriteState (state : MergeStateFile) : MergeProg Unit := do
  let existing ← asOption readState
  match existing with
  | some existing =>
    if existing.phase.isTerminal then writeAtomic state
    else do
      let completed ← staleCompleted existing
      if completed then writeAtomic state
      else do
        let staleness ← attempt (MergeOp.staleness existing)
        match staleness with
        | .orphaned =>
          if existing.phase.postCommit then throw (.mergeAlreadyInProgress existing.phase false)
          else writeAtomic state
        | .live => throw (.mergeAlreadyInProgress existing.phase true)
        | .indeterminate => throw (.mergeAlreadyInProgress existing.phase false)
  | none => writeAtomic state

/-- Write the first state file of the merge, unless another merge is using it. -/
def createState (state : MergeStateFile) : MergeProg Unit := do
  let created ← attempt (MergeOp.writeExclusive state)
  if created then pure () else overwriteState state

def runPreparePhase (sources : List WorkspaceId) : MergeProg FrozenInputs :=
  if sources = [] then throw .noSources
  else do
    let epoch ← readRef epochCurrent
    match epoch with
    | none => throw .epochNotFound
    | some epoch => do
      let heads ← attempt (MergeOp.readWorkspaceHeads sources)
      otherWork
      createState { MergeStateFile.new sources ⟨epoch⟩ with frozenHeads := heads }
      pure ⟨⟨epoch⟩, heads⟩

def runBuildPhase : MergeProg BuildPhaseOutput := do
  let state ← readState
  if state.phase ≠ .prepare then throw (.wrongPhase state.phase)
  else do
    otherWork
    let state ← ofExcept ((state.advance .build).mapError .state)
    writeAtomic state
    let output ← attempt (MergeOp.runPipeline state)
    writeAtomic { state with epochCandidate := some output.candidate }
    pure output

/-- The candidate to commit: the one that was built, or a patched one. -/
def resolveCandidate (opts : MergeOptions) (mergeBaseEpoch : EpochId) (output : BuildPhaseOutput) :
    MergeProg GitOid :=
  if output.conflictCount = 0 then pure output.candidate
  else if opts.hasResolutions then do
    let remaining ← abortOnError "apply resolutions" (attempt (MergeOp.applyResolutions output))
    if remaining = 0 then
      abortOnError "patch tree failed"
        (attempt (MergeOp.patchCandidateTree mergeBaseEpoch.oid output.candidate))
    else abortAndThrow "partially resolved conflicts" .conflicts
  else abortAndThrow "unresolved conflicts" .conflicts

def recordOutcome (outcome : ValidateOutcome) : MergeProg Unit :=
  match outcome.result with
  | some result => recordValidationResult result
  | none => pure ()

/-- Go on, or abort the merge if the validation failed and the policy does not let it pass. -/
def applyPolicy : ValidateOutcome → MergeProg Unit
  | .skipped | .passed _ | .passedWithWarnings _ => pure ()
  | .blocked _ => abortAndThrow "validation failed (policy: block)" .validate
  | .quarantine _ => abortAndThrow "validation failed (policy: quarantine)" .validate
  | .blockedAndQuarantine _ =>
    abortAndThrow "validation failed (policy: block+quarantine)" .validate

def validateCandidate (opts : MergeOptions) (candidate : GitOid) : MergeProg Unit := do
  otherWork
  if opts.hasCommands then do
    advanceMergeState .validate
    let outcome ← abortOnError "VALIDATE error" (attempt (MergeOp.runValidatePhase candidate))
    recordOutcome outcome
    applyPolicy outcome
  else advanceMergeState .validate

/-- The commit phase of a merge into the epoch; it also writes a state file of its own. -/
def runCommitPhaseWithBranchBase (branch : String)
    (epochBefore branchBefore epochCandidate : GitOid) : MergeProg Unit := do
  otherWork
  updateRefsAtomic [⟨epochCurrent, epochBefore, epochCandidate⟩,
    ⟨branchRef branch, branchBefore, epochCandidate⟩]
  otherWork

/-- Abort the merge if its branch has left the head that was read. -/
def checkBranch (branch : String) (branchBefore : GitOid) : MergeProg Unit := do
  let current ← asOption (readRef (branchRef branch))
  if current.join.isSome ∧ current.join ≠ some branchBefore then
    abortAndThrow "branch diverged from target head since PREPARE (direct commits detected)"
      .diverged
  else pure ()

def commitCandidate (opts : MergeOptions) (mergeBaseEpoch : EpochId)
    (branchBefore candidate : GitOid) : MergeProg Unit := do
  advanceMergeState .commit
  recordEpochAfter candidate
  checkBranch opts.branch branchBefore
  if opts.targetUpdatesEpoch then
    abortOnError "COMMIT failed"
      (runCommitPhaseWithBranchBase opts.branch mergeBaseEpoch.oid branchBefore candidate)
  else
    abortOnError "COMMIT failed (branch-only CAS)"
      (writeRefCas (branchRef opts.branch) branchBefore candidate)

def cleanUp : MergeProg Unit := do
  otherWork
  advanceMergeState .cleanup
  otherWork
  removeState
  otherWork

/-- Absorb a branch that is ahead of the epoch. -/
def reconcileEpochWithBranch (branchOid : GitOid) : MergeProg Unit := do
  let epoch ← asOption (readRef epochCurrent)
  if epoch.join.isSome ∧ epoch.join ≠ some branchOid then
    attempt (MergeOp.absorbFastForward branchOid)
  else pure ()

/-- A merge into the epoch first absorbs its branch. -/
def reconcileTarget (opts : MergeOptions) (branchOid : GitOid) : MergeProg Unit :=
  if opts.targetUpdatesEpoch then reconcileEpochWithBranch branchOid else pure ()

def recordMessage (message : Option String) : MergeProg Unit :=
  match message with
  | some message => recordCommitMessage message
  | none => pure ()

def checkNotEmpty (output : BuildPhaseOutput) : MergeProg Unit :=
  if output.uniqueCount = 0 ∧ output.sharedCount = 0 ∧ output.conflictCount = 0 then
    abortAndThrow "empty merge (no changes)" .emptyMerge
  else pure ()

/-- The phases after the inputs are frozen. -/
def runPhases (opts : MergeOptions) (mergeBaseEpoch : EpochId) (branchBefore : GitOid) :
    MergeProg GitOid := do
  abortOnError "failed to persist target merge context" (recordMergeTargetContext opts.branch
    (if opts.targetUpdatesEpoch then none else some mergeBaseEpoch))
  recordMessage opts.message
  abortOnError "snapshot recording failed" otherWork
  let output ← abortOnError "BUILD failed" runBuildPhase
  checkNotEmpty output
  let candidate ← resolveCandidate opts mergeBaseEpoch output
  validateCandidate opts candidate
  commitCandidate opts mergeBaseEpoch branchBefore candidate
  cleanUp
  pure candidate

/-- Merge the sources into the target. -/
def merge (opts : MergeOptions) : MergeProg GitOid := do
  let branchBefore ← readRef (branchRef opts.branch)
  match branchBefore with
  | none => throw .targetNotFound
  | some branchBefore => do
    reconcileTarget opts branchBefore
    otherWork
    let frozen ← runPreparePhase opts.sources
    runPhases opts (if opts.targetUpdatesEpoch then frozen.epoch else ⟨branchBefore⟩) branchBefore

end MergeProg

/-! ### Aborting it -/

/-- The head of the target branch, if the state file records one. -/
def MergeWorld.targetHead (w : MergeWorld) : Option GitOid :=
  match w.stateFile with
  | some (.state state) => state.targetBranch.bind fun branch => w.refs.lookup (branchRef branch)
  | _ => none

/-- Abort the merge with the current values of the refs. -/
def abortInProgressMerge (w : MergeWorld) :
    Except MergeStateError AbortOutcome × Option StateOnDisk :=
  abortMergeState w.stateFile (w.refs.lookup epochCurrent) w.targetHead

end Maw
