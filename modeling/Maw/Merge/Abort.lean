import Maw.Merge.StateSound

/-!
# Aborting an interrupted merge

A merge is interrupted after any of its operations while others move refs, and then it is aborted
with the current values of the refs. The abort is to clear a merge that has moved nothing, and to
refuse one that has moved a ref and has not ended. It decides so unless the target is a change
branch away from the epoch or a change branch with a patched candidate, unless others undo what the
merge has moved, and unless the first state file is torn.

## Main definitions

* `AtPhase`, `FirstState`, `Before` — what holds between the phases of a merge.

## Main results

* `merge_abortsRightly` — after safe steps an abort decides rightly.
-/

open Interleaved

namespace Maw

variable {branch : String} {w w' : MergeWorld} {state state' : MergeStateFile}
  {φ ψ : MergeStateFile → MergeWorld → Prop}

/-! ### The phases -/

/-- The merge is in this phase, has recorded its target and its base, and has moved nothing. -/
structure AtPhase (branch : String) (base : EpochId) (phase : MergePhase) (state : MergeStateFile)
    (w : MergeWorld) : Prop where
  phase : state.phase = phase
  target : state.targetBranch = some branch
  base : state.epochBefore = base
  unpublished : w.advanced = false

/-- As long as nobody has moved the epoch or the branch, the epoch is this commit. -/
def EpochIs (oid : GitOid) (w : MergeWorld) : Prop :=
  w.moved = false → w.refs.lookup epochCurrent = some oid

/-- As long as nobody has moved the epoch or the branch, neither is at this commit. -/
def Unseen (branch : String) (oid : GitOid) (w : MergeWorld) : Prop :=
  w.moved = false → w.refs.lookup epochCurrent ≠ some oid ∧
    w.refs.lookup (branchRef branch) ≠ some oid

section Phases

variable {base : EpochId} {phase : MergePhase} {oid : GitOid}

theorem stable_and {P P' : MergeWorld → Prop} (h : Stable (SafeMove branch) P)
    (h' : Stable (SafeMove branch) P') : Stable (SafeMove branch) fun w => P w ∧ P' w :=
  fun w w' hmove hw => ⟨h w w' hmove hw.1, h' w w' hmove hw.2⟩

theorem stable_const (p : Prop) : Stable (SafeMove branch) fun _ => p := fun _ _ _ h => h

theorem stable_atPhase (state : MergeStateFile) :
    Stable (SafeMove branch) (AtPhase branch base phase state) :=
  fun _ _ hmove h => ⟨h.phase, h.target, h.base, hmove.1.advanced.trans h.unpublished⟩

theorem stable_epochIs : Stable (SafeMove branch) (EpochIs oid) := by
  intro w w' hmove h hmoved
  obtain ⟨hmoved, hepoch, -⟩ := hmove.1.unmoved hmoved
  exact hepoch.trans (h hmoved)

theorem stable_unseen : Stable (SafeMove branch) (Unseen branch oid) := by
  intro w w' hmove h hmoved
  obtain ⟨hmoved, hepoch, hbranch⟩ := hmove.1.unmoved hmoved
  rw [hepoch, hbranch]
  exact h hmoved

theorem stable_stage_atPhase (branch : String) (base : EpochId) (phase : MergePhase) :
    Stable (SafeMove branch) (Stage branch (AtPhase branch base phase)) :=
  stage_stable stable_atPhase

theorem stable_read_atPhase (branch : String) (base : EpochId) (phase : MergePhase)
    (state : MergeStateFile) : Stable (SafeMove branch)
      (Stage branch fun state' w => state' = state ∧ AtPhase branch base phase state w) :=
  stable_read stable_atPhase state

theorem unwritten_atPhase : Unwritten (AtPhase branch base phase) :=
  fun _ _ _ h => ⟨h.phase, h.target, h.base, h.unpublished⟩

/-- A merge that goes on to another phase has a sound state file as long as it has moved nothing. -/
theorem Sound.advance {next : MergePhase} (h : Sound branch w state) (hw : w.advanced = false) :
    Sound branch w { state with phase := next } :=
  ⟨h.target, h.unmoved, fun hadvanced => by simp [hw] at hadvanced⟩

theorem mergeTriple_advance {next : MergePhase} : MergeTriple branch
    (Stage branch (AtPhase branch base phase)) (MergeProg.advanceMergeState next)
      fun _ => Stage branch (AtPhase branch base next) := by
  refine mergeTriple_updateState stable_atPhase stable_atPhase unwritten_atPhase ?_
  rintro state state' w hsound hφ hadvance
  obtain ⟨-, rfl⟩ := MergeStateFile.advance_eq_ok.mp hadvance
  exact ⟨hsound.advance hφ.unpublished, rfl, hφ.target, hφ.base, hφ.unpublished⟩

/-- Recording something else in the state file. -/
theorem mergeTriple_record {change : MergeStateFile → MergeStateFile}
    (h : ∀ state, (change state).phase = state.phase ∧
      (change state).targetBranch = state.targetBranch ∧
      (change state).epochBefore = state.epochBefore ∧
      (change state).epochCandidate = state.epochCandidate) {E : MergeWorld → Prop}
    (hE : Stable (SafeMove branch) E)
    (hstageE : ∀ w, Stage branch (AtPhase branch base phase) w → E w) :
    Triple safeExec (SafeMove branch) (fun _ w' => StateSound branch w')
      (Stage branch (AtPhase branch base phase)) (MergeProg.updateState fun s => .ok (change s))
      (fun _ => Stage branch (AtPhase branch base phase)) E := by
  refine triple_updateState stable_atPhase stable_atPhase unwritten_atPhase hE hstageE hstageE ?_
  rintro state state' w hsound hφ hchange
  obtain rfl := Except.ok.inj hchange
  obtain ⟨hphase, htarget, hbase, hcandidate⟩ := h state
  refine ⟨⟨htarget ▸ hsound.target, ?_, fun hadvanced => ?_⟩, hphase.trans hφ.phase,
    htarget.trans hφ.target, hbase.trans hφ.base, hφ.unpublished⟩
  · rw [hbase, hcandidate]
    exact hsound.unmoved
  · rw [hφ.unpublished] at hadvanced
    cases hadvanced

theorem mergeTriple_reading {op : MergeOp} {P : MergeWorld → Prop} (hop : op.Reads)
    (hP : Stable (SafeMove branch) P) (hsound : ∀ w, P w → StateSound branch w) :
    MergeTriple branch P (attempt op) fun _ => P :=
  mergeTriple_read hop hP (fun _ => hP) hsound fun _ _ hw _ => hw

theorem mergeTriple_otherWork {P : MergeWorld → Prop} (hP : Stable (SafeMove branch) P)
    (hsound : ∀ w, P w → StateSound branch w) :
    MergeTriple branch P MergeProg.otherWork fun _ => P :=
  mergeTriple_reading trivial hP hsound

end Phases

/-! ### Preparing -/

/-- The base of the merge. -/
def MergeOptions.mergeBase (opts : MergeOptions) (epoch : EpochId) (branchBefore : GitOid) :
    EpochId :=
  if opts.targetUpdatesEpoch then epoch else ⟨branchBefore⟩

/-- What the base of the merge replaces in the state file. -/
def MergeOptions.baseOverride (opts : MergeOptions) (base : EpochId) : Option EpochId :=
  if opts.targetUpdatesEpoch then none else some base

/-- The merge has not written its state file yet. A target that does not update the epoch is at the
epoch as long as nobody has moved either. -/
structure Before (opts : MergeOptions) (branchBefore : GitOid) (w : MergeWorld) : Prop where
  unprepared : w.prepared = false
  unpublished : w.advanced = false
  epoch : opts.targetUpdatesEpoch = false → EpochIs branchBefore w

/-- The first state file of the merge. -/
structure FirstState (opts : MergeOptions) (base : EpochId) (state : MergeStateFile)
    (w : MergeWorld) : Prop where
  phase : state.phase = .prepare
  recorded : (opts.baseOverride base).getD state.epochBefore = base
  unpublished : w.advanced = false
  epoch : EpochIs base.oid w

section Prepare

variable {opts : MergeOptions} {base : EpochId} {branchBefore epoch : GitOid}

theorem stable_before : Stable (SafeMove branch) (Before opts branchBefore) :=
  fun w w' hmove h => ⟨hmove.1.prepared.trans h.unprepared,
    hmove.1.advanced.trans h.unpublished, fun hopts => stable_epochIs w w' hmove (h.epoch hopts)⟩

theorem stable_firstState (state : MergeStateFile) :
    Stable (SafeMove branch) (FirstState opts base state) :=
  fun w w' hmove h => ⟨h.phase, h.recorded, hmove.1.advanced.trans h.unpublished,
    stable_epochIs w w' hmove h.epoch⟩

theorem unwritten_firstState : Unwritten (FirstState opts base) :=
  fun _ _ _ h => ⟨h.phase, h.recorded, h.unpublished, h.epoch⟩

theorem Before.stateSound (h : Before opts branchBefore w) : StateSound branch w := by
  intro hprepared
  rw [h.unprepared] at hprepared
  cases hprepared

theorem firstState_new (hbefore : Before opts branchBefore w) (hepoch : EpochIs epoch w)
    (sources : List WorkspaceId) (heads : FiniteMap WorkspaceId GitOid) :
    Sound branch w { MergeStateFile.new sources ⟨epoch⟩ with frozenHeads := heads } ∧
      FirstState opts (opts.mergeBase ⟨epoch⟩ branchBefore)
        { MergeStateFile.new sources ⟨epoch⟩ with frozenHeads := heads } w := by
  constructor
  · refine ⟨.inl rfl, fun hmoved _ => ⟨hepoch hmoved, fun candidate h => ?_⟩, fun hadvanced => ?_⟩
    · cases h
    · rw [hbefore.unpublished] at hadvanced
      cases hadvanced
  · by_cases hopts : opts.targetUpdatesEpoch = true
    · exact ⟨rfl, by simp [MergeOptions.baseOverride, MergeOptions.mergeBase, hopts, MergeStateFile.new],
        hbefore.unpublished, by simpa [MergeOptions.mergeBase, hopts] using hepoch⟩
    · have hbase : opts.mergeBase ⟨epoch⟩ branchBefore = ⟨branchBefore⟩ := by
        simp [MergeOptions.mergeBase, hopts]
      refine ⟨rfl, by simp [MergeOptions.baseOverride, hopts], hbefore.unpublished, ?_⟩
      rw [hbase]
      exact hbefore.epoch (by simpa using hopts)

theorem only_readRef (name : String) : (MergeProg.readRef name).run.Only MergeOp.Reads := by
  rw [MergeProg.readRef, run_attempt]
  exact ⟨trivial, only_andThen fun _ => trivial⟩

theorem only_staleCompleted (existing : MergeStateFile) :
    (MergeProg.staleCompleted existing).run.Only MergeOp.Reads := by
  rw [MergeProg.staleCompleted]
  split
  · split_ifs
    · refine only_bind (only_asOption (only_readRef _)) fun epoch => ?_
      split_ifs
      · trivial
      · split
        · exact only_bind (only_asOption (only_readRef _)) fun _ => trivial
        · trivial
    · trivial
  · trivial

/-- A state file that is no longer in use is replaced, or left alone. -/
theorem mergeTriple_overwriteState {P R : MergeWorld → Prop} (hP : Stable (SafeMove branch) P)
    (hsound : ∀ w, P w → StateSound branch w)
    (hwrite : MergeTriple branch P (MergeProg.writeAtomic state) fun _ => R) :
    MergeTriple branch P (MergeProg.overwriteState state) fun _ => R := by
  have hthrow (error : MergeError) :
      MergeTriple branch P (throw error : MergeProg Unit) fun _ => R := triple_throw hP hsound
  have hread : (asOption MergeProg.readState).run.Only MergeOp.Reads := by
    refine only_asOption ?_
    rw [MergeProg.readState, run_attempt]
    exact ⟨trivial, only_andThen fun _ => trivial⟩
  refine mergeTriple_bind (mergeTriple_reads hP hsound hread) fun existing => ?_
  rcases existing with _ | existing
  · exact hwrite
  · by_cases hterminal : existing.phase.isTerminal = true
    · simpa only [hterminal, if_true] using hwrite
    · simp only [hterminal]
      refine mergeTriple_bind (mergeTriple_reads hP hsound (only_staleCompleted existing)) ?_
      rintro (_ | _)
      · refine mergeTriple_bind (mergeTriple_reading trivial hP hsound) fun staleness => ?_
        cases staleness with
        | live => exact hthrow _
        | orphaned =>
          dsimp only
          split
          · exact hthrow _
          · exact hwrite
        | indeterminate => exact hthrow _
      · exact hwrite

/-- The state file that is written first. -/
theorem mergeTriple_createState (sources : List WorkspaceId)
    (heads : FiniteMap WorkspaceId GitOid) :
    MergeTriple branch (fun w => Before opts branchBefore w ∧ EpochIs epoch w)
      (MergeProg.createState { MergeStateFile.new sources ⟨epoch⟩ with frozenHeads := heads })
      fun _ => Stage branch (FirstState opts (opts.mergeBase ⟨epoch⟩ branchBefore)) := by
  have hstable : Stable (SafeMove branch)
      fun w => Before opts branchBefore w ∧ EpochIs epoch w :=
    stable_and stable_before stable_epochIs
  have hsound (w : MergeWorld) (hw : Before opts branchBefore w ∧ EpochIs epoch w) :
      StateSound branch w := hw.1.stateSound
  have hstage : Stable (SafeMove branch)
      (Stage branch (FirstState opts (opts.mergeBase ⟨epoch⟩ branchBefore))) :=
    stage_stable stable_firstState
  refine mergeTriple_bind (R := fun created w => bif created then
    Stage branch (FirstState opts (opts.mergeBase ⟨epoch⟩ branchBefore)) w
      else Before opts branchBefore w ∧ EpochIs epoch w) ?_ ?_
  · refine triple_attempt hstable ?_ stateSound_stable ?_
    · rintro (_ | _)
      · exact hstable
      · exact hstage
    · rintro w r w' hw ⟨hexec, hsafe⟩
      have hfirst : Sound branch w _ ∧ FirstState opts _ _ w :=
        firstState_new hw.1 hw.2 sources heads
      obtain ⟨hnew, hprepared⟩ := hfirst
      have hwritten := Stage.of_write hnew (unwritten_firstState _ w _ hprepared)
      rcases hexec with ⟨-, rfl, rfl⟩ | ⟨-, rfl, rfl⟩ | ⟨rfl, rfl | ⟨hnone, rfl | rfl⟩⟩
      · exact ⟨hsound w' hw, hw⟩
      · exact ⟨hwritten.stateSound, hwritten⟩
      · exact ⟨hsound w' hw, hsound w' hw⟩
      · have hcorrupt := hsafe.whole rfl
        rw [hnone] at hcorrupt
        cases hcorrupt
      · exact ⟨hwritten.stateSound, hwritten.stateSound⟩
  · rintro (_ | _)
    · refine mergeTriple_overwriteState hstable hsound ?_
      exact triple_writeAtomic hstable stable_firstState stateSound_stable unwritten_firstState hsound
        hsound (fun _ hw => hw.stateSound) fun w hw => firstState_new hw.1 hw.2 sources heads
    · exact triple_pure hstage fun _ hw => hw

theorem mergeTriple_runPreparePhase (sources : List WorkspaceId) :
    MergeTriple branch (Before opts branchBefore) (MergeProg.runPreparePhase sources)
      fun frozen => Stage branch (FirstState opts (opts.mergeBase frozen.epoch branchBefore)) := by
  have hsound (w : MergeWorld) (hw : Before opts branchBefore w) : StateSound branch w :=
    hw.stateSound
  rw [MergeProg.runPreparePhase]
  split
  · exact triple_throw stable_before hsound
  · refine mergeTriple_bind (R := fun epoch w => Before opts branchBefore w ∧
      ∀ oid, epoch = some oid → EpochIs oid w) ?_ ?_
    · refine mergeTriple_read trivial stable_before (fun epoch => stable_and stable_before ?_)
        hsound ?_
      · exact fun w w' hmove h oid hoid => stable_epochIs w w' hmove (h oid hoid)
      · rintro w epoch hw ⟨hread | ⟨e, he⟩, -⟩
        · refine ⟨hw, fun oid hoid _ => ?_⟩
          rw [← hoid]
          exact (Except.ok.inj hread).symm
        · cases he
    · rintro (_ | epoch)
      · exact triple_throw (stable_and stable_before
          fun w w' hmove h oid hoid => stable_epochIs w w' hmove (h oid hoid)) fun w hw => hsound w hw.1
      · have hstable : Stable (SafeMove branch)
            fun w => Before opts branchBefore w ∧ EpochIs epoch w :=
          stable_and stable_before stable_epochIs
        refine Triple.of_imp (P := fun w => Before opts branchBefore w ∧ EpochIs epoch w) ?_
          (stable_and stable_before
            fun w w' hmove h oid hoid => stable_epochIs w w' hmove (h oid hoid))
          fun w hw => ⟨hw.1, hw.2 epoch rfl⟩
        refine mergeTriple_bind (mergeTriple_reading trivial hstable fun w hw => hsound w hw.1)
          fun heads => ?_
        refine mergeTriple_bind (mergeTriple_otherWork hstable
          fun w hw => hsound w hw.1) fun _ => ?_
        refine mergeTriple_bind (mergeTriple_createState sources heads) fun _ => ?_
        exact triple_pure (stage_stable stable_firstState) fun _ hw => hw

/-- The merge records its target and its base. -/
theorem mergeTriple_recordContext {base : EpochId} :
    MergeTriple opts.branch (Stage opts.branch (FirstState opts base))
      (MergeProg.recordMergeTargetContext opts.branch (opts.baseOverride base))
      fun _ => Stage opts.branch (AtPhase opts.branch base .prepare) := by
  refine mergeTriple_updateState stable_firstState stable_atPhase unwritten_atPhase ?_
  rintro state state' w hsound hφ hchange
  obtain rfl := Except.ok.inj hchange
  refine ⟨⟨.inr rfl, fun hmoved hadvanced => ?_, fun hadvanced => ?_⟩, hφ.phase, rfl, hφ.recorded,
    hφ.unpublished⟩
  · have hepoch := hφ.epoch hmoved
    rw [hφ.recorded]
    exact ⟨hepoch, (hsound.unmoved hmoved hadvanced).2⟩
  · rw [hφ.unpublished] at hadvanced
    cases hadvanced

end Prepare

/-! ### Building, validating and committing -/

section Commit

variable {opts : MergeOptions} {base : EpochId} {branchBefore candidate : GitOid}
  {phase : MergePhase}

theorem mergeTriple_recordMessage (message : Option String) :
    MergeTriple branch (Stage branch (AtPhase branch base phase)) (MergeProg.recordMessage message)
      fun _ => Stage branch (AtPhase branch base phase) := by
  have hstable := stable_stage_atPhase branch base phase
  rcases message with _ | message
  · exact triple_pure hstable fun _ hw => hw
  · have hrecord : Triple safeExec (SafeMove branch) (fun _ w' => StateSound branch w')
        (Stage branch (AtPhase branch base phase))
        (MergeProg.updateState fun state => .ok { state with commitMessage := some message })
        (fun _ => Stage branch (AtPhase branch base phase))
        (Stage branch (AtPhase branch base phase)) := by
      refine mergeTriple_record ?_ hstable fun _ hw => hw
      exact fun state => ⟨rfl, rfl, rfl, rfl⟩
    refine triple_ignoreError hstable (Meets.imp hrecord ?_)
    rintro (e | a) w hw
    · exact hw
    · exact hw

/-- The candidate is built and recorded. -/
theorem mergeTriple_pipeline (state : MergeStateFile) :
    MergeTriple branch
      (Stage branch fun state' w => state' = state ∧ AtPhase branch base .build state w)
      (do
        let output ← attempt (MergeOp.runPipeline state)
        MergeProg.writeAtomic { state with epochCandidate := some output.candidate }
        pure output)
      fun output w => output.candidate ≠ base.oid ∧
        Stage branch (AtPhase branch base .build) w := by
  have hread := stable_read_atPhase branch base .build
  have hstage := stable_stage_atPhase branch base .build
  have hunseen (output : BuildPhaseOutput) : Stable (SafeMove branch) (Stage branch fun state' w =>
      (state' = state ∧ AtPhase branch base .build state w) ∧
        Unseen branch output.candidate w) :=
    stage_stable fun state' => stable_and
      (stable_and (stable_const _) (stable_atPhase state)) stable_unseen
  refine mergeTriple_bind (R := fun output w => output.candidate ≠ base.oid ∧
    Stage branch (fun state' w => (state' = state ∧ AtPhase branch base .build state w) ∧
      Unseen branch output.candidate w) w) ?_ fun output => ?_
  · refine mergeTriple_read trivial (hread state)
      (fun output => stable_and (stable_const _) (hunseen output)) (fun w hw => hw.stateSound) ?_
    rintro w output ⟨_, hprepared, hfile, hsound, rfl, hφ⟩ ⟨hfresh, -⟩
    obtain ⟨hne, hrefs⟩ := hfresh output rfl
    rw [hφ.base] at hne
    exact ⟨hne, _, hprepared, hfile, hsound, ⟨rfl, hφ⟩, fun _ => ⟨hrefs _, hrefs _⟩⟩
  · refine triple_of_fact fun hne => ?_
    refine mergeTriple_bind (R := fun _ => Stage branch (AtPhase branch base .build)) ?_ fun _ =>
      triple_pure hstage fun _ hw => ⟨hne, hw⟩
    refine triple_writeAtomic (hunseen output) stable_atPhase stateSound_stable unwritten_atPhase
      (fun w hw => hw.stateSound) (fun w hw => hw.stateSound) (fun w hw => hw.stateSound) ?_
    rintro w ⟨_, -, -, hsound, ⟨rfl, hφ⟩, hrefs⟩
    refine ⟨⟨hsound.target, fun hmoved hadvanced => ?_, fun hadvanced => ?_⟩,
      hφ.phase, hφ.target, hφ.base, hφ.unpublished⟩
    · refine ⟨(hsound.unmoved hmoved hadvanced).1, fun candidate hcandidate => ?_⟩
      cases hcandidate
      exact hrefs hmoved
    · rw [hφ.unpublished] at hadvanced
      cases hadvanced

theorem mergeTriple_runBuildPhase :
    MergeTriple branch (Stage branch (AtPhase branch base .prepare)) MergeProg.runBuildPhase
      fun output w => output.candidate ≠ base.oid ∧
        Stage branch (AtPhase branch base .build) w := by
  have hread := stable_read_atPhase branch base .prepare
  refine mergeTriple_bind (triple_readState stable_atPhase stateSound_stable
    fun _ hw => hw.stateSound) fun state => ?_
  split
  · exact triple_throw (hread state) fun w hw => hw.stateSound
  · refine mergeTriple_bind (mergeTriple_otherWork (hread state)
      fun w hw => hw.stateSound) fun _ => ?_
    refine mergeTriple_bind (R := fun state' w => state' = { state with phase := .build } ∧
      Stage branch (fun state' w => state' = state ∧ AtPhase branch base .prepare state w) w)
      (triple_ofExcept (hread state) fun w hw => ?_) fun state' => ?_
    · rcases hadvance : state.advance .build with e | state'
      · exact hw.stateSound
      · exact ⟨(MergeStateFile.advance_eq_ok.mp hadvance).2, hw⟩
    · refine mergeTriple_bind (R := fun _ => Stage branch fun state'' w =>
        state'' = state' ∧ AtPhase branch base .build state' w) ?_ fun _ =>
          mergeTriple_pipeline state'
      refine triple_writeAtomic (stable_and (stable_const _) (hread state))
        (fun _ => stable_and (stable_const _) (stable_atPhase state')) stateSound_stable
        (fun _ w _ h => ⟨h.1, unwritten_atPhase _ w _ h.2⟩) (fun w hw => hw.2.stateSound)
        (fun w hw => hw.2.stateSound) (fun w hw => hw.stateSound) ?_
      rintro w ⟨rfl, _, -, -, hsound, rfl, hφ⟩
      exact ⟨hsound.advance hφ.unpublished, rfl, rfl, hφ.target, hφ.base, hφ.unpublished⟩

theorem mergeTriple_checkNotEmpty {output : BuildPhaseOutput} :
    MergeTriple branch (Stage branch (AtPhase branch base phase)) (MergeProg.checkNotEmpty output)
      fun _ => Stage branch (AtPhase branch base phase) := by
  rw [MergeProg.checkNotEmpty]
  split_ifs
  · exact mergeTriple_abortAndThrow (stage_stable stable_atPhase) fun w hw => hw.stateSound
  · exact triple_pure (stage_stable stable_atPhase) fun _ hw => hw

/-- The candidate that is committed is not the base either. -/
theorem mergeTriple_resolveCandidate {output : BuildPhaseOutput}
    (hne : output.candidate ≠ base.oid) :
    MergeTriple branch (Stage branch (AtPhase branch base phase))
      (MergeProg.resolveCandidate opts base output)
      fun candidate w => candidate ≠ base.oid ∧ Stage branch (AtPhase branch base phase) w := by
  have hstage := stable_stage_atPhase branch base phase
  have hsound (w : MergeWorld) (hw : Stage branch (AtPhase branch base phase) w) :
      StateSound branch w := hw.stateSound
  have hpost (candidate : GitOid) : Stable (SafeMove branch)
      fun w => candidate ≠ base.oid ∧ Stage branch (AtPhase branch base phase) w :=
    stable_and (stable_const _) hstage
  rw [MergeProg.resolveCandidate]
  split_ifs
  · exact triple_pure hstage fun w hw => ⟨hne, hw⟩
  · refine mergeTriple_bind (mergeTriple_abortOnError (fun _ => hstage)
      (mergeTriple_reading trivial hstage hsound)) fun remaining => ?_
    split_ifs
    · refine mergeTriple_abortOnError hpost (mergeTriple_read trivial hstage hpost hsound ?_)
      rintro w oid hw ⟨hpatched, -⟩
      rcases hpatched oid rfl with rfl | ⟨hfresh, -⟩
      · exact ⟨hne, hw⟩
      · exact ⟨hfresh, hw⟩
    · exact mergeTriple_abortAndThrow hstage hsound
  · exact mergeTriple_abortAndThrow hstage hsound

theorem mergeTriple_validateCandidate :
    MergeTriple branch (Stage branch (AtPhase branch base phase))
      (MergeProg.validateCandidate opts candidate)
      fun _ => Stage branch (AtPhase branch base .validate) := by
  have hstage (phase : MergePhase) :=
    stable_stage_atPhase branch base phase
  have hsound (phase : MergePhase) (w : MergeWorld)
      (hw : Stage branch (AtPhase branch base phase) w) : StateSound branch w := hw.stateSound
  refine mergeTriple_bind (mergeTriple_otherWork (hstage phase)
    (hsound phase)) fun _ => ?_
  split
  · refine mergeTriple_bind mergeTriple_advance fun _ => ?_
    refine mergeTriple_bind (mergeTriple_abortOnError (fun _ => hstage .validate)
      (mergeTriple_reading trivial (hstage .validate) (hsound .validate))) fun outcome => ?_
    refine mergeTriple_bind (R := fun _ => Stage branch (AtPhase branch base .validate)) ?_
      fun _ => ?_
    · rw [MergeProg.recordOutcome]
      split
      · refine mergeTriple_record ?_ stateSound_stable fun w hw => hw.stateSound
        exact fun state => ⟨rfl, rfl, rfl, rfl⟩
      · exact triple_pure (hstage .validate) fun _ hw => hw
    · cases outcome with
      | skipped => exact triple_pure (hstage .validate) fun _ hw => hw
      | passed result => exact triple_pure (hstage .validate) fun _ hw => hw
      | passedWithWarnings result => exact triple_pure (hstage .validate) fun _ hw => hw
      | blocked result => exact mergeTriple_abortAndThrow (hstage .validate) (hsound .validate)
      | quarantine result => exact mergeTriple_abortAndThrow (hstage .validate) (hsound .validate)
      | blockedAndQuarantine result =>
        exact mergeTriple_abortAndThrow (hstage .validate) (hsound .validate)
  · exact mergeTriple_advance

/-- The refs have moved, or not yet: the state file is in its commit phase. -/
def Committed (state : MergeStateFile) (_ : MergeWorld) : Prop := state.phase = .commit

theorem stable_committed (state : MergeStateFile) : Stable (SafeMove branch) (Committed state) :=
  stable_const _

/-- The update of the refs, if the state file then shows it. -/
theorem mergeTriple_updateRefs {edits : List RefEdit}
    (h : ∀ w state, w.stateFile = some (.state state) → AtPhase branch base .commit state w →
      (MergeOp.updateRefsAtomic edits).SafeStep w
        { w with refs := w.refs.setAll edits, advanced := true } →
      Visible branch state (w.refs.setAll edits)) :
    MergeTriple branch (Stage branch (AtPhase branch base .commit))
      (MergeProg.updateRefsAtomic edits) fun _ => Stage branch Committed := by
  refine triple_attempt (stage_stable stable_atPhase) (fun _ => stage_stable stable_committed)
    stateSound_stable ?_
  rintro w r w' hw ⟨⟨result, refs, hupdate, rfl, rfl⟩, hsafe⟩
  rcases hupdate with ⟨rfl, -, rfl⟩ | ⟨⟨e, rfl⟩, rfl⟩
  · obtain ⟨state, hprepared, hfile, hsound, hφ⟩ := hw
    have hadvanced : (w.advanced || (Except.ok () : Except RefError Unit).isOk) = true := by
      rw [Bool.or_comm]
      rfl
    rw [hadvanced] at hsafe ⊢
    have hstage : Stage branch Committed
        { w with refs := w.refs.setAll edits, advanced := true } := by
      refine ⟨state, hprepared, hfile, ⟨hsound.target, fun _ h => ?_, fun _ => ?_⟩, hφ.phase⟩
      · cases h
      · refine ⟨?_, hφ.target, h w state hfile hφ hsafe⟩
        rw [hφ.phase]
        rfl
    exact ⟨hstage.stateSound, hstage⟩
  · have hsame : ({ w with refs := w.refs, advanced := w.advanced ||
        (Except.error e : Except RefError Unit).isOk } : MergeWorld) = w := by
      simp [Except.isOk, Except.toBool]
    rw [hsame]
    exact ⟨hw.stateSound, hw.stateSound⟩

/-- Both refs are moved: the epoch leaves the base. -/
theorem mergeTriple_commitEpoch (hne : candidate ≠ base.oid) :
    MergeTriple branch (Stage branch (AtPhase branch base .commit))
      (MergeProg.runCommitPhaseWithBranchBase branch base.oid branchBefore candidate)
      fun _ => Stage branch Committed := by
  refine mergeTriple_bind (mergeTriple_otherWork
    (stage_stable stable_atPhase) fun w hw => hw.stateSound) fun _ => ?_
  refine mergeTriple_bind (mergeTriple_updateRefs fun w state hfile hφ hsafe => .inl ?_) fun _ =>
    mergeTriple_reading trivial (stage_stable stable_committed) fun w hw => hw.stateSound
  have hepoch : (w.refs.setAll [⟨epochCurrent, base.oid, candidate⟩,
      ⟨branchRef branch, branchBefore, candidate⟩]).lookup epochCurrent = some candidate := by
    rw [RefStore.setAll, List.foldl_cons, List.foldl_cons, List.foldl_nil,
      FiniteMap.lookup_insert, FiniteMap.lookup_insert, if_neg (branchRef_ne_epochCurrent _).symm,
      if_pos rfl]
  rw [hepoch]
  exact ⟨by simp, by simpa [hφ.base] using hne⟩

/-- The branch alone is moved: it comes to the candidate that was built. -/
theorem mergeTriple_commitBranch :
    MergeTriple branch (Stage branch (AtPhase branch base .commit))
      (MergeProg.writeRefCas (branchRef branch) branchBefore candidate)
      fun _ => Stage branch Committed := by
  refine mergeTriple_updateRefs fun w state hfile hφ hsafe => .inr ?_
  have hcandidate := hsafe.recorded _ rfl state hfile
  rw [hcandidate, RefStore.setAll, List.foldl_cons, List.foldl_nil, FiniteMap.lookup_insert,
    if_pos rfl]
  exact ⟨by simp, rfl⟩

theorem mergeTriple_commitCandidate (hne : candidate ≠ base.oid) :
    MergeTriple opts.branch (Stage opts.branch (AtPhase opts.branch base .validate))
      (MergeProg.commitCandidate opts base branchBefore candidate)
      fun _ => Stage opts.branch Committed := by
  have hstage := stable_stage_atPhase opts.branch base .commit
  have hsound (w : MergeWorld) (hw : Stage opts.branch (AtPhase opts.branch base .commit) w) :
      StateSound opts.branch w := hw.stateSound
  have hcommitted (_ : Unit) : Stable (SafeMove opts.branch) (Stage opts.branch Committed) :=
    stage_stable stable_committed
  refine mergeTriple_bind mergeTriple_advance fun _ => ?_
  refine mergeTriple_bind (R := fun _ => Stage opts.branch (AtPhase opts.branch base .commit)) ?_
    fun _ => ?_
  · refine mergeTriple_record ?_ stateSound_stable hsound
    exact fun state => ⟨rfl, rfl, rfl, rfl⟩
  refine mergeTriple_bind (R := fun _ => Stage opts.branch (AtPhase opts.branch base .commit)) ?_
    fun _ => ?_
  · refine mergeTriple_bind (mergeTriple_reads hstage hsound (only_asOption (only_readRef _)))
      fun current => ?_
    split_ifs
    · exact mergeTriple_abortAndThrow hstage hsound
    · exact triple_pure hstage fun _ hw => hw
  split
  · exact mergeTriple_abortOnError hcommitted (mergeTriple_commitEpoch hne)
  · exact mergeTriple_abortOnError hcommitted mergeTriple_commitBranch

/-- The cleanup ends the merge. -/
theorem mergeTriple_cleanUp :
    MergeTriple branch (Stage branch Committed) MergeProg.cleanUp fun _ => StateSound branch := by
  have htrue (state : MergeStateFile) : Stable (SafeMove branch)
      ((fun _ _ => True : MergeStateFile → MergeWorld → Prop) state) := stable_const _
  refine mergeTriple_bind (mergeTriple_otherWork
    (stage_stable stable_committed) fun w hw => hw.stateSound) fun _ => ?_
  refine mergeTriple_bind (R := fun _ => Stage branch fun _ _ => True) ?_ fun _ => ?_
  · refine mergeTriple_updateState stable_committed htrue (fun _ _ _ _ => trivial) ?_
    rintro state state' w hsound - hadvance
    obtain ⟨-, rfl⟩ := MergeStateFile.advance_eq_ok.mp hadvance
    exact ⟨⟨hsound.target, hsound.unmoved, fun hadvanced =>
      ⟨rfl, (hsound.shown hadvanced).2⟩⟩, trivial⟩
  refine mergeTriple_bind (mergeTriple_otherWork (stage_stable htrue)
    fun w hw => hw.stateSound) fun _ => ?_
  refine mergeTriple_bind (R := fun _ => StateSound branch) ?_ fun _ =>
    mergeTriple_reading trivial stateSound_stable fun _ hw => hw
  refine triple_attempt (stage_stable htrue) (fun _ => stateSound_stable) stateSound_stable ?_
  rintro w r w' hw ⟨hexec, -⟩
  have haborts : MergeOp.removeState.Aborts := trivial
  have hsound := haborts.exec hexec hw.stateSound
  rcases r with e | _
  · exact ⟨hsound, hsound⟩
  · exact ⟨hsound, hsound⟩

/-- All phases after the inputs are frozen. -/
theorem mergeTriple_runPhases :
    MergeTriple opts.branch (Stage opts.branch (FirstState opts base))
      (MergeProg.runPhases opts base branchBefore) fun _ => StateSound opts.branch := by
  have hstage (phase : MergePhase) :=
    stable_stage_atPhase opts.branch base phase
  refine mergeTriple_bind (mergeTriple_abortOnError (fun _ => hstage .prepare)
    mergeTriple_recordContext) fun _ => ?_
  refine mergeTriple_bind (mergeTriple_recordMessage _) fun _ => ?_
  refine mergeTriple_bind (mergeTriple_abortOnError (fun _ => hstage .prepare)
    (mergeTriple_otherWork (hstage .prepare) fun w hw => hw.stateSound))
      fun _ => ?_
  refine mergeTriple_bind (mergeTriple_abortOnError
    (fun output => stable_and (stable_const _) (hstage .build)) mergeTriple_runBuildPhase)
      fun output => triple_of_fact fun hne => ?_
  refine mergeTriple_bind mergeTriple_checkNotEmpty fun _ => ?_
  refine mergeTriple_bind (mergeTriple_resolveCandidate hne) fun candidate =>
    triple_of_fact fun hcandidate => ?_
  refine mergeTriple_bind mergeTriple_validateCandidate fun _ => ?_
  refine mergeTriple_bind (mergeTriple_commitCandidate hcandidate) fun _ => ?_
  refine mergeTriple_bind mergeTriple_cleanUp fun _ => ?_
  exact triple_pure stateSound_stable fun _ hw => hw

end Commit

/-! ### Whole runs -/

section Merge

variable {opts : MergeOptions} {branchBefore : GitOid}

/-- The merge has not written its state file yet, and its target is at the epoch as long as nobody
has moved either. -/
def Early (opts : MergeOptions) (w : MergeWorld) : Prop :=
  w.prepared = false ∧ w.advanced = false ∧ (opts.targetUpdatesEpoch = false → w.moved = false →
    w.refs.lookup epochCurrent = w.refs.lookup (branchRef opts.branch))

theorem stable_early : Stable (SafeMove opts.branch) (Early opts) := by
  rintro w w' hmove ⟨hprepared, hadvanced, htarget⟩
  refine ⟨hmove.1.prepared.trans hprepared, hmove.1.advanced.trans hadvanced,
    fun hopts hmoved => ?_⟩
  obtain ⟨hmoved, hepoch, hbranch⟩ := hmove.1.unmoved hmoved
  rw [hepoch, hbranch]
  exact htarget hopts hmoved

/-- The branch may be absorbed into the epoch before the merge into the epoch. -/
theorem mergeTriple_reconcile (hopts : opts.targetUpdatesEpoch = true) :
    MergeTriple branch (Before opts branchBefore)
      (MergeProg.reconcileEpochWithBranch branchBefore) fun _ => Before opts branchBefore := by
  have hsound (w : MergeWorld) (hw : Before opts branchBefore w) : StateSound branch w :=
    hw.stateSound
  refine mergeTriple_bind (mergeTriple_reads stable_before hsound
    (only_asOption (only_readRef _))) fun epoch => ?_
  split_ifs
  · refine triple_attempt stable_before (fun _ => stable_before) stateSound_stable ?_
    rintro w r w' hw ⟨⟨rfl, rfl⟩ | ⟨rfl, rfl⟩, -⟩
    · have hbefore : Before opts branchBefore
          { w with refs := w.refs.insert epochCurrent branchBefore } := by
        refine ⟨hw.unprepared, hw.unpublished, fun h => ?_⟩
        rw [hopts] at h
        cases h
      exact ⟨hbefore.stateSound, hbefore⟩
    · exact ⟨hsound w' hw, hsound w' hw⟩
  · exact triple_pure stable_before fun _ hw => hw

theorem mergeTriple_merge :
    MergeTriple opts.branch (Early opts) (MergeProg.merge opts) fun _ => StateSound opts.branch := by
  have hsound (w : MergeWorld) (hw : Early opts w) : StateSound opts.branch w := by
    intro hprepared
    rw [hw.1] at hprepared
    cases hprepared
  have hread (head : Option GitOid) : Stable (SafeMove opts.branch)
      fun w => Early opts w ∧ ∀ oid, head = some oid → Before opts oid w :=
    stable_and stable_early fun w w' hmove h oid hoid => stable_before w w' hmove (h oid hoid)
  refine mergeTriple_bind (R := fun head w => Early opts w ∧
    ∀ oid, head = some oid → Before opts oid w) ?_ ?_
  · refine mergeTriple_read trivial stable_early hread hsound ?_
    rintro w head hw ⟨hlookup | ⟨e, he⟩, -⟩
    · refine ⟨hw, fun oid hoid => ⟨hw.1, hw.2.1, fun hopts hmoved => ?_⟩⟩
      rw [hw.2.2 hopts hmoved, ← hoid]
      exact (Except.ok.inj hlookup).symm
    · cases he
  · rintro (_ | branchBefore)
    · exact triple_throw (hread none) fun w hw => hsound w hw.1
    · refine Triple.of_imp (P := Before opts branchBefore) ?_ (hread _)
        fun w hw => hw.2 branchBefore rfl
      have hbefore (w : MergeWorld) (hw : Before opts branchBefore w) :
          StateSound opts.branch w := hw.stateSound
      refine mergeTriple_bind (R := fun _ => Before opts branchBefore) ?_ fun _ => ?_
      · rw [MergeProg.reconcileTarget]
        split_ifs with hopts
        · exact mergeTriple_reconcile hopts
        · exact triple_pure stable_before fun _ hw => hw
      refine mergeTriple_bind (mergeTriple_otherWork stable_before hbefore)
        fun _ => ?_
      refine mergeTriple_bind (mergeTriple_runPreparePhase opts.sources) fun frozen => ?_
      exact mergeTriple_runPhases

end Merge

/-- If the target is at the epoch or the merge updates the epoch, then after any interruption of a
run of safe steps the merge is aborted rightly. -/
theorem merge_abortsRightly {opts : MergeOptions} {refs : RefStore} {file : Option StateOnDisk}
    (htarget : opts.AtEpoch refs)
    {q : Prog MergeOp (fun op => Except MergeError op.Ret) (Except MergeError GitOid)}
    {w : MergeWorld} (hrun : Prog.RunsAmid safeExec (SafeMove opts.branch)
      (MergeProg.merge opts).run (.start refs file) q w)
    (hprepared : w.prepared = true) (hfile : w.stateFile ≠ none) : AbortsRightly w := by
  have hearly : Early opts (.start refs file) := by
    refine ⟨rfl, rfl, fun hopts _ => ?_⟩
    rcases htarget with htarget | htarget
    · rw [htarget] at hopts
      cases hopts
    · exact htarget
  have hstart : StateSound opts.branch (.start refs file) := fun h => by cases h
  have hsound : StateSound opts.branch w :=
    hrun.invariant (fun w w' hmove => stateSound_stable w w' hmove) mergeTriple_merge hearly hstart
  exact hsound.abortsRightly hprepared hfile

/-! ### A merge into a change branch -/

/-- A merge of one workspace into a change branch. -/
def changeMerge : MergeOptions where
  sources := [⟨"alice"⟩]
  branch := "change"
  targetUpdatesEpoch := false
  message := none
  hasResolutions := false
  hasCommands := false

/-- The epoch and the change branch. -/
def changeRefs (epoch head : GitOid) : RefStore :=
  ((∅ : RefStore).insert epochCurrent epoch).insert (branchRef "change") head

/-- The state file with the target recorded. -/
def changeState (head : GitOid) : MergeStateFile :=
  { MergeStateFile.new [⟨"alice"⟩] ⟨head⟩ with targetBranch := some "change" }

/-- The merge, interrupted once it has recorded its target. -/
def changeWorld (epoch head : GitOid) : MergeWorld :=
  (MergeWorld.start (changeRefs epoch head) none).write (.state (changeState head))

theorem lookup_changeRefs (epoch head : GitOid) :
    (changeRefs epoch head).lookup epochCurrent = some epoch ∧
      (changeRefs epoch head).lookup (branchRef "change") = some head := by
  constructor
  · rw [changeRefs, FiniteMap.lookup_insert, if_neg (branchRef_ne_epochCurrent _).symm,
      FiniteMap.lookup_insert, if_pos rfl]
  · rw [changeRefs, FiniteMap.lookup_insert, if_pos rfl]

theorem runs_changeMerge (epoch head : GitOid) : ∃ q,
    Prog.RunsAmid safeExec (SafeMove "change") (MergeProg.merge changeMerge).run
      (.start (changeRefs epoch head) none) q (changeWorld epoch head) := by
  have hsafe {op : MergeOp} {r : Except MergeError op.Ret} {w w' : MergeWorld}
      (hexec : op.exec w r w') (hfile : w'.stateFile ≠ some .corrupt)
      (hop : ∀ edits, op ≠ .updateRefsAtomic edits) : safeExec op w r w' :=
    ⟨hexec, fun h => absurd h hfile, fun edit h => absurd h (hop _)⟩
  obtain ⟨hepoch, hhead⟩ := lookup_changeRefs epoch head
  let start := MergeWorld.start (changeRefs epoch head) none
  let first := MergeStateFile.new [⟨"alice"⟩] ⟨epoch⟩
  have hstart : start.stateFile ≠ some .corrupt := by simp [start, MergeWorld.start]
  have hfirst : (start.write (.state first)).stateFile ≠ some .corrupt := by
    simp [MergeWorld.write]
  have hwork : safeExec .otherWork start (.ok ()) start := hsafe rfl hstart (by simp)
  have hheads : safeExec (.readWorkspaceHeads [⟨"alice"⟩]) start (.ok ∅) start :=
    hsafe rfl hstart (by simp)
  have hcreate : safeExec (.writeExclusive first) start (.ok true) (start.write (.state first)) :=
    hsafe (.inr (.inl ⟨rfl, rfl, rfl⟩)) hfirst (by simp)
  have hprepare : Prog.RunsAmid safeExec (SafeMove "change")
      (MergeProg.runPreparePhase [⟨"alice"⟩]).run start (.done (.ok ⟨⟨epoch⟩, ∅⟩))
      (start.write (.state first)) := by
    refine runsAmid_bind (runsAmid_attempt (hsafe
      ⟨.inl (congrArg Except.ok hepoch.symm), rfl⟩ hstart (by simp))) ?_
    refine runsAmid_bind (runsAmid_attempt hheads) ?_
    refine runsAmid_bind (runsAmid_attempt hwork) (runsAmid_bind (a := ()) ?_ (.refl _ _))
    exact runsAmid_bind (runsAmid_attempt hcreate) (.refl _ _)
  have hrecord : Prog.RunsAmid safeExec (SafeMove "change")
      (MergeProg.recordMergeTargetContext "change" (some ⟨head⟩)).run (start.write (.state first))
      (.done (.ok ())) (changeWorld epoch head) := by
    refine runsAmid_bind (runsAmid_attempt (hsafe ⟨.inl ⟨first, rfl, rfl⟩, rfl⟩ hfirst (by simp))) ?_
    refine runsAmid_bind (a := changeState head) (.refl _ _) (runsAmid_attempt (hsafe
      (.inl ⟨rfl, rfl⟩) (by simp [changeWorld, MergeWorld.write]) (by simp)))
  refine exists_runsAmid_bind (runsAmid_attempt (hsafe
    ⟨.inl (congrArg Except.ok hhead.symm), rfl⟩ hstart (by simp))) ?_
  refine exists_runsAmid_bind (.refl _ _) (exists_runsAmid_bind (runsAmid_attempt hwork) ?_)
  refine exists_runsAmid_bind hprepare (exists_runsAmid_bind (runsAmid_onError hrecord) ?_)
  exact ⟨_, .refl _ _⟩

/-- A merge into a change branch at the epoch is cleared once it has recorded its target. -/
theorem merge_abortsRightly_changeMerge : AbortsRightly (changeWorld ⟨1⟩ ⟨1⟩) := by
  obtain ⟨hepoch, hhead⟩ := lookup_changeRefs ⟨1⟩ ⟨1⟩
  obtain ⟨q, hrun⟩ := runs_changeMerge ⟨1⟩ ⟨1⟩
  have htarget : changeMerge.AtEpoch (changeRefs ⟨1⟩ ⟨1⟩) := .inr (hepoch.trans hhead.symm)
  exact merge_abortsRightly htarget hrun rfl (by simp [changeWorld, MergeWorld.write])

/-- A merge into a change branch away from the epoch is not cleared, although nothing has moved. -/
theorem abort_refuses_changeMerge : ¬ ∀ (opts : MergeOptions) (refs : RefStore)
    (file : Option StateOnDisk)
    (q : Prog MergeOp (fun op => Except MergeError op.Ret) (Except MergeError GitOid))
    (w : MergeWorld), Prog.RunsAmid MergeOp.exec (OthersMove opts.branch)
      (MergeProg.merge opts).run (.start refs file) q w →
    w.prepared = true → w.stateFile ≠ none → AbortsRightly w := by
  intro h
  obtain ⟨hepoch, -⟩ := lookup_changeRefs ⟨1⟩ ⟨2⟩
  obtain ⟨q, hrun⟩ := runs_changeMerge ⟨1⟩ ⟨2⟩
  have hrights := h changeMerge _ _ q _ (hrun.mono (fun _ _ _ _ h => h.1) fun _ _ h => h.1) rfl
    (by simp [changeWorld, MergeWorld.write])
  rcases abort_clears_iff.mp (hrights.clears rfl rfl) with hterminal | ⟨-, hdrift⟩
  · cases hterminal
  · refine hdrift ?_
    have hlookup : (changeWorld ⟨1⟩ ⟨2⟩).refs.lookup epochCurrent = some ⟨1⟩ := hepoch
    rw [hlookup]
    decide

end Maw
