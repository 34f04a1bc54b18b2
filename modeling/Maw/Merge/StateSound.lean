import Maw.Merge.MergeRun

/-!
# The state file tells what a merge has moved

While a merge takes its steps and others move refs, the state file stays sound: the refs say
whether the merge has moved one of them. This holds of the steps that an abort can tell from the
refs.

## Main definitions

* `AbortsRightly` — what an abort is to decide.
* `MergeOp.SafeStep`, `LeavesVisible` — the steps that it can tell from the refs.
* `StateSound`, `Stage` — the invariant, and what is known of the state file on top of it.

## Main results

* `StateSound.abortsRightly` — a merge with a sound state file is aborted rightly.
* `mergeTriple_updateState`, `mergeTriple_abortOnError` — the rules for the steps of a merge.
-/

open Interleaved

namespace Maw

/-- The epoch and the branch are the same in both. -/
def SameTargets (branch : String) (refs refs' : RefStore) : Prop :=
  refs'.lookup epochCurrent = refs.lookup epochCurrent ∧
    refs'.lookup (branchRef branch) = refs.lookup (branchRef branch)

instance (branch : String) (refs refs' : RefStore) : Decidable (SameTargets branch refs refs') :=
  inferInstanceAs (Decidable (_ ∧ _))

/-- Others move refs. -/
def OthersMove (branch : String) (w w' : MergeWorld) : Prop :=
  ∃ refs, w' = { w with refs, moved := w.moved || !decide (SameTargets branch w.refs refs) }

/-- What an abort is to decide: a merge that has moved nothing, while nobody else has either, is
cleared, and a merge that has moved a ref is not cleared before it has ended. -/
structure AbortsRightly (w : MergeWorld) : Prop where
  clears : w.advanced = false → w.moved = false →
    ∃ phase, (abortInProgressMerge w).1 = .ok (.cleared phase)
  refuses : w.advanced = true →
    (∀ state, w.stateFile = some (.state state) → state.phase.isTerminal = false) →
    ∃ phase reason, (abortInProgressMerge w).1 = .ok (.refusedPostCommit phase reason)

/-- The refs tell that the merge has moved one of them: the epoch is not the one before the merge,
or the branch is at the candidate of the state file. -/
def Visible (branch : String) (state : MergeStateFile) (refs : RefStore) : Prop :=
  state.EpochDrifted (refs.lookup epochCurrent) ∨
    state.epochCandidate ≠ none ∧ refs.lookup (branchRef branch) = state.epochCandidate

/-- A step of a merge that leaves no part of a state file, and that moves a branch on its own only
to the candidate that was built. -/
structure MergeOp.SafeStep (op : MergeOp) (w w' : MergeWorld) : Prop where
  whole : w'.stateFile = some .corrupt → w.stateFile = some .corrupt
  recorded : ∀ edit, op = .updateRefsAtomic [edit] →
    ∀ state, w.stateFile = some (.state state) → state.epochCandidate = some edit.newOid

/-- A step of others that leaves it visible that the merge has moved a ref. -/
def LeavesVisible (branch : String) (w w' : MergeWorld) : Prop :=
  w.advanced = true → ∀ state, w.stateFile = some (.state state) →
    state.phase.isTerminal = false → Visible branch state w'.refs

/-- The steps of the merge that are safe. -/
def safeExec (op : MergeOp) (w : MergeWorld) (r : Except MergeError op.Ret) (w' : MergeWorld) :
    Prop :=
  op.exec w r w' ∧ op.SafeStep w w'

/-- The steps of others that are safe. -/
def SafeMove (branch : String) (w w' : MergeWorld) : Prop :=
  OthersMove branch w w' ∧ LeavesVisible branch w w'

/-- The target is at the epoch, or the merge updates the epoch. -/
def MergeOptions.AtEpoch (opts : MergeOptions) (refs : RefStore) : Prop :=
  opts.targetUpdatesEpoch = true ∨ refs.lookup epochCurrent = refs.lookup (branchRef opts.branch)

/-! ### The invariant -/

/-- What the state file of a merge that has not ended tells of the refs. -/
structure Sound (branch : String) (w : MergeWorld) (state : MergeStateFile) : Prop where
  target : state.targetBranch = none ∨ state.targetBranch = some branch
  unmoved : w.moved = false → w.advanced = false →
    w.refs.lookup epochCurrent = some state.epochBefore.oid ∧
      ∀ candidate, state.epochCandidate = some candidate →
        w.refs.lookup epochCurrent ≠ some candidate ∧
          w.refs.lookup (branchRef branch) ≠ some candidate
  shown : w.advanced = true → state.phase.postCommit = true ∧ state.targetBranch = some branch ∧
    Visible branch state w.refs

/-- The state file of the merge is whole, and sound unless the merge has ended. -/
def StateSound (branch : String) (w : MergeWorld) : Prop :=
  w.prepared = true → ∀ content, w.stateFile = some content →
    ∃ state, content = .state state ∧ (state.phase.isTerminal = true ∨ Sound branch w state)

/-- The merge has written a sound state file, of which something is known. -/
def Stage (branch : String) (φ : MergeStateFile → MergeWorld → Prop) (w : MergeWorld) : Prop :=
  ∃ state, w.prepared = true ∧ w.stateFile = some (.state state) ∧ Sound branch w state ∧ φ state w

variable {branch : String} {w w' : MergeWorld} {state state' : MergeStateFile}
  {φ ψ : MergeStateFile → MergeWorld → Prop}

theorem StateSound.abortsRightly (h : StateSound branch w) (hprepared : w.prepared = true)
    (hfile : w.stateFile ≠ none) : AbortsRightly w := by
  obtain ⟨content, hcontent⟩ := Option.ne_none_iff_exists'.mp hfile
  obtain ⟨state, rfl, hstate⟩ := h hprepared content hcontent
  have habort : abortInProgressMerge w = abortMergeState (some (.state state))
      (w.refs.lookup epochCurrent)
      (state.targetBranch.bind fun branch => w.refs.lookup (branchRef branch)) := by
    rw [abortInProgressMerge, MergeWorld.targetHead, hcontent]
  constructor
  · intro hadvanced hmoved
    rw [habort, abort_clears_iff]
    rcases hstate with hterminal | hsound
    · exact .inl hterminal
    · obtain ⟨hepoch, hcandidate⟩ := hsound.unmoved hmoved hadvanced
      refine .inr ⟨?_, fun hdrift => hdrift.2 hepoch⟩
      rintro ⟨-, hsome, hat⟩
      obtain ⟨candidate, hc⟩ := Option.ne_none_iff_exists'.mp hsome
      rw [hc] at hat
      rcases hat with hat | hat
      · exact (hcandidate candidate hc).1 hat
      · rcases hsound.target with htarget | htarget
        · rw [htarget] at hat
          cases hat
        · rw [htarget] at hat
          exact (hcandidate candidate hc).2 hat
  · intro hadvanced hnonterminal
    rw [habort, abort_refuses_iff]
    have hphase := hnonterminal state hcontent
    refine ⟨hphase, ?_⟩
    rcases hstate with hterminal | hsound
    · rw [hterminal] at hphase
      cases hphase
    · obtain ⟨hpost, htarget, hdrift | ⟨hsome, hat⟩⟩ := hsound.shown hadvanced
      · exact .inr hdrift
      · refine .inl ⟨hpost, hsome, .inr ?_⟩
        rw [htarget]
        exact hat

/-! ### The steps of others -/

theorem OthersMove.stateFile (h : OthersMove branch w w') : w'.stateFile = w.stateFile := by
  obtain ⟨refs, rfl⟩ := h
  rfl

theorem OthersMove.prepared (h : OthersMove branch w w') : w'.prepared = w.prepared := by
  obtain ⟨refs, rfl⟩ := h
  rfl

theorem OthersMove.advanced (h : OthersMove branch w w') : w'.advanced = w.advanced := by
  obtain ⟨refs, rfl⟩ := h
  rfl

/-- Where nobody has moved the epoch or the branch yet, nobody does. -/
theorem OthersMove.unmoved (h : OthersMove branch w w') (hmoved : w'.moved = false) :
    w.moved = false ∧ SameTargets branch w.refs w'.refs := by
  obtain ⟨refs, rfl⟩ := h
  simpa using hmoved

theorem Sound.othersMove (h : Sound branch w state) (hfile : w.stateFile = some (.state state))
    (hmove : SafeMove branch w w') : Sound branch w' state where
  target := h.target
  unmoved := by
    intro hmoved hadvanced
    obtain ⟨hmoved, hepoch, hbranch⟩ := hmove.1.unmoved hmoved
    rw [hepoch, hbranch]
    exact h.unmoved hmoved (hmove.1.advanced ▸ hadvanced)
  shown := by
    intro hadvanced
    rw [hmove.1.advanced] at hadvanced
    obtain ⟨hpost, htarget, -⟩ := h.shown hadvanced
    exact ⟨hpost, htarget, hmove.2 hadvanced state hfile
      (MergePhase.not_isTerminal_of_postCommit hpost)⟩

theorem stateSound_stable : Stable (SafeMove branch) (StateSound branch) := by
  intro w w' hmove h hprepared content hcontent
  rw [hmove.1.stateFile] at hcontent
  obtain ⟨state, rfl, hstate⟩ := h (hmove.1.prepared ▸ hprepared) content hcontent
  exact ⟨state, rfl, hstate.imp_right fun hsound => hsound.othersMove hcontent hmove⟩

theorem stage_stable (hφ : ∀ state, Stable (SafeMove branch) (φ state)) :
    Stable (SafeMove branch) (Stage branch φ) := by
  rintro w w' hmove ⟨state, hprepared, hfile, hsound, hstate⟩
  exact ⟨state, hmove.1.prepared.trans hprepared, hmove.1.stateFile.trans hfile,
    hsound.othersMove hfile hmove, hφ state w w' hmove hstate⟩

theorem Stage.stateSound (h : Stage branch φ w) : StateSound branch w := by
  obtain ⟨state, -, hfile, hsound, -⟩ := h
  rintro - content hcontent
  obtain rfl := Option.some.inj (hfile.symm.trans hcontent)
  exact ⟨state, rfl, .inr hsound⟩

theorem Stage.imp (h : Stage branch φ w) (himp : ∀ state, φ state w → ψ state w) :
    Stage branch ψ w := by
  obtain ⟨state, hprepared, hfile, hsound, hstate⟩ := h
  exact ⟨state, hprepared, hfile, hsound, himp state hstate⟩

/-! ### Triples for a merge -/

/-- A triple for the safe steps of a merge: the state file stays sound. -/
def MergeTriple {α : Type} (branch : String) (P : MergeWorld → Prop) (p : MergeProg α)
    (R : α → MergeWorld → Prop) : Prop :=
  Triple safeExec (SafeMove branch) (fun _ w' => StateSound branch w') P p R (StateSound branch)

/-- The operations that change neither the refs nor the state file. -/
def MergeOp.Reads : MergeOp → Prop
  | readRef _ | readWorkspaceHeads _ | readState | staleness _ | runPipeline _
  | applyResolutions _ | patchCandidateTree _ _ | runValidatePhase _ | otherWork => True
  | _ => False

/-- The operations of an abort. -/
def MergeOp.Aborts : MergeOp → Prop
  | readState | removeState => True
  | writeAtomic state => state.phase.isTerminal = true
  | _ => False

theorem MergeOp.Reads.exec {op : MergeOp} (hop : op.Reads) {r : Except MergeError op.Ret}
    (h : op.exec w r w') : w' = w := by
  cases op with
  | readRef name => exact h.2
  | readState => exact h.2
  | runPipeline state => exact h.2
  | patchCandidateTree parent candidate => exact h.2
  | readWorkspaceHeads sources => exact h
  | staleness existing => exact h
  | applyResolutions output => exact h
  | runValidatePhase candidate => exact h
  | otherWork => exact h
  | writeExclusive state => exact hop.elim
  | writeAtomic state => exact hop.elim
  | removeState => exact hop.elim
  | absorbFastForward branchOid => exact hop.elim
  | updateRefsAtomic edits => exact hop.elim

theorem MergeOp.Aborts.exec {op : MergeOp} (hop : op.Aborts) {r : Except MergeError op.Ret}
    (h : op.exec w r w') (hw : StateSound branch w) : StateSound branch w' := by
  have hwrite (state : MergeStateFile) (hstate : state.phase.isTerminal = true) :
      StateSound branch (w.write (.state state)) := by
    rintro - content hcontent
    obtain rfl := Option.some.inj hcontent
    exact ⟨state, rfl, .inl hstate⟩
  cases op with
  | readState => exact h.2 ▸ hw
  | removeState =>
    rcases h with ⟨-, rfl⟩ | ⟨-, rfl⟩
    · rintro - content hcontent
      cases hcontent
    · exact hw
  | writeAtomic state =>
    rcases h with ⟨-, rfl⟩ | ⟨-, rfl | rfl⟩
    · exact hwrite state hop
    · exact hw
    · exact hwrite state hop
  | _ => exact hop.elim

section Rules

variable {α β : Type} {P : MergeWorld → Prop} {R : α → MergeWorld → Prop}
  {R' : β → MergeWorld → Prop} {p : MergeProg α} {f : α → MergeProg β}

theorem mergeTriple_bind (hp : MergeTriple branch P p R)
    (hf : ∀ a, MergeTriple branch (R a) (f a) R') : MergeTriple branch P (p >>= f) R' :=
  triple_bind stateSound_stable hp hf

theorem mergeTriple_reads (hP : Stable (SafeMove branch) P)
    (hsound : ∀ w, P w → StateSound branch w) (hp : p.run.Only MergeOp.Reads) :
    MergeTriple branch P p fun _ => P := by
  refine triple_of_only hP (fun op w r w' hop hw h => ?_) hsound hp
  obtain rfl := hop.exec h.1
  exact ⟨hsound w' hw, hw⟩

/-- The rule for an operation that changes nothing. -/
theorem mergeTriple_read {op : MergeOp} {R : op.Ret → MergeWorld → Prop} (hop : op.Reads)
    (hP : Stable (SafeMove branch) P) (hR : ∀ a, Stable (SafeMove branch) (R a))
    (hsound : ∀ w, P w → StateSound branch w)
    (h : ∀ w a, P w → op.exec w (.ok a) w → R a w) : MergeTriple branch P (attempt op) R := by
  refine triple_attempt hP hR stateSound_stable fun w r w' hw hexec => ?_
  obtain rfl := hop.exec hexec.1
  refine ⟨hsound w' hw, ?_⟩
  rcases r with e | a
  · exact hsound w' hw
  · exact h w' a hw hexec.1

theorem only_abortMerge (reason : String) :
    (MergeProg.abortMerge reason).run.Only MergeOp.Aborts := by
  have hignore {α : Type} {p : MergeProg α} (hp : p.run.Only MergeOp.Aborts) :
      (ignoreError p).run.Only MergeOp.Aborts := hp.bind fun _ => trivial
  have hwrite (state : MergeStateFile) :
      (MergeProg.writeAtomic ((state.abort reason).toOption.getD state)).run.Only
        MergeOp.Aborts := by
    have hterminal : ((state.abort reason).toOption.getD state).phase.isTerminal = true := by
      rw [MergeStateFile.abort]
      split_ifs with h
      · exact h
      · rfl
    rw [MergeProg.writeAtomic, run_attempt]
    exact ⟨hterminal, only_andThen fun _ => trivial⟩
  refine Prog.Only.bind (hignore ?_) ?_
  · rw [MergeProg.readState, run_attempt_bind]
    exact ⟨trivial, only_andThen fun state => hwrite state⟩
  · rintro (e | a)
    · trivial
    · refine hignore ?_
      rw [MergeProg.removeState, run_attempt]
      exact ⟨trivial, only_andThen fun _ => trivial⟩

/-- An abort keeps the state file sound. -/
theorem meets_abortMerge (reason : String) : Meets safeExec (SafeMove branch)
    (fun _ w' => StateSound branch w') (fun _ => StateSound branch)
      (MergeProg.abortMerge reason).run (StateSound branch) := by
  refine meets_of_only stateSound_stable (fun op w r w' hop hw h => ?_) (only_abortMerge reason)
  exact ⟨hop.exec h.1 hw, hop.exec h.1 hw⟩

theorem mergeTriple_abortOnError {reason : String} (hR : ∀ a, Stable (SafeMove branch) (R a))
    (hp : MergeTriple branch P p R) : MergeTriple branch P (MergeProg.abortOnError reason p) R :=
  triple_onError hR hp (meets_abortMerge reason) stateSound_stable

/-- A merge that is aborted does not go on. -/
theorem mergeTriple_abortAndThrow {reason : String} {error : MergeError}
    (hP : Stable (SafeMove branch) P) (hsound : ∀ w, P w → StateSound branch w) :
    MergeTriple branch P (MergeProg.abortAndThrow reason error) R := by
  have habort : MergeTriple branch (StateSound branch) (MergeProg.abortMerge reason)
      fun _ => StateSound branch := by
    refine (meets_abortMerge reason).imp ?_
    rintro (e | a) w hw
    · exact hw
    · exact hw
  refine Triple.of_imp (mergeTriple_bind habort fun _ => ?_) hP hsound
  exact triple_throw stateSound_stable fun _ hw => hw

end Rules

/-! ### Writing the state file -/

theorem Sound.write {content : StateOnDisk} (h : Sound branch w state) :
    Sound branch (w.write content) state :=
  ⟨h.target, h.unmoved, h.shown⟩

/-- The merge has written this state file, of which something is known. -/
theorem Stage.of_write (hsound : Sound branch w state) (hψ : ψ state (w.write (.state state))) :
    Stage branch ψ (w.write (.state state)) :=
  ⟨state, rfl, rfl, hsound.write, hψ⟩

/-- An assertion on the refs and their history, which the state file has no part in. -/
def Unwritten (ψ : MergeStateFile → MergeWorld → Prop) : Prop :=
  ∀ state w content, ψ state w → ψ state (w.write content)

section Write

variable {E : MergeWorld → Prop}

theorem triple_writeAtomic {P : MergeWorld → Prop} (hP : Stable (SafeMove branch) P)
    (hψ : ∀ state, Stable (SafeMove branch) (ψ state)) (hE : Stable (SafeMove branch) E)
    (hwrite : Unwritten ψ) (hsound : ∀ w, P w → StateSound branch w) (hPE : ∀ w, P w → E w)
    (hψE : ∀ w, Stage branch ψ w → E w) (h : ∀ w, P w → Sound branch w state ∧ ψ state w) :
    Triple safeExec (SafeMove branch) (fun _ w' => StateSound branch w') P
      (MergeProg.writeAtomic state) (fun _ => Stage branch ψ) E := by
  refine triple_attempt hP (fun _ => stage_stable hψ) hE ?_
  rintro w r w' hw ⟨hexec, -⟩
  obtain ⟨hstate, hψw⟩ := h w hw
  have hstage := Stage.of_write hstate (hwrite _ w (.state state) hψw)
  rcases hexec with ⟨rfl, rfl⟩ | ⟨rfl, rfl | rfl⟩
  · exact ⟨hstage.stateSound, hstage⟩
  · exact ⟨hsound w' hw, hPE w' hw⟩
  · exact ⟨hstage.stateSound, hψE _ hstage⟩

theorem stable_read (hφ : ∀ state, Stable (SafeMove branch) (φ state)) (state : MergeStateFile) :
    Stable (SafeMove branch) (Stage branch fun state' w => state' = state ∧ φ state w) :=
  stage_stable fun _ w w' hmove h => ⟨h.1, hφ state w w' hmove h.2⟩

/-- The rule for reading the state file. -/
theorem triple_readState (hφ : ∀ state, Stable (SafeMove branch) (φ state))
    (hE : Stable (SafeMove branch) E) (hφE : ∀ w, Stage branch φ w → E w) :
    Triple safeExec (SafeMove branch) (fun _ w' => StateSound branch w') (Stage branch φ)
      MergeProg.readState (fun state => Stage branch fun state' w => state' = state ∧ φ state w)
      E := by
  refine triple_attempt (stage_stable hφ) (stable_read hφ) hE ?_
  rintro w r w' hw ⟨⟨hread, rfl⟩, -⟩
  refine ⟨hw.stateSound, ?_⟩
  rcases hread with ⟨state, hfile, rfl⟩ | ⟨-, rfl⟩ | ⟨-, rfl⟩ | rfl
  · obtain ⟨state', hprepared, hfile', hsound, hφw⟩ := hw
    obtain rfl := StateOnDisk.state.inj (Option.some.inj (hfile.symm.trans hfile'))
    exact ⟨state, hprepared, hfile, hsound, rfl, hφw⟩
  · exact hφE _ hw
  · exact hφE _ hw
  · exact hφE _ hw

/-- The rule for changing the state file. -/
theorem triple_updateState
    {change : MergeStateFile → Except MergeStateError MergeStateFile}
    (hφ : ∀ state, Stable (SafeMove branch) (φ state))
    (hψ : ∀ state, Stable (SafeMove branch) (ψ state)) (hwrite : Unwritten ψ)
    (hE : Stable (SafeMove branch) E) (hφE : ∀ w, Stage branch φ w → E w)
    (hψE : ∀ w, Stage branch ψ w → E w)
    (h : ∀ state state' w, Sound branch w state → φ state w → change state = .ok state' →
      Sound branch w state' ∧ ψ state' w) :
    Triple safeExec (SafeMove branch) (fun _ w' => StateSound branch w') (Stage branch φ)
      (MergeProg.updateState change) (fun _ => Stage branch ψ) E := by
  refine triple_bind hE (triple_readState hφ hE hφE) fun state => ?_
  have hread (w : MergeWorld) (hw : Stage branch (fun state' w => state' = state ∧ φ state w) w) :
      Stage branch φ w := hw.imp fun _ h => h.1 ▸ h.2
  rcases hchange : change state with e | state'
  · exact triple_throw (stable_read hφ state) fun w hw => hφE w (hread w hw)
  · refine triple_writeAtomic (stable_read hφ state) hψ hE hwrite (fun w hw => hw.stateSound)
      (fun w hw => hφE w (hread w hw)) hψE ?_
    rintro w ⟨_, -, -, hsound, rfl, hφw⟩
    exact h _ _ w hsound hφw hchange

/-- The rule for changing the state file of a merge that stops if it fails. -/
theorem mergeTriple_updateState
    {change : MergeStateFile → Except MergeStateError MergeStateFile}
    (hφ : ∀ state, Stable (SafeMove branch) (φ state))
    (hψ : ∀ state, Stable (SafeMove branch) (ψ state)) (hwrite : Unwritten ψ)
    (h : ∀ state state' w, Sound branch w state → φ state w → change state = .ok state' →
      Sound branch w state' ∧ ψ state' w) :
    MergeTriple branch (Stage branch φ) (MergeProg.updateState change) fun _ => Stage branch ψ :=
  triple_updateState hφ hψ hwrite stateSound_stable (fun _ hw => hw.stateSound)
    (fun _ hw => hw.stateSound) h

end Write

end Maw
