import Maw.Quarantine.Publish

/-!
# Promoting moves both refs or none

A promotion moves the epoch and then, in a transaction of its own, the branch. If it does not come
to the second one, or the branch refuses it, the epoch has moved alone, and a later promotion of
the quarantine fails at the epoch. In all other cases both refs are at the promoted commit, or both
are where they were and the quarantine can be promoted later.

## Main definitions

* `AllOrNothing` — what a promotion is to do to the refs.
* `StoppedBetween` — it stops between the two updates.

## Main results

* `promote_allOrNothing_iff` — these are the only promotions that move one ref alone.
-/

open Interleaved

namespace Maw

/-- A quarantine with its worktree and its record. The candidate is a commit of its own, and the
worktree is on a commit above the epoch before. -/
structure QuarantineWorld.Holds (w : QuarantineWorld) (state : QuarantineState) : Prop where
  recorded : w.state = some state
  worktree : ∃ wt, w.worktree = some wt ∧ wt.head ∈ w.commits.nodes ∧
    w.commits.IsAncestor state.epochBefore wt.head
  candidate_ne : state.candidate ≠ state.epochBefore

/-- The programs that a promotion may have left to run. -/
abbrev PromoteRest :=
  Prog PromoteOp (fun op => Except QuarantineError op.Ret) (Except QuarantineError PromoteResult)

/-- Once the refs are at the epoch before, a promotion can commit; it may need an id for one
commit. -/
def CanPromote (ignored : Disk → Path → Bool) (state : QuarantineState) (w : QuarantineWorld) :
    Prop :=
  ∀ refs oid, refs.Matches epochCurrent state.epochBefore →
    refs.Matches (branchRef state.branch) state.epochBefore → oid ∉ w.commits.nodes →
    ∃ newEpoch w', Prog.Runs (PromoteOp.exec ignored) promoteQuarantine.run { w with refs }
      (.done (.ok (.committed newEpoch))) w'

/-- The promotion comes to the update of the epoch to a commit. -/
def ReachesEpoch (ignored : Disk → Path → Bool) (state : QuarantineState) (w : QuarantineWorld)
    (oid : GitOid) : Prop :=
  ∃ next w₁, Prog.Runs (PromoteOp.exec ignored) promoteQuarantine.run w
    (.call (.writeRefCas epochCurrent state.epochBefore oid) next) w₁

/-- The promotion has come to the update of the branch to a commit. -/
def ReachesBranch (ignored : Disk → Path → Bool) (state : QuarantineState) (w : QuarantineWorld)
    (oid : GitOid) (next : Except QuarantineError Unit → PromoteRest) (w₁ : QuarantineWorld) : Prop :=
  Prog.Runs (PromoteOp.exec ignored) promoteQuarantine.run w
    (.call (.writeRefCas (branchRef state.branch) state.epochBefore oid) next) w₁

/-- The epoch and the branch are both at the commit that the promotion was about to move the epoch
to, or both where they were; then the quarantine can be promoted later. -/
def AllOrNothing (ignored : Disk → Path → Bool) (state : QuarantineState)
    (w w' : QuarantineWorld) : Prop :=
  (w'.refs.lookup epochCurrent = w.refs.lookup epochCurrent ∧
      w'.refs.lookup (branchRef state.branch) = w.refs.lookup (branchRef state.branch) ∧
      CanPromote ignored state w') ∨
    ∃ oid, ReachesEpoch ignored state w oid ∧ w'.refs.lookup epochCurrent = some oid ∧
      w'.refs.lookup (branchRef state.branch) = some oid

/-- The promotion is interrupted before the update of the branch, or the update fails, and the
branch is not at the commit already. -/
def StoppedBetween (ignored : Disk → Path → Bool) (state : QuarantineState) (w : QuarantineWorld)
    (q : PromoteRest) (w' : QuarantineWorld) : Prop :=
  ∃ oid next w₁, ReachesBranch ignored state w oid next w₁ ∧
    w.refs.lookup (branchRef state.branch) ≠ some oid ∧
    ((q = .call (.writeRefCas (branchRef state.branch) state.epochBefore oid) next ∧ w' = w₁) ∨
      ∃ e, PromoteOp.exec ignored
          (.writeRefCas (branchRef state.branch) state.epochBefore oid) w₁ (.error e) w' ∧
        q = next (.error e))

variable {ignored : Disk → Path → Bool} {w w' w₁ w₂ : QuarantineWorld} {state : QuarantineState}
  {wt : Worktree} {oid : GitOid} {q : PromoteRest}

theorem QuarantineWorld.Holds.canPromote (h : w.Holds state) : CanPromote ignored state w := by
  intro refs oid hepoch hbranch hfresh
  obtain ⟨wt, hwt, hmem, -⟩ := h.worktree
  have hcommits : ∃ newEpoch w₁, CommitsEdits ignored { w with refs } state wt newEpoch w₁ :=
    exists_commitsEdits hmem hfresh
  obtain ⟨newEpoch, w₁, hcommits⟩ := hcommits
  obtain ⟨hrefs, -, hworktree, -⟩ := hcommits.prepared hwt
  obtain ⟨wt₁, hwt₁, -⟩ := hworktree wt hwt hmem
  have hvalidate := hcommits.runs hwt h.recorded
  exact ⟨newEpoch, _, hvalidate.trans (runs_publish hwt₁ (hrefs ▸ hepoch) (hrefs ▸ hbranch))⟩

theorem QuarantineWorld.Holds.of_prepared (h : w.Holds state) (hprepared : Prepared w w') :
    w'.Holds state where
  recorded := hprepared.state.trans h.recorded
  worktree := by
    obtain ⟨wt, hwt, hmem, hanc⟩ := h.worktree
    obtain ⟨wt', hwt', hmem'⟩ := hprepared.worktree wt hwt hmem
    obtain ⟨wt₀, hwt₀, hanc'⟩ := hprepared.forward.2 wt' hwt'
    obtain rfl := Option.some.inj (hwt.symm.trans hwt₀)
    exact ⟨wt', hwt', hmem', (hprepared.forward.1 _ _ hanc).trans hanc'⟩
  candidate_ne := h.candidate_ne

theorem QuarantineWorld.Holds.mapWorktree {f : Worktree → Worktree} (h : w.Holds state)
    (hf : ∀ wt, (f wt).head = wt.head) : (w.mapWorktree f).Holds state where
  recorded := h.recorded
  worktree := by
    obtain ⟨wt, hwt, hmem, hanc⟩ := h.worktree
    exact ⟨f wt, by simp [QuarantineWorld.mapWorktree, hwt], (hf wt).symm ▸ hmem,
      (hf wt).symm ▸ hanc⟩
  candidate_ne := h.candidate_ne

theorem QuarantineWorld.Holds.with_refs (h : w.Holds state) (refs : RefStore) :
    { w with refs }.Holds state :=
  ⟨h.recorded, h.worktree, h.candidate_ne⟩

/-- The promoted commit is not the epoch before: it is above it. -/
theorem CommitsEdits.ne_epochBefore (h : CommitsEdits ignored w state wt oid w₁)
    (hw : w.Holds state) (hwt : w.worktree = some wt) : oid ≠ state.epochBefore := by
  unfold CommitsEdits at h
  rcases hcommit : wt.stateCommit ignored w.commits with _ | commit <;> rw [hcommit] at h
  · exact h.1 ▸ hw.candidate_ne
  · rintro rfl
    obtain ⟨commits, hadds, -⟩ := h
    obtain ⟨wt', hwt', -, hanc⟩ := hw.worktree
    obtain rfl := Option.some.inj (hwt'.symm.trans hwt)
    have hparent : commits.ParentOf wt'.head state.epochBefore :=
      hadds.parentOf_self (by simp [head_mem_parents hcommit])
    exact NodeStore.transGen_irrefl _
      (Relation.TransGen.tail' (hadds.isAncestor hanc) hparent)

/-- An update that failed. -/
theorem refs_of_writeRefCas_error {name : String} {oldOid newOid : GitOid} {e : QuarantineError}
    (h : PromoteOp.exec ignored (.writeRefCas name oldOid newOid) w (.error e) w') : w' = w := by
  obtain ⟨result, refs, hupdate, hr, rfl⟩ := h
  rcases hupdate with ⟨rfl, -, -⟩ | ⟨-, rfl⟩
  · cases hr
  · rfl

/-- The program is about to update the branch. -/
def AtBranch (state : QuarantineState) (q : PromoteRest) : Prop :=
  ∃ oid next, q = .call (.writeRefCas (branchRef state.branch) state.epochBefore oid) next

/-- What a promotion has done to the refs, however far it got: nothing, or it has moved the epoch
and stopped at the branch, or it has moved both. -/
theorem runs_promote_refs (hw : w.Holds state)
    (h : Prog.Runs (PromoteOp.exec ignored) promoteQuarantine.run w q w') :
    (w'.refs = w.refs ∧ w'.Holds state ∧ ¬ AtBranch state q) ∨
    (∃ oid w₁, oid ≠ state.epochBefore ∧ w.refs.Matches epochCurrent state.epochBefore ∧
      ReachesEpoch ignored state w oid ∧ w₁.refs = w.refs.insert epochCurrent oid ∧
      ReachesBranch ignored state w oid (andThen fun _ => (cleanUp oid).run) w₁ ∧
      ((q = .call (.writeRefCas (branchRef state.branch) state.epochBefore oid)
          (andThen fun _ => (cleanUp oid).run) ∧ w' = w₁) ∨
        ∃ e, PromoteOp.exec ignored
            (.writeRefCas (branchRef state.branch) state.epochBefore oid) w₁ (.error e) w' ∧
          q = .done (.error e))) ∨
    ∃ oid, ReachesEpoch ignored state w oid ∧
      w'.refs = (w.refs.insert epochCurrent oid).insert (branchRef state.branch) oid ∧
      ¬ AtBranch state q := by
  have hdone (r : Except QuarantineError PromoteResult) : ¬ AtBranch state (.done r) := by
    rintro ⟨oid, next, he⟩
    cases he
  rcases runs_promote_cases h with
    ⟨hstopped, hprepared⟩ | ⟨state', wt, oid, w₁, hstate', hwt, hcommits, hrun⟩
  · refine .inl ⟨hprepared.refs, hw.of_prepared hprepared, ?_⟩
    rintro ⟨oid, next, rfl⟩
    rcases hstopped with ⟨e, he⟩ | ⟨op, next', he, hop⟩
    · cases he
    · cases he
      exact hop
  obtain rfl := Option.some.inj (hw.recorded.symm.trans hstate')
  have hvalidate := hcommits.runs hwt hstate'
  have hprepared := hcommits.prepared hwt
  have hw₁ := hw.of_prepared hprepared
  rw [run_validateAndPublish, runs_call_iff] at hrun
  rcases hrun with ⟨rfl, rfl⟩ | ⟨outcome, w₂, hexec, hrun⟩ | ⟨e, ⟨-, disk, rfl⟩, rfl⟩
  · refine .inl ⟨hprepared.refs, hw₁, ?_⟩
    rintro ⟨oid, next, he⟩
    cases he
  case inr.inr => exact .inl ⟨hprepared.refs, hw₁.mapWorktree fun _ => rfl, hdone _⟩
  have hpublish := hvalidate.trans (runs_ok hexec (.refl _ _))
  obtain ⟨-, disk, rfl⟩ := hexec
  have hw₂ := hw₁.mapWorktree (f := fun wt => { wt with disk }) fun _ => rfl
  rcases run_publish state oid outcome with heq | ⟨result, heq⟩ <;> rw [heq] at hrun hpublish
  case inr =>
    obtain ⟨rfl, rfl⟩ := runs_done hrun
    exact .inl ⟨hprepared.refs, hw₂, hdone _⟩
  rw [runs_call_iff] at hrun
  rcases hrun with ⟨rfl, rfl⟩ | ⟨_, w₃, hepoch, hrun⟩ | ⟨e, hepoch, rfl⟩
  · refine .inl ⟨hprepared.refs, hw₂, ?_⟩
    rintro ⟨oid, next, he⟩
    simp only [Prog.call.injEq, PromoteOp.writeRefCas.injEq] at he
    exact branchRef_ne_epochCurrent _ he.1.1.symm
  case inr.inr =>
    obtain rfl := refs_of_writeRefCas_error hepoch
    exact .inl ⟨hprepared.refs, hw₂, hdone _⟩
  have hreaches := hpublish.trans (runs_ok hepoch (.refl _ _))
  obtain ⟨hmatches, rfl⟩ := refs_of_writeRefCas hepoch
  have hmatches : w.refs.Matches epochCurrent state.epochBefore := hprepared.refs ▸ hmatches
  have hne := hcommits.ne_epochBefore hw hwt
  rw [runs_call_iff] at hrun
  rcases hrun with ⟨rfl, rfl⟩ | ⟨_, w₄, hbranch, hrun⟩ | ⟨e, hbranch, rfl⟩
  · refine .inr (.inl ⟨oid, _, hne, hmatches, ⟨_, _, hpublish⟩, ?_, hreaches, .inl ⟨rfl, rfl⟩⟩)
    simp [QuarantineWorld.mapWorktree, hprepared.refs]
  · refine .inr (.inr ⟨oid, ⟨_, _, hpublish⟩, ?_, ?_⟩)
    · obtain ⟨-, rfl⟩ := refs_of_writeRefCas hbranch
      rw [(keepsRepo_of_cleanUp hrun).1]
      simp [QuarantineWorld.mapWorktree, hprepared.refs]
    · rintro ⟨oid', next, rfl⟩
      exact (hrun.only (only_cleanUp oid)).1
  · refine .inr (.inl ⟨oid, _, hne, hmatches, ⟨_, _, hpublish⟩, ?_, hreaches,
      .inr ⟨e, hbranch, rfl⟩⟩)
    simp [QuarantineWorld.mapWorktree, hprepared.refs]

theorem lookup_insert_epoch (refs : RefStore) (oid : GitOid) :
    (refs.insert epochCurrent oid).lookup (branchRef state.branch) =
      refs.lookup (branchRef state.branch) := by
  rw [FiniteMap.lookup_insert, if_neg (branchRef_ne_epochCurrent _)]

/-- A promotion that stops between the updates has moved the epoch alone. -/
theorem StoppedBetween.moves_epoch (hw : w.Holds state)
    (h : StoppedBetween ignored state w q w') :
    ∃ oid, w.refs.lookup epochCurrent ≠ some oid ∧
      w.refs.lookup (branchRef state.branch) ≠ some oid ∧
      w'.refs = w.refs.insert epochCurrent oid := by
  obtain ⟨oid, next, w₁, hreaches, hne, hstop⟩ := h
  have hw' : w'.refs = w₁.refs := by
    rcases hstop with ⟨-, rfl⟩ | ⟨e, hexec, -⟩
    · rfl
    · rw [refs_of_writeRefCas_error hexec]
  rcases runs_promote_refs hw hreaches with
    ⟨-, -, hat⟩ | ⟨oid', w₂, hoid, hmatches, -, hrefs, -, hq⟩ | ⟨_, -, -, hat⟩
  · exact absurd ⟨oid, next, rfl⟩ hat
  · rcases hq with ⟨hq, rfl⟩ | ⟨e, -, hq⟩
    · simp only [Prog.call.injEq, PromoteOp.writeRefCas.injEq] at hq
      obtain ⟨⟨-, -, rfl⟩, -⟩ := hq
      refine ⟨oid, fun hepoch => ?_, hne, hw'.trans hrefs⟩
      exact RefStore.not_matches_of_lookup hepoch hoid hmatches
    · cases hq
  · exact absurd ⟨oid, next, rfl⟩ hat

/-- A promotion leaves both refs at the promoted commit, or both where they were and the
quarantine promotable, exactly when it does not stop between the two updates. -/
theorem promote_allOrNothing_iff (hw : w.Holds state)
    (h : Prog.Runs (PromoteOp.exec ignored) promoteQuarantine.run w q w') :
    AllOrNothing ignored state w w' ↔ ¬ StoppedBetween ignored state w q w' := by
  constructor
  · intro hall hstopped
    obtain ⟨oid, hepoch, hbranch, hrefs⟩ := hstopped.moves_epoch hw
    rcases hall with ⟨hsame, -, -⟩ | ⟨oid', -, hepoch', hbranch'⟩
    · rw [hrefs, Finmap.lookup_insert] at hsame
      exact hepoch hsame.symm
    · rw [hrefs, Finmap.lookup_insert] at hepoch'
      obtain rfl := Option.some.inj hepoch'
      rw [hrefs, lookup_insert_epoch] at hbranch'
      exact hbranch hbranch'
  · intro hstopped
    rcases runs_promote_refs hw h with
      ⟨hrefs, hw', -⟩ | ⟨oid, w₁, -, -, hepoch, hrefs, hreaches, hq⟩ | ⟨oid, hepoch, hrefs, -⟩
    · exact .inl ⟨by rw [hrefs], by rw [hrefs], hw'.canPromote⟩
    · -- It stopped between the updates, but the branch was at the commit already.
      have hbranch : w.refs.lookup (branchRef state.branch) = some oid := by
        by_contra hne
        refine hstopped ⟨oid, _, w₁, hreaches, hne, ?_⟩
        rcases hq with hq | ⟨e, hexec, hq⟩
        · exact .inl hq
        · exact .inr ⟨e, hexec, hq⟩
      have hw' : w'.refs = w₁.refs := by
        rcases hq with ⟨-, rfl⟩ | ⟨e, hexec, -⟩
        · rfl
        · rw [refs_of_writeRefCas_error hexec]
      refine .inr ⟨oid, hepoch, ?_, ?_⟩
      · rw [hw', hrefs, Finmap.lookup_insert]
      · rw [hw', hrefs, lookup_insert_epoch, hbranch]
    · refine .inr ⟨oid, hepoch, ?_, ?_⟩
      · rw [hrefs, FiniteMap.lookup_insert, if_neg (branchRef_ne_epochCurrent _).symm,
          Finmap.lookup_insert]
      · rw [hrefs, Finmap.lookup_insert]

/-! ### A promotion that passes and one that does not -/

section Samples

private def mergeState : QuarantineState := ⟨sampleBlob 1, sampleBlob 2, "main"⟩

theorem sampleQuarantine_holds : sampleQuarantine.Holds mergeState where
  recorded := rfl
  worktree := by
    have hparent : sampleCommits.ParentOf (sampleBlob 1) (sampleBlob 2) :=
      ⟨sampleCommit 10 [sampleBlob 1], by decide +kernel, List.mem_cons_self⟩
    exact ⟨⟨sampleBlob 2, oneFileTree 10, sampleDisk 10⟩, rfl, by decide, hparent.isAncestor⟩
  candidate_ne := by decide

theorem promote_allOrNothing_sample : ∃ newEpoch w',
    Prog.Runs (PromoteOp.exec noneIgnored) promoteQuarantine.run sampleQuarantine
      (.done (.ok (.committed newEpoch))) w' ∧
    (AllOrNothing noneIgnored mergeState sampleQuarantine w' ↔
      ¬ StoppedBetween noneIgnored mergeState sampleQuarantine
        (.done (.ok (.committed newEpoch))) w') := by
  obtain ⟨newEpoch, w', hrun⟩ := sampleQuarantine_holds.canPromote sampleQuarantine.refs
    (sampleBlob 3) (by decide +kernel) (by decide +kernel) (by decide)
  exact ⟨newEpoch, w', hrun, promote_allOrNothing_iff sampleQuarantine_holds hrun⟩

/-- Somebody has moved the branch since the merge. -/
private def branchMoved : QuarantineWorld :=
  { sampleQuarantine with
    refs := sampleQuarantine.refs.insert (branchRef "main") (sampleBlob 9) }

/-- With the branch elsewhere, a promotion moves the epoch and fails. -/
theorem promote_moves_epoch_alone : ¬ ∀ w state q w', w.Holds state →
    Prog.Runs (PromoteOp.exec noneIgnored) promoteQuarantine.run w q w' →
      AllOrNothing noneIgnored state w w' := by
  intro h
  have hw : branchMoved.Holds mergeState := sampleQuarantine_holds.with_refs _
  let wt : Worktree := ⟨sampleBlob 2, oneFileTree 10, sampleDisk 10⟩
  have hcommits : CommitsEdits noneIgnored branchMoved mergeState wt (sampleBlob 2) branchMoved := by
    have hclean : wt.stateCommit noneIgnored branchMoved.commits = none := by
      rw [Worktree.stateCommit, if_pos (by decide +kernel)]
    rw [CommitsEdits, hclean]
    exact ⟨rfl, rfl⟩
  have hskip : PromoteOp.exec noneIgnored .runValidate branchMoved (.ok .skipped) branchMoved :=
    ⟨.inr ⟨.skipped, rfl⟩, sampleDisk 10, rfl⟩
  have hepoch : PromoteOp.exec noneIgnored
      (.writeRefCas epochCurrent (sampleBlob 1) (sampleBlob 2)) branchMoved (.ok ())
        { branchMoved with refs := branchMoved.refs.insert epochCurrent (sampleBlob 2) } :=
    writeRefCas_ok (by decide +kernel)
  have hpublish : Prog.Runs (PromoteOp.exec noneIgnored)
      (publish mergeState (sampleBlob 2) .skipped).run branchMoved
      (.call (.writeRefCas (branchRef "main") (sampleBlob 1) (sampleBlob 2))
        (andThen fun _ => (cleanUp (sampleBlob 2)).run))
        { branchMoved with refs := branchMoved.refs.insert epochCurrent (sampleBlob 2) } := by
    rw [run_publish_skipped]
    exact runs_ok hepoch (.refl _ _)
  have hrun := (hcommits.runs rfl rfl).trans (runs_ok hskip hpublish)
  have hbranch : PromoteOp.exec noneIgnored
      (.writeRefCas (branchRef "main") (sampleBlob 1) (sampleBlob 2))
        { branchMoved with refs := branchMoved.refs.insert epochCurrent (sampleBlob 2) }
        (.error (.commit (.casMismatch (branchRef "main"))))
        { branchMoved with refs := branchMoved.refs.insert epochCurrent (sampleBlob 2) } :=
    ⟨.error (.casMismatch (branchRef "main")), _, .inr ⟨⟨_, rfl⟩, rfl⟩, rfl, rfl⟩
  rcases h _ _ _ _ hw (hrun.trans (.step hbranch (.refl _ _))) with
    ⟨hsame, -, -⟩ | ⟨oid, -, hepoch', hbranch'⟩
  · exact absurd hsame (by decide +kernel)
  · have hsame := hepoch'.trans hbranch'.symm
    exact absurd hsame (by decide +kernel)

end Samples

end Maw
