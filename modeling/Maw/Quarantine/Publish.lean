import Maw.Quarantine.Promote

/-!
# What a promoted quarantine publishes

An agent edits files in a quarantine and commits there, and promotes it as often as it likes. A
promotion that passes is to publish the state of the worktree that it validated, on top of
everything that was committed in the quarantine. It does so unless the worktree has nothing to
commit while its HEAD has left the candidate: then the candidate is published in its stead.

## Main definitions

* `QuarantineRun` — edits, commits and promotions, one after the other.
* `PublishesValidated` — what a promotion is to publish.
* `Promotable` — when it does.

## Main results

* `promote_publishes` — a promotion of a promotable quarantine publishes what it validated.
-/

open Interleaved

namespace Maw

/-- The runs of a quarantine, with the commits that were at its HEAD. Other refs may move, and a
promotion may be interrupted. -/
inductive QuarantineRun (ignored : Disk → Path → Bool) (start : QuarantineWorld) :
    List GitOid → QuarantineWorld → Prop
  | start {wt : Worktree} (hwt : start.worktree = some wt) :
      QuarantineRun ignored start [wt.head] start
  | edit {heads : List GitOid} {w : QuarantineWorld} {wt : Worktree}
      (h : QuarantineRun ignored start heads w) (hwt : w.worktree = some wt) (refs : RefStore)
      (index : GitTree) (disk : Disk) :
      QuarantineRun ignored start heads { w with refs, worktree := some ⟨wt.head, index, disk⟩ }
  | commit {heads : List GitOid} {w : QuarantineWorld} {wt : Worktree} {oid : GitOid}
      {commit : Commit} {commits : CommitStore} (h : QuarantineRun ignored start heads w)
      (hwt : w.worktree = some wt) (hparent : wt.head ∈ commit.parents)
      (hadds : w.commits.Adds oid commit commits) (index : GitTree) (disk : Disk) :
      QuarantineRun ignored start (heads ++ [oid])
        { w with commits, worktree := some ⟨oid, index, disk⟩ }
  | promote {heads : List GitOid} {w w' : QuarantineWorld}
      {q : Prog PromoteOp (fun op => Except QuarantineError op.Ret)
        (Except QuarantineError PromoteResult)}
      (h : QuarantineRun ignored start heads w)
      (hrun : Prog.Runs (PromoteOp.exec ignored) promoteQuarantine.run w q w') :
      QuarantineRun ignored start (heads ++ (w'.worktree.map Worktree.head).toList) w'

/-- A promotion that validated the worktree of `validated` has published it as the new epoch, with
all these commits among its ancestors. -/
structure PublishesValidated (ignored : Disk → Path → Bool) (heads : List GitOid)
    (validated after : QuarantineWorld) (newEpoch : GitOid) : Prop where
  epoch : after.refs.lookup epochCurrent = some newEpoch
  tree : ∃ wt, validated.worktree = some wt ∧
    ∀ p, (after.commits.treeOf newEpoch).lookup p = wt.content ignored p
  ancestors : ∀ head ∈ heads, after.commits.IsAncestor head newEpoch

/-- The status passes over nothing that the commit does not have, and a worktree without edits is
still on the candidate. -/
def Promotable (ignored : Disk → Path → Bool) (w : QuarantineWorld) : Prop :=
  ∀ wt state, w.worktree = some wt → w.state = some state →
    (∀ p, wt.Skipped ignored (w.commits.treeOf wt.head) p →
      (w.commits.treeOf wt.head).lookup p = wt.content ignored p) ∧
    (wt.stateEdits ignored (w.commits.treeOf wt.head) = [] → wt.head = state.candidate)

variable {ignored : Disk → Path → Bool} {start w w' w₁ : QuarantineWorld} {heads : List GitOid}
  {state : QuarantineState} {wt : Worktree} {oid : GitOid}

/-! ### What one promotion does -/

/-- Ancestors stay ancestors, and the HEAD of the worktree only moves forward. -/
def Forward (w w' : QuarantineWorld) : Prop :=
  (∀ a b, w.commits.IsAncestor a b → w'.commits.IsAncestor a b) ∧
    ∀ wt', w'.worktree = some wt' →
      ∃ wt, w.worktree = some wt ∧ w'.commits.IsAncestor wt.head wt'.head

theorem Forward.refl (w : QuarantineWorld) : Forward w w :=
  ⟨fun _ _ h => h, fun wt h => ⟨wt, h, .refl _⟩⟩

theorem Forward.trans {w w' w'' : QuarantineWorld} (h : Forward w w') (h' : Forward w' w'') :
    Forward w w'' := by
  refine ⟨fun a b hab => h'.1 a b (h.1 a b hab), fun wt'' hwt'' => ?_⟩
  obtain ⟨wt', hwt', hanc'⟩ := h'.2 wt'' hwt''
  obtain ⟨wt, hwt, hanc⟩ := h.2 wt' hwt'
  exact ⟨wt, hwt, (h'.1 _ _ hanc).trans hanc'⟩

theorem forward_mapWorktree {f : Worktree → Worktree} (hf : ∀ wt, (f wt).head = wt.head) :
    Forward w (w.mapWorktree f) := by
  refine ⟨fun _ _ h => h, fun wt' hwt' => ?_⟩
  obtain ⟨wt, hwt, rfl⟩ := Option.map_eq_some_iff.mp hwt'
  exact ⟨wt, hwt, hf wt ▸ .refl _⟩

theorem forward_adds {commit : Commit} {commits : CommitStore}
    (h : w.commits.Adds oid commit commits) : Forward w { w with commits } :=
  ⟨fun _ _ => h.isAncestor, fun wt hwt => ⟨wt, hwt, .refl _⟩⟩

/-- Every operation but the move of HEAD goes forward wherever it is performed. -/
theorem forward_of_exec {op : PromoteOp} {r : Except QuarantineError op.Ret}
    (hop : ∀ oid, op ≠ .writeHead oid) (h : PromoteOp.exec ignored op w r w') : Forward w w' := by
  cases op with
  | readState => exact h.1 ▸ .refl w
  | worktreeExists => exact h.1 ▸ .refl w
  | worktreeStateCommit =>
    rcases h with ⟨-, rfl⟩ | ⟨wt, -, h⟩
    · exact .refl w'
    · rcases hcommit : wt.stateCommit ignored w.commits with _ | commit
      · rw [hcommit] at h
        exact h.2 ▸ .refl w
      · rw [hcommit] at h
        obtain ⟨oid, commits, hadds, -, rfl⟩ := h
        exact forward_adds hadds
  | writeHead oid => exact absurd rfl (hop oid)
  | unstageAll =>
    rcases h with ⟨-, rfl⟩ | ⟨-, rfl⟩
    · exact .refl w'
    · exact forward_mapWorktree fun _ => rfl
  | runValidate =>
    obtain ⟨-, disk, rfl⟩ := h
    exact forward_mapWorktree fun _ => rfl
  | writeRefCas name oldOid newOid =>
    obtain ⟨result, refs, -, -, rfl⟩ := h
    exact ⟨fun _ _ h => h, fun wt hwt => ⟨wt, hwt, .refl _⟩⟩
  | removeWorktree =>
    rcases h with ⟨-, rfl⟩ | ⟨-, disk, rfl⟩
    · exact ⟨fun _ _ h => h, fun wt hwt => absurd hwt (by simp)⟩
    · exact forward_mapWorktree fun _ => rfl
  | removeState =>
    rcases h with ⟨-, rfl⟩ | ⟨-, rfl⟩
    · exact ⟨fun _ _ h => h, fun wt hwt => ⟨wt, hwt, .refl _⟩⟩
    · exact .refl w'

/-- Not the move of HEAD. -/
def KeepsHead (op : PromoteOp) : Prop := ∀ oid, op ≠ .writeHead oid

/-- The operations that remove the quarantine. -/
def CleansUp : PromoteOp → Prop
  | .worktreeExists | .removeWorktree | .removeState => True
  | _ => False

/-- The operations after the validation. -/
def AfterValidation : PromoteOp → Prop
  | .writeRefCas _ _ _ => True
  | op => CleansUp op

theorem CleansUp.afterValidation {op : PromoteOp} (h : CleansUp op) : AfterValidation op := by
  cases op <;> trivial

theorem AfterValidation.keepsHead {op : PromoteOp} (h : AfterValidation op) : KeepsHead op := by
  rintro oid rfl
  exact h

theorem only_cleanUp (commitOid : GitOid) : (cleanUp commitOid).run.Only CleansUp := by
  have habandon : abandonQuarantine.run.Only CleansUp := by
    rw [run_abandonQuarantine]
    refine ⟨trivial, only_andThen fun found => ?_⟩
    split_ifs
    · exact ⟨trivial, only_andThen fun _ => ⟨trivial, only_andThen fun _ => trivial⟩⟩
    · exact ⟨trivial, only_andThen fun _ => trivial⟩
  rw [run_cleanUp]
  exact habandon.bind fun _ => trivial

theorem only_publish (commitOid : GitOid) (outcome : ValidateOutcome) :
    (publish state commitOid outcome).run.Only AfterValidation := by
  rcases run_publish state commitOid outcome with h | ⟨result, h⟩
  · rw [h]
    exact ⟨trivial, only_andThen fun _ => ⟨trivial, only_andThen fun _ =>
      (only_cleanUp commitOid).mono fun _ => CleansUp.afterValidation⟩⟩
  · rw [h]
    trivial

theorem forward_of_only {α : Type}
    {p q : Prog PromoteOp (fun op => Except QuarantineError op.Ret) α}
    (hp : p.Only KeepsHead) (h : Prog.Runs (PromoteOp.exec ignored) p w q w') : Forward w w' :=
  h.frame Forward.refl (fun _ _ _ => Forward.trans) (fun _ _ _ _ => forward_of_exec) hp

/-- The operations up to the validation. -/
def Prepares : PromoteOp → Prop
  | .readState | .worktreeExists | .worktreeStateCommit | .writeHead _ | .unstageAll => True
  | _ => False

/-- The program failed or has not come to the validation yet. -/
def Stopped (q : Prog PromoteOp (fun op => Except QuarantineError op.Ret)
    (Except QuarantineError PromoteResult)) : Prop :=
  (∃ e, q = .done (.error e)) ∨ ∃ op next, q = .call op next ∧ Prepares op

/-- The quarantine is still there, on a stored commit, and no ref has moved. -/
structure Prepared (w w' : QuarantineWorld) : Prop where
  refs : w'.refs = w.refs
  state : w'.state = w.state
  worktree : ∀ wt, w.worktree = some wt → wt.head ∈ w.commits.nodes →
    ∃ wt', w'.worktree = some wt' ∧ wt'.head ∈ w'.commits.nodes
  forward : Forward w w'

theorem Prepared.refl (w : QuarantineWorld) : Prepared w w :=
  ⟨rfl, rfl, fun wt hwt hmem => ⟨wt, hwt, hmem⟩, .refl w⟩

/-- The worktree `wt` of `w` was committed as `oid`, the candidate if it had no edits. -/
def CommitsEdits (ignored : Disk → Path → Bool) (w : QuarantineWorld) (state : QuarantineState)
    (wt : Worktree) (oid : GitOid) (w₁ : QuarantineWorld) : Prop :=
  match wt.stateCommit ignored w.commits with
  | none => oid = state.candidate ∧ w₁ = w
  | some commit => ∃ commits : CommitStore, w.commits.Adds oid commit commits ∧
      w₁ = { w with commits, worktree := some ⟨oid, commits.treeOf oid, wt.disk⟩ }

theorem head_mem_parents {commit : Commit} {commits : CommitStore}
    (h : wt.stateCommit ignored commits = some commit) : commit.parents = [wt.head] := by
  rw [Worktree.stateCommit] at h
  split_ifs at h
  rw [← Option.some.inj h]

theorem CommitsEdits.prepared (h : CommitsEdits ignored w state wt oid w₁)
    (hwt : w.worktree = some wt) : Prepared w w₁ := by
  unfold CommitsEdits at h
  rcases hcommit : wt.stateCommit ignored w.commits with _ | commit <;> rw [hcommit] at h
  · exact h.2 ▸ .refl w
  · obtain ⟨commits, hadds, rfl⟩ := h
    have hparent : wt.head ∈ commit.parents := by simp [head_mem_parents hcommit]
    refine ⟨rfl, rfl, fun _ _ _ => ⟨_, rfl, hadds.mem_self⟩, fun _ _ => hadds.isAncestor, ?_⟩
    rintro wt' hwt'
    obtain rfl := Option.some.inj hwt'
    exact ⟨wt, hwt, (hadds.parentOf_self hparent).isAncestor⟩

/-- How far a promotion gets: it stops before the validation, or it has committed the worktree and
goes on to validate it. -/
theorem runs_promote_cases
    {q : Prog PromoteOp (fun op => Except QuarantineError op.Ret)
      (Except QuarantineError PromoteResult)}
    (h : Prog.Runs (PromoteOp.exec ignored) promoteQuarantine.run w q w') :
    (Stopped q ∧ Prepared w w') ∨
      ∃ state wt oid w₁, w.state = some state ∧ w.worktree = some wt ∧
        CommitsEdits ignored w state wt oid w₁ ∧
        Prog.Runs (PromoteOp.exec ignored) (validateAndPublish state oid).run w₁ q w' := by
  have hcall {op : PromoteOp} {next : Except QuarantineError op.Ret → Prog PromoteOp
      (fun op => Except QuarantineError op.Ret) (Except QuarantineError PromoteResult)}
      (hop : Prepares op) : Stopped (.call op next) := .inr ⟨op, next, rfl, hop⟩
  have herror (e : QuarantineError) : Stopped (.done (.error e)) := .inl ⟨e, rfl⟩
  rw [run_promoteQuarantine, runs_call_iff] at h
  rcases h with ⟨rfl, rfl⟩ | ⟨state, w₁, ⟨rfl, hstate⟩, h⟩ | ⟨e, ⟨rfl, -⟩, rfl⟩
  · exact .inl ⟨hcall trivial, .refl w'⟩
  case inr.inr => exact .inl ⟨herror e, .refl w'⟩
  have hstate : w₁.state = some state := by
    rcases hstate with ⟨state', hsome, heq⟩ | ⟨-, heq⟩ | heq
    · rw [hsome, Except.ok.inj heq]
    · cases heq
    · cases heq
  rw [runs_call_iff] at h
  rcases h with ⟨rfl, rfl⟩ | ⟨found, w₂, ⟨rfl, hfound⟩, h⟩ | ⟨e, ⟨rfl, -⟩, rfl⟩
  · exact .inl ⟨hcall trivial, .refl w'⟩
  case inr.inr => exact .inl ⟨herror e, .refl w'⟩
  rcases found with _ | _
  · rw [if_neg Bool.false_ne_true] at h
    obtain ⟨rfl, rfl⟩ := runs_done h
    exact .inl ⟨herror _, .refl w'⟩
  rw [if_pos rfl, runs_call_iff] at h
  rcases h with ⟨rfl, rfl⟩ | ⟨newHead, w₁, hexec, h⟩ | ⟨e, hexec, rfl⟩
  · exact .inl ⟨hcall trivial, .refl w'⟩
  case inr.inr =>
    rcases hexec with ⟨-, rfl⟩ | ⟨wt, -, hexec⟩
    · exact .inl ⟨herror e, .refl w'⟩
    · rcases hcommit : wt.stateCommit ignored w₂.commits with _ | commit <;> rw [hcommit] at hexec
      · cases hexec.1
      · obtain ⟨_, _, -, heq, -⟩ := hexec
        cases heq
  rcases hexec with ⟨heq, -⟩ | ⟨wt, hwt, hexec⟩
  · cases heq
  rcases hcommit : wt.stateCommit ignored w₂.commits with _ | commit <;> rw [hcommit] at hexec
  · -- Nothing to commit: the candidate is validated.
    obtain ⟨heq, rfl⟩ := hexec
    obtain rfl := Except.ok.inj heq
    exact .inr ⟨state, wt, state.candidate, w₁, hstate, hwt, by simp [CommitsEdits, hcommit], h⟩
  · obtain ⟨oid, commits, hadds, heq, rfl⟩ := hexec
    obtain rfl := Except.ok.inj heq
    have hstored : Prepared w₂ { w₂ with commits } :=
      ⟨rfl, rfl, fun wt' hwt' hmem => ⟨wt', hwt', hadds.mem hmem⟩, forward_adds hadds⟩
    have hcommits (index : GitTree) :
        Prepared w₂ { w₂ with commits, worktree := some ⟨oid, index, wt.disk⟩ } := by
      have hparent : wt.head ∈ commit.parents := by simp [head_mem_parents hcommit]
      refine ⟨rfl, rfl, fun _ _ _ => ⟨_, rfl, hadds.mem_self⟩, fun _ _ => hadds.isAncestor, ?_⟩
      rintro wt' hwt'
      obtain rfl := Option.some.inj hwt'
      exact ⟨wt, hwt, (hadds.parentOf_self hparent).isAncestor⟩
    rw [run_commitAndPublish_some, runs_call_iff] at h
    rcases h with ⟨rfl, rfl⟩ | ⟨_, w₁, hexec, h⟩ | ⟨e, hexec, rfl⟩
    · exact .inl ⟨hcall trivial, hstored⟩
    · rcases hexec with ⟨heq, -⟩ | ⟨-, rfl⟩
      · cases heq
      have hmoved : ({ w₂ with commits : QuarantineWorld }.mapWorktree fun wt =>
          { wt with head := oid }) =
            { w₂ with commits, worktree := some ⟨oid, wt.index, wt.disk⟩ } := by
        simp [QuarantineWorld.mapWorktree, hwt]
      rw [hmoved, runs_call_iff] at h
      rcases h with ⟨rfl, rfl⟩ | ⟨_, w₁, hexec, h⟩ | ⟨e, hexec, rfl⟩
      · exact .inl ⟨hcall trivial, hcommits _⟩
      · rcases hexec with ⟨heq, -⟩ | ⟨-, rfl⟩
        · cases heq
        refine .inr ⟨state, wt, oid, _, hstate, hwt, ?_, h⟩
        rw [CommitsEdits, hcommit]
        exact ⟨commits, hadds, rfl⟩
      · rcases hexec with ⟨-, rfl⟩ | ⟨heq, -⟩
        · exact .inl ⟨herror e, hcommits _⟩
        · cases heq
    · rcases hexec with ⟨-, rfl⟩ | ⟨heq, -⟩
      · exact .inl ⟨herror e, hstored⟩
      · cases heq

/-! ### Runs -/

theorem only_validateAndPublish (commitOid : GitOid) :
    (validateAndPublish state commitOid).run.Only KeepsHead := by
  rw [run_validateAndPublish]
  exact ⟨fun _ => by simp, only_andThen fun outcome =>
    (only_publish commitOid outcome).mono fun _ => AfterValidation.keepsHead⟩

/-- However far a promotion gets, HEAD only moves forward. -/
theorem forward_of_promote
    {q : Prog PromoteOp (fun op => Except QuarantineError op.Ret)
      (Except QuarantineError PromoteResult)}
    (h : Prog.Runs (PromoteOp.exec ignored) promoteQuarantine.run w q w') : Forward w w' := by
  rcases runs_promote_cases h with ⟨-, hprepared⟩ | ⟨state, wt, oid, w₁, -, hwt, hcommits, hrun⟩
  · exact hprepared.forward
  · exact (hcommits.prepared hwt).forward.trans
      (forward_of_only (only_validateAndPublish oid) hrun)

/-- What was at the HEAD of a quarantine is below its HEAD. -/
theorem QuarantineRun.isAncestor (h : QuarantineRun ignored start heads w)
    (hwt : w.worktree = some wt) : ∀ head ∈ heads, w.commits.IsAncestor head wt.head := by
  induction h generalizing wt with
  | start hstart =>
    intro head hhead
    obtain rfl := Option.some.inj (hstart.symm.trans hwt)
    exact List.mem_singleton.mp hhead ▸ .refl _
  | edit h hwt' refs index disk ih =>
    obtain rfl := Option.some.inj hwt
    have hbefore := ih hwt'
    exact hbefore
  | commit h hwt' hparent hadds index disk ih =>
    obtain rfl := Option.some.inj hwt
    intro head hhead
    rcases List.mem_append.mp hhead with hhead | hhead
    · exact (hadds.isAncestor (ih hwt' head hhead)).trans (hadds.parentOf_self hparent).isAncestor
    · exact List.mem_singleton.mp hhead ▸ .refl _
  | promote h hrun ih =>
    intro head hhead
    obtain ⟨hkeep, hforward⟩ := forward_of_promote hrun
    obtain ⟨wt', hwt', hanc⟩ := hforward wt hwt
    rcases List.mem_append.mp hhead with hhead | hhead
    · exact (hkeep _ _ (ih hwt' head hhead)).trans hanc
    · simp only [hwt, Option.map_some, Option.toList_some, List.mem_singleton] at hhead
      exact hhead ▸ .refl _

/-! ### The published commit -/

/-- A worktree whose index has the state of the worktree has the same state. -/
theorem content_of_index {index : GitTree}
    (h : ∀ p, index.lookup p = wt.content ignored p) (p : Path) :
    (⟨oid, index, wt.disk⟩ : Worktree).content ignored p = wt.content ignored p := by
  have hp := h p
  unfold Worktree.content at hp ⊢
  split_ifs at hp ⊢ <;> simp_all

/-- The commit of a promotable worktree has its state, and so has the worktree that is validated. -/
theorem CommitsEdits.tree (h : CommitsEdits ignored w state wt oid w₁)
    (hpromotable : Promotable ignored w) (hwt : w.worktree = some wt)
    (hstate : w.state = some state) :
    ∃ wt₁, w₁.worktree = some wt₁ ∧ wt₁.head = oid ∧
      ∀ p, (w₁.commits.treeOf oid).lookup p = wt₁.content ignored p := by
  obtain ⟨hskipped, hclean⟩ := hpromotable wt state hwt hstate
  have htree (p : Path) : (wt.stateTree ignored (w.commits.treeOf wt.head)).lookup p =
      wt.content ignored p := by
    rw [Worktree.lookup_stateTree (w.commits.treeOf_prefixFree wt.head), Worktree.committed]
    split_ifs with hskip
    · exact hskipped p hskip
    · rfl
  unfold CommitsEdits Worktree.stateCommit at h
  split_ifs at h with hedits
  · obtain ⟨rfl, rfl⟩ := h
    refine ⟨wt, hwt, hclean hedits, fun p => ?_⟩
    rw [← hclean hedits, ← htree p, Worktree.stateTree, hedits]
    rfl
  · obtain ⟨commits, hadds, rfl⟩ := h
    have hcommits : ∀ p, (commits.treeOf oid).lookup p = wt.content ignored p := fun p => by
      rw [CommitStore.treeOf_adds hadds, htree p]
    refine ⟨_, rfl, rfl, fun p => ?_⟩
    rw [hcommits p, content_of_index hcommits]

/-- The refs and the commits stay as they are. -/
def KeepsRepo (w w' : QuarantineWorld) : Prop := w'.refs = w.refs ∧ w'.commits = w.commits

theorem KeepsRepo.trans {w w' w'' : QuarantineWorld} (h : KeepsRepo w w') (h' : KeepsRepo w' w'') :
    KeepsRepo w w'' :=
  ⟨h'.1.trans h.1, h'.2.trans h.2⟩

theorem keepsRepo_of_exec {op : PromoteOp} {r : Except QuarantineError op.Ret} (hop : CleansUp op)
    (h : PromoteOp.exec ignored op w r w') : KeepsRepo w w' := by
  cases op with
  | worktreeExists => exact h.1 ▸ ⟨rfl, rfl⟩
  | removeWorktree => rcases h with ⟨-, rfl⟩ | ⟨-, disk, rfl⟩ <;> exact ⟨rfl, rfl⟩
  | removeState => rcases h with ⟨-, rfl⟩ | ⟨-, rfl⟩ <;> exact ⟨rfl, rfl⟩
  | _ => exact absurd hop id

/-- Cleaning up moves no ref and no commit, however far it gets. -/
theorem keepsRepo_of_cleanUp
    {q : Prog PromoteOp (fun op => Except QuarantineError op.Ret)
      (Except QuarantineError PromoteResult)}
    (h : Prog.Runs (PromoteOp.exec ignored) (cleanUp oid).run w q w') : KeepsRepo w w' :=
  h.frame (T := KeepsRepo) (fun _ => ⟨rfl, rfl⟩) (fun _ _ _ => KeepsRepo.trans)
    (fun _ _ _ _ => keepsRepo_of_exec) (only_cleanUp oid)

theorem cleanUp_result {r : Except QuarantineError PromoteResult}
    (h : Prog.Runs (PromoteOp.exec ignored) (cleanUp oid).run w (.done r) w') :
    r = .ok (.committed oid) := by
  have havoids : (cleanUp oid).run.Avoids fun r => r ≠ .ok (.committed oid) := by
    rw [run_cleanUp]
    exact Prog.avoids_bind fun _ => not_not.mpr rfl
  exact not_not.mp (h.avoids havoids)

/-- An update that succeeded. -/
theorem refs_of_writeRefCas {name : String} {oldOid newOid : GitOid}
    (h : PromoteOp.exec ignored (.writeRefCas name oldOid newOid) w (.ok ()) w') :
    w.refs.Matches name oldOid ∧ w' = { w with refs := w.refs.insert name newOid } := by
  obtain ⟨result, refs, hupdate, hr, rfl⟩ := h
  rcases hupdate with ⟨rfl, hmatches, rfl⟩ | ⟨⟨e, rfl⟩, -⟩
  · exact ⟨hmatches _ List.mem_cons_self, rfl⟩
  · cases hr

/-- A publication that went through has moved both refs to the commit. -/
theorem publish_committed {outcome : ValidateOutcome} {newEpoch : GitOid}
    (h : Prog.Runs (PromoteOp.exec ignored) (publish state oid outcome).run w
      (.done (.ok (.committed newEpoch))) w') :
    newEpoch = oid ∧ w'.commits = w.commits ∧ w'.refs.lookup epochCurrent = some oid ∧
      w'.refs.lookup (branchRef state.branch) = some oid := by
  rcases run_publish state oid outcome with heq | ⟨result, heq⟩
  · rw [heq] at h
    rcases runs_attempt h with ⟨_, w₁, hepoch, h⟩ | ⟨e, -, he⟩
    · rcases runs_attempt h with ⟨_, w₂, hbranch, h⟩ | ⟨e, -, he⟩
      · obtain ⟨-, rfl⟩ := refs_of_writeRefCas hepoch
        obtain ⟨-, rfl⟩ := refs_of_writeRefCas hbranch
        obtain ⟨hrefs, hcommits⟩ := keepsRepo_of_cleanUp h
        have hresult := cleanUp_result h
        have hne := (branchRef_ne_epochCurrent state.branch).symm
        simp only [Except.ok.injEq, PromoteResult.committed.injEq] at hresult
        refine ⟨hresult, hcommits, ?_, ?_⟩
        · rw [hrefs, FiniteMap.lookup_insert, if_neg hne, Finmap.lookup_insert]
        · rw [hrefs, Finmap.lookup_insert]
      · cases he
    · cases he
  · rw [heq] at h
    obtain ⟨hdone, -⟩ := runs_done h
    cases Prog.done.inj hdone

/-! ### Promotions that pass -/

theorem writeRefCas_ok {name : String} {oldOid newOid : GitOid}
    (h : w.refs.Matches name oldOid) : PromoteOp.exec ignored (.writeRefCas name oldOid newOid) w
      (.ok ()) { w with refs := w.refs.insert name newOid } :=
  ⟨.ok (), w.refs.insert name newOid,
    .inl ⟨rfl, fun _ he => (List.mem_singleton.mp he) ▸ h, rfl⟩, rfl, rfl⟩

/-- A worktree on a stored commit can be committed. -/
theorem exists_commitsEdits (hmem : wt.head ∈ w.commits.nodes) (hfresh : oid ∉ w.commits.nodes) :
    ∃ newEpoch w₁, CommitsEdits ignored w state wt newEpoch w₁ := by
  rcases hcommit : wt.stateCommit ignored w.commits with _ | commit
  · exact ⟨state.candidate, w, by simp [CommitsEdits, hcommit]⟩
  · have hparents : ∀ j ∈ commit.parents, j ∈ w.commits.nodes := by
      rw [head_mem_parents hcommit]
      exact fun j hj => List.mem_singleton.mp hj ▸ hmem
    let commits : CommitStore := w.commits.add oid commit hfresh hparents
    refine ⟨oid, { w with commits, worktree := some ⟨oid, commits.treeOf oid, wt.disk⟩ }, ?_⟩
    rw [CommitsEdits, hcommit]
    exact ⟨commits, .inr ⟨hfresh, hparents, rfl⟩, rfl⟩

/-- A promotion may come to the validation. -/
theorem CommitsEdits.runs (h : CommitsEdits ignored w state wt oid w₁)
    (hwt : w.worktree = some wt) (hstate : w.state = some state) :
    Prog.Runs (PromoteOp.exec ignored) promoteQuarantine.run w
      (.call .runValidate (andThen fun outcome => (publish state oid outcome).run)) w₁ := by
  have hread : PromoteOp.exec ignored .readState w (.ok state) w :=
    ⟨rfl, .inl ⟨state, hstate, rfl⟩⟩
  have hfound : PromoteOp.exec ignored .worktreeExists w (.ok true) w := ⟨rfl, by rw [hwt]; rfl⟩
  rw [run_promoteQuarantine]
  refine runs_ok hread (runs_ok hfound ?_)
  rw [if_pos rfl]
  unfold CommitsEdits at h
  rcases hcommit : wt.stateCommit ignored w.commits with _ | commit <;> rw [hcommit] at h
  · obtain ⟨rfl, rfl⟩ := h
    have hnone : PromoteOp.exec ignored .worktreeStateCommit w₁ (.ok none) w₁ := by
      refine .inr ⟨wt, hwt, ?_⟩
      rw [hcommit]
      exact ⟨rfl, rfl⟩
    exact runs_ok hnone (run_validateAndPublish ▸ .refl _ _)
  · obtain ⟨commits, hadds, rfl⟩ := h
    have hsome : PromoteOp.exec ignored .worktreeStateCommit w (.ok (some oid))
        { w with commits } := by
      refine .inr ⟨wt, hwt, ?_⟩
      rw [hcommit]
      exact ⟨oid, commits, hadds, rfl, rfl⟩
    have hhead : PromoteOp.exec ignored (.writeHead oid) { w with commits } (.ok ())
        { w with commits, worktree := some ⟨oid, wt.index, wt.disk⟩ } :=
      .inr ⟨rfl, by simp [QuarantineWorld.mapWorktree, hwt]⟩
    have hindex : PromoteOp.exec ignored .unstageAll
        { w with commits, worktree := some ⟨oid, wt.index, wt.disk⟩ } (.ok ())
        { w with commits, worktree := some ⟨oid, commits.treeOf oid, wt.disk⟩ } := .inr ⟨rfl, rfl⟩
    refine runs_ok hsome ?_
    rw [run_commitAndPublish_some]
    exact runs_ok hhead (runs_ok hindex (run_validateAndPublish ▸ .refl _ _))

/-- The world after a publication and its clean-up. -/
def QuarantineWorld.published (w : QuarantineWorld) (state : QuarantineState) (oid : GitOid) :
    QuarantineWorld :=
  { w with
    refs := (w.refs.insert epochCurrent oid).insert (branchRef state.branch) oid
    worktree := none
    state := none }

/-- A quarantine whose validation passes is published if both refs are at the epoch before. -/
theorem runs_publish (hwt : w.worktree = some wt)
    (hepoch : w.refs.Matches epochCurrent state.epochBefore)
    (hbranch : w.refs.Matches (branchRef state.branch) state.epochBefore) :
    Prog.Runs (PromoteOp.exec ignored)
      (.call .runValidate (andThen fun outcome => (publish state oid outcome).run)) w
      (.done (.ok (.committed oid))) (w.published state oid) := by
  have hskip : PromoteOp.exec ignored .runValidate w (.ok .skipped) w :=
    ⟨.inr ⟨.skipped, rfl⟩, wt.disk, by
      rw [QuarantineWorld.mapWorktree, hwt, Option.map_some, ← hwt]⟩
  refine runs_ok hskip ?_
  rw [run_publish_skipped]
  refine runs_ok (writeRefCas_ok hepoch) (runs_ok (writeRefCas_ok ?_) ?_)
  · rw [RefStore.Matches, FiniteMap.lookup_insert, if_neg (branchRef_ne_epochCurrent _)]
    exact hbranch
  · have hfound (refs : RefStore) : PromoteOp.exec ignored .worktreeExists { w with refs }
        (.ok true) { w with refs } := ⟨rfl, by rw [hwt]; rfl⟩
    have hremove (refs : RefStore) : PromoteOp.exec ignored .removeWorktree { w with refs }
        (.ok ()) { w with refs, worktree := none } := .inl ⟨rfl, rfl⟩
    have hforget (refs : RefStore) : PromoteOp.exec ignored .removeState
        { w with refs, worktree := none } (.ok ()) { w with refs, worktree := none, state := none } :=
      .inl ⟨rfl, rfl⟩
    rw [run_cleanUp, run_abandonQuarantine]
    exact .step (hfound _) (.step (hremove _) (.step (hforget _) (.refl _ _)))

/-! ### Promotions -/

/-- A promotion that is about to validate has committed the worktree. -/
theorem runs_to_validate
    {next : Except QuarantineError ValidateOutcome → Prog PromoteOp
      (fun op => Except QuarantineError op.Ret) (Except QuarantineError PromoteResult)}
    (h : Prog.Runs (PromoteOp.exec ignored) promoteQuarantine.run w (.call .runValidate next) w₁) :
    ∃ state wt oid, w.state = some state ∧ w.worktree = some wt ∧
      CommitsEdits ignored w state wt oid w₁ ∧
      next = andThen fun outcome => (publish state oid outcome).run := by
  rcases runs_promote_cases h with
    ⟨⟨e, he⟩ | ⟨op, next', heq, hop⟩, -⟩ | ⟨state, wt, oid, w₂, hstate, hwt, hcommits, hrun⟩
  · cases he
  · cases heq
    exact absurd hop id
  · rw [run_validateAndPublish, runs_call_iff] at hrun
    rcases hrun with ⟨heq, rfl⟩ | ⟨outcome, w₃, -, hrun⟩ | ⟨e, -, he⟩
    · cases heq
      exact ⟨state, wt, oid, hstate, hwt, hcommits, rfl⟩
    · exact absurd (hrun.only (only_publish oid outcome)).1 id
    · cases he

/-- In every run of a quarantine, a promotion that finds it promotable and returns that it
committed has published the worktree that it validated, on top of all that was committed there. -/
theorem promote_publishes (hrun : QuarantineRun ignored start heads w)
    (hpromotable : Promotable ignored w)
    {next : Except QuarantineError ValidateOutcome → Prog PromoteOp
      (fun op => Except QuarantineError op.Ret) (Except QuarantineError PromoteResult)}
    {newEpoch : GitOid}
    (hvalidate : Prog.Runs (PromoteOp.exec ignored) promoteQuarantine.run w
      (.call .runValidate next) w₁)
    (hcommitted : Prog.Runs (PromoteOp.exec ignored) (.call .runValidate next) w₁
      (.done (.ok (.committed newEpoch))) w') :
    PublishesValidated ignored heads w₁ w' newEpoch := by
  obtain ⟨state, wt, oid, hstate, hwt, hcommits, rfl⟩ := runs_to_validate hvalidate
  obtain ⟨wt₁, hwt₁, rfl, htree⟩ := hcommits.tree hpromotable hwt hstate
  rcases runs_attempt hcommitted with ⟨outcome, w₂, ⟨-, disk, rfl⟩, hpublish⟩ | ⟨e, -, he⟩
  · obtain ⟨rfl, hkeep, hepoch, -⟩ := publish_committed hpublish
    have hcommits' : w'.commits = w₁.commits := hkeep
    refine ⟨hepoch, ⟨wt₁, hwt₁, hcommits' ▸ htree⟩, fun head hhead => ?_⟩
    obtain ⟨hgrow, hforward⟩ := (hcommits.prepared hwt).forward
    obtain ⟨wt', hwt', hanc⟩ := hforward wt₁ hwt₁
    rw [hcommits']
    exact (hgrow _ _ (hrun.isAncestor hwt' head hhead)).trans hanc
  · cases he

/-! ### Two quarantines -/

section Samples

/-- A merge of the first commit into the second, in quarantine. -/
def sampleQuarantine : QuarantineWorld where
  refs := ((∅ : RefStore).insert epochCurrent (sampleBlob 1)).insert (branchRef "main")
    (sampleBlob 1)
  commits := sampleCommits
  worktree := some ⟨sampleBlob 2, oneFileTree 10, sampleDisk 10⟩
  state := some ⟨sampleBlob 1, sampleBlob 2, "main"⟩

/-- The agent has fixed the file. -/
private def fixed : QuarantineWorld :=
  { sampleQuarantine with worktree := some ⟨sampleBlob 2, oneFileTree 10, sampleDisk 11⟩ }

/-- The agent has fixed the file and committed it. -/
private def fixedAndCommitted : QuarantineWorld :=
  { sampleQuarantine with
    commits := sampleCommits.add (sampleBlob 3) (sampleCommit 11 [sampleBlob 2]) third_not_mem
      (by decide)
    worktree := some ⟨sampleBlob 3, oneFileTree 11, sampleDisk 11⟩ }

theorem not_skipped_sampleDisk {head index : GitTree} {oid : GitOid} {n : Nat} {p : Path} :
    ¬ (⟨oid, index, sampleDisk n⟩ : Worktree).Skipped ignored head p := by
  intro h
  have hp : p = samplePath := by simpa [sampleDisk, Finmap.lookup_eq_none] using h.occupied
  rw [Worktree.Skipped, Option.any_eq_true] at h
  obtain ⟨status, -, hedit⟩ := h
  by_cases hstatus : status = .deleted
  · simp [hstatus, Worktree.stateEdit] at hedit
  · have hdisk : (sampleDisk n).occupants.lookup p = some (.regular (sampleBlob n)) := by
      rw [hp, sampleDisk, Finmap.lookup_singleton_eq]
    rw [Worktree.stateEdit_of_occupied hstatus hdisk] at hedit
    simp [Occupant.fileEntry] at hedit

/-- A fix that is not committed is published. -/
theorem promote_publishes_fixed : ∃ w₁ w' newEpoch,
    PublishesValidated noneIgnored [sampleBlob 2] w₁ w' newEpoch := by
  let wt : Worktree := ⟨sampleBlob 2, oneFileTree 10, sampleDisk 10⟩
  let wt' : Worktree := ⟨sampleBlob 2, oneFileTree 10, sampleDisk 11⟩
  let state : QuarantineState := ⟨sampleBlob 1, sampleBlob 2, "main"⟩
  have hstart : sampleQuarantine.worktree = some wt := rfl
  have hrun : QuarantineRun noneIgnored sampleQuarantine [sampleBlob 2] fixed :=
    .edit (.start hstart) hstart sampleQuarantine.refs (oneFileTree 10) (sampleDisk 11)
  have hpromotable : Promotable noneIgnored fixed := by
    rintro wt state hwt -
    obtain rfl := Option.some.inj hwt
    refine ⟨fun p hp => absurd hp not_skipped_sampleDisk, fun hedits => ?_⟩
    exact absurd hedits (by decide +kernel)
  have hcommits : ∃ newEpoch w₁, CommitsEdits noneIgnored fixed state wt' newEpoch w₁ :=
    exists_commitsEdits (by decide) (show sampleBlob 3 ∉ sampleCommits.nodes by decide)
  obtain ⟨newEpoch, w₁, hcommits⟩ := hcommits
  obtain ⟨hrefs, -, hworktree, -⟩ := hcommits.prepared rfl
  obtain ⟨wt₁, hwt₁, -⟩ := hworktree wt' rfl (by decide)
  have hpublish : Prog.Runs (PromoteOp.exec noneIgnored) (.call .runValidate
      (andThen fun outcome => (publish state newEpoch outcome).run)) w₁
        (.done (.ok (.committed newEpoch))) (w₁.published state newEpoch) :=
    runs_publish hwt₁ (hrefs ▸ by decide +kernel) (hrefs ▸ by decide +kernel)
  exact ⟨w₁, _, newEpoch, promote_publishes hrun hpromotable (hcommits.runs rfl rfl) hpublish⟩

/-- A fix that the agent has committed is not: the candidate is published. -/
theorem promote_drops_commit : ¬ ∀ start heads w w₁ w' newEpoch next,
    QuarantineRun noneIgnored start heads w →
    Prog.Runs (PromoteOp.exec noneIgnored) promoteQuarantine.run w (.call .runValidate next) w₁ →
    Prog.Runs (PromoteOp.exec noneIgnored) (.call .runValidate next) w₁
      (.done (.ok (.committed newEpoch))) w' →
    PublishesValidated noneIgnored heads w₁ w' newEpoch := by
  intro h
  let wt : Worktree := ⟨sampleBlob 2, oneFileTree 10, sampleDisk 10⟩
  let wt' : Worktree := ⟨sampleBlob 3, oneFileTree 11, sampleDisk 11⟩
  let state : QuarantineState := ⟨sampleBlob 1, sampleBlob 2, "main"⟩
  have hstart : sampleQuarantine.worktree = some wt := rfl
  have hrun : QuarantineRun noneIgnored sampleQuarantine [sampleBlob 2, sampleBlob 3]
      fixedAndCommitted :=
    .commit (.start hstart) hstart List.mem_cons_self (.inr ⟨_, _, rfl⟩) (oneFileTree 11)
      (sampleDisk 11)
  have hclean : wt'.stateCommit noneIgnored fixedAndCommitted.commits = none := by
    rw [Worktree.stateCommit, if_pos (by decide +kernel)]
  have hcommits : CommitsEdits noneIgnored fixedAndCommitted state wt' (sampleBlob 2)
      fixedAndCommitted := by
    rw [CommitsEdits, hclean]
    exact ⟨rfl, rfl⟩
  have hpublish : Prog.Runs (PromoteOp.exec noneIgnored) (.call .runValidate
      (andThen fun outcome => (publish state (sampleBlob 2) outcome).run)) fixedAndCommitted
        (.done (.ok (.committed (sampleBlob 2)))) (fixedAndCommitted.published state (sampleBlob 2)) :=
    runs_publish rfl (by decide +kernel) (by decide +kernel)
  obtain ⟨-, ⟨wt₁, hwt₁, htree⟩, -⟩ := h _ _ _ _ _ _ _ hrun (hcommits.runs rfl rfl) hpublish
  obtain rfl := Option.some.inj hwt₁
  exact absurd (htree samplePath) (by decide +kernel)

end Samples

end Maw
