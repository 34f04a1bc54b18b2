import Maw.Lfs.TreeScan
import Maw.Library.NodeStore

/-!
# The commits of a push

A push sends the commits that lead to the local branch and not to the remote one. They are found by
a depth-first walk from the local tip that does not go below a commit the remote has.

## Main definitions

* `History` — commits with the ids of their trees.
* `commitsToPush` — the walk.
* `IsNew` — a commit that is pushed.

## Main results

* `commitsToPush_exact` — the walk lists each new commit once, unless there are too many.
-/

namespace Maw.Lfs

/-- A commit: the id of its tree, and the parents. -/
structure CommitObj where
  treeOid : GitOid
  parents : List GitOid
  deriving DecidableEq

abbrev History := NodeStore GitOid CommitObj CommitObj.parents

def maxCommits : ℕ := 10000

inductive ListError
  | isAncestor (oid remote : GitOid)
  | tooMany
  | readCommit (oid : GitOid)
  deriving DecidableEq, Repr

/-- Whether the remote has a commit, given a test of ancestry that may fail. -/
def isKnown (isAncestor : GitOid → GitOid → Option Bool) (remote : Option GitOid) (oid : GitOid) :
    Except ListError Bool :=
  match remote with
  | none => .ok false
  | some r =>
    if oid = r then .ok true
    else
      match isAncestor oid r with
      | some known => .ok known
      | none => .error (.isAncestor oid r)

theorem lex_of_le {a b c d : ℕ} (h : a ≤ b) (h' : c < d) :
    Prod.Lex (· < ·) (· < ·) (a, c) (b, d) := by
  rcases h.lt_or_eq with hlt | rfl
  · exact .left _ _ hlt
  · exact .right _ h'

/-- The commits that the stack leads to, depth first; the top of the stack comes first. -/
def commitsToPushFrom (history : History) (isAncestor : GitOid → GitOid → Option Bool)
    (remote : Option GitOid) : (stack : List GitOid) → (seen : Finset GitOid) →
      (out : List GitOid) → Except ListError (List GitOid)
  | [], _, out => .ok out
  | oid :: stack, seen, out =>
    if oid ∈ seen then commitsToPushFrom history isAncestor remote stack seen out
    else
      match isKnown isAncestor remote oid with
      | .error e => .error e
      | .ok true => commitsToPushFrom history isAncestor remote stack (insert oid seen) out
      | .ok false =>
        if maxCommits < (out ++ [oid]).length then .error .tooMany
        else
          match _h : history.nodes.lookup oid with
          | none => .error (.readCommit oid)
          | some commit =>
            commitsToPushFrom history isAncestor remote
              ((commit.parents.filter (· ∉ insert oid seen)).reverse ++ stack)
              (insert oid seen) (out ++ [oid])
termination_by stack seen => ((history.nodes.keys \ seen).card, stack.length)
decreasing_by
  · exact Prod.Lex.right _ (by simp)
  · exact lex_of_le (Finset.card_le_card (Finset.sdiff_subset_sdiff le_rfl
      (Finset.subset_insert _ _))) (by simp)
  · refine Prod.Lex.left _ _ (Finset.card_lt_card ⟨Finset.sdiff_subset_sdiff le_rfl
      (Finset.subset_insert _ _), fun hsub => ?_⟩)
    have hmem : oid ∈ history.nodes.keys \ seen := by
      rw [Finset.mem_sdiff, Finmap.mem_keys]
      exact ⟨FiniteMap.mem_of_lookup _h, ‹_›⟩
    exact absurd (hsub hmem) (by simp)

def commitsToPush (history : History) (isAncestor : GitOid → GitOid → Option Bool)
    (tip : GitOid) (remote : Option GitOid) : Except ListError (List GitOid) :=
  commitsToPushFrom history isAncestor remote [tip] ∅ []

/-- A commit that leads to the tip and not to the remote one. -/
def IsNew (history : History) (tip : GitOid) (remote : Option GitOid) (oid : GitOid) : Prop :=
  history.IsAncestor oid tip ∧ ∀ r, remote = some r → ¬ history.IsAncestor oid r

section Walk

variable {history : History} {isAncestor : GitOid → GitOid → Option Bool} {tip : GitOid}
  {remote : Option GitOid} {stack out result : List GitOid} {seen : Finset GitOid}

/-- The test of ancestry is right where it does not fail. -/
def TestsAncestry (history : History) (isAncestor : GitOid → GitOid → Option Bool) : Prop :=
  ∀ a b known, isAncestor a b = some known → (known = true ↔ history.IsAncestor a b)

theorem isKnown_eq_ok (htest : TestsAncestry history isAncestor) {oid : GitOid} {known : Bool}
    (h : isKnown isAncestor remote oid = .ok known) :
    known = true ↔ ∃ r, remote = some r ∧ history.IsAncestor oid r := by
  rcases remote with _ | r
  · obtain rfl := Except.ok.inj h
    simp
  · rw [isKnown] at h
    split_ifs at h with heq
    · obtain rfl := Except.ok.inj h
      exact iff_of_true rfl ⟨r, rfl, heq ▸ .refl _⟩
    · rcases hanc : isAncestor oid r with _ | b
      · rw [hanc] at h
        cases h
      · rw [hanc] at h
        obtain rfl := Except.ok.inj h
        rw [htest oid r b hanc]
        simp

/-- What a walk has listed and still has to look at: whatever was seen is known to the remote, or
is listed and its parents are seen or wait on the stack. -/
structure Walked (history : History) (tip : GitOid) (remote : Option GitOid)
    (stack : List GitOid) (seen : Finset GitOid) (out : List GitOid) : Prop where
  nodup : out.Nodup
  listed : ∀ oid ∈ out, oid ∈ seen ∧ IsNew history tip remote oid
  waiting : ∀ oid ∈ stack, history.IsAncestor oid tip
  settled : ∀ oid ∈ seen, (∃ r, remote = some r ∧ history.IsAncestor oid r) ∨
    (oid ∈ out ∧ ∀ parent, history.ParentOf parent oid → parent ∈ seen ∨ parent ∈ stack)
  start : tip ∈ seen ∨ tip ∈ stack

theorem walked_start : Walked history tip remote [tip] ∅ [] where
  nodup := List.nodup_nil
  listed oid hoid := by simp at hoid
  waiting oid hoid := List.mem_singleton.mp hoid ▸ .refl _
  settled oid hoid := by simp at hoid
  start := .inr List.mem_cons_self

/-- A commit that was seen is taken off the stack. -/
theorem Walked.skip {oid : GitOid} (h : Walked history tip remote (oid :: stack) seen out)
    (hseen : oid ∈ seen) : Walked history tip remote stack seen out where
  nodup := h.nodup
  listed := h.listed
  waiting other hother := h.waiting other (List.mem_cons_of_mem _ hother)
  settled other hother := (h.settled other hother).imp_right fun ⟨hout, hparents⟩ =>
    ⟨hout, fun parent hparent => (hparents parent hparent).elim .inl fun hstack =>
      (List.mem_cons.mp hstack).elim (fun heq => .inl (heq ▸ hseen)) .inr⟩
  start := h.start.elim .inl fun hstack =>
    (List.mem_cons.mp hstack).elim (fun heq => .inl (heq ▸ hseen)) .inr

/-- A commit that the remote has is passed over. -/
theorem Walked.prune {oid r : GitOid} (h : Walked history tip remote (oid :: stack) seen out)
    (hr : remote = some r) (hknown : history.IsAncestor oid r) :
    Walked history tip remote stack (insert oid seen) out := by
  have hgrown : Walked history tip remote (oid :: stack) (insert oid seen) out := by
    refine ⟨h.nodup, fun other hother => ?_, h.waiting, fun other hother => ?_, ?_⟩
    · exact (h.listed other hother).imp_left (Finset.mem_insert_of_mem ·)
    · rcases Finset.mem_insert.mp hother with rfl | hother
      · exact .inl ⟨r, hr, hknown⟩
      · refine (h.settled other hother).imp_right fun ⟨hout, hparents⟩ => ⟨hout, fun p hp => ?_⟩
        exact (hparents p hp).imp_left (Finset.mem_insert_of_mem ·)
    · exact h.start.imp_left (Finset.mem_insert_of_mem ·)
  exact hgrown.skip (Finset.mem_insert_self _ _)

/-- A new commit is listed, and its parents are looked at. -/
theorem Walked.visit {oid : GitOid} {commit : CommitObj}
    (h : Walked history tip remote (oid :: stack) seen out) (hseen : oid ∉ seen)
    (hnew : ∀ r, remote = some r → ¬ history.IsAncestor oid r)
    (hcommit : history.nodes.lookup oid = some commit) :
    Walked history tip remote ((commit.parents.filter (· ∉ insert oid seen)).reverse ++ stack)
      (insert oid seen) (out ++ [oid]) := by
  have hoid : history.IsAncestor oid tip := h.waiting oid List.mem_cons_self
  have hnext (parent : GitOid) (hparent : parent ∈ commit.parents) :
      parent ∈ insert oid seen ∨
        parent ∈ (commit.parents.filter (· ∉ insert oid seen)).reverse ++ stack := by
    by_cases hin : parent ∈ insert oid seen
    · exact .inl hin
    · refine .inr (List.mem_append_left _ (List.mem_reverse.mpr ?_))
      exact List.mem_filter.mpr ⟨hparent, decide_eq_true hin⟩
  have hold (parent : GitOid) (hparent : parent ∈ seen ∨ parent ∈ oid :: stack) :
      parent ∈ insert oid seen ∨
        parent ∈ (commit.parents.filter (· ∉ insert oid seen)).reverse ++ stack := by
    rcases hparent with hparent | hparent
    · exact .inl (Finset.mem_insert_of_mem hparent)
    · rcases List.mem_cons.mp hparent with rfl | hparent
      · exact .inl (Finset.mem_insert_self _ _)
      · exact .inr (List.mem_append_right _ hparent)
  refine ⟨?_, fun other hother => ?_, fun other hother => ?_, fun other hother => ?_, hold _ h.start⟩
  · rw [List.nodup_append]
    refine ⟨h.nodup, List.nodup_singleton _, fun a ha b hb => ?_⟩
    rw [List.mem_singleton.mp hb]
    rintro rfl
    exact hseen (h.listed a ha).1
  · rcases List.mem_append.mp hother with hother | hother
    · exact (h.listed other hother).imp_left (Finset.mem_insert_of_mem ·)
    · obtain rfl := List.mem_singleton.mp hother
      exact ⟨Finset.mem_insert_self _ _, hoid, hnew⟩
  · rcases List.mem_append.mp hother with hother | hother
    · have hparent := List.mem_of_mem_filter (List.mem_reverse.mp hother)
      exact (NodeStore.ParentOf.isAncestor ⟨commit, hcommit, hparent⟩).trans hoid
    · exact h.waiting other (List.mem_cons_of_mem _ hother)
  · rcases Finset.mem_insert.mp hother with rfl | hother
    · refine .inr ⟨List.mem_append_right _ List.mem_cons_self, fun parent hparent => ?_⟩
      obtain ⟨commit', hcommit', hmem⟩ := hparent
      obtain rfl := Option.some.inj (hcommit.symm.trans hcommit')
      exact hnext parent hmem
    · refine (h.settled other hother).imp_right fun ⟨hout, hparents⟩ => ?_
      exact ⟨List.mem_append_left _ hout, fun parent hparent => hold parent (hparents parent hparent)⟩

/-- A walk that has nothing left to look at has listed the new commits. -/
theorem Walked.mem_iff (h : Walked history tip remote [] seen out) {oid : GitOid} :
    oid ∈ out ↔ IsNew history tip remote oid := by
  constructor
  · exact fun hoid => (h.listed oid hoid).2
  · rintro ⟨hanc, hnew⟩
    have hclosed : ∀ i ∈ {i | i ∈ seen ∨ ∃ r, remote = some r ∧ history.IsAncestor i r},
        ∀ j, history.ParentOf j i →
          j ∈ {i | i ∈ seen ∨ ∃ r, remote = some r ∧ history.IsAncestor i r} := by
      have hknown (i j : GitOid) (hji : history.ParentOf j i)
          (hi : ∃ r, remote = some r ∧ history.IsAncestor i r) :
          ∃ r, remote = some r ∧ history.IsAncestor j r := by
        obtain ⟨r, hr, hir⟩ := hi
        exact ⟨r, hr, hji.isAncestor.trans hir⟩
      rintro i (hi | hi) j hji
      · rcases h.settled i hi with hi | ⟨-, hparents⟩
        · exact .inr (hknown i j hji hi)
        · exact .inl ((hparents j hji).resolve_right List.not_mem_nil)
      · exact .inr (hknown i j hji hi)
    have hmem := NodeStore.IsAncestor.mem_of_closed hclosed hanc
      (.inl (h.start.resolve_right List.not_mem_nil))
    have hnot : ¬ ∃ r, remote = some r ∧ history.IsAncestor oid r := fun ⟨r, hr, hanc⟩ =>
      hnew r hr hanc
    have hseen : oid ∈ seen := hmem.resolve_right hnot
    exact ((h.settled oid hseen).resolve_left hnot).1

/-- A walk that returns goes on to one that has nothing left to look at. -/
theorem Walked.of_eq_ok (htest : TestsAncestry history isAncestor)
    (h : Walked history tip remote stack seen out)
    (hresult : commitsToPushFrom history isAncestor remote stack seen out = .ok result) :
    ∃ seen', Walked history tip remote [] seen' result := by
  induction stack, seen, out using commitsToPushFrom.induct history isAncestor remote with
  | case1 seen out =>
    rw [commitsToPushFrom] at hresult
    obtain rfl := Except.ok.inj hresult
    exact ⟨seen, h⟩
  | case2 oid stack seen out hseen ih =>
    rw [commitsToPushFrom, if_pos hseen] at hresult
    exact ih (h.skip hseen) hresult
  | case3 oid stack seen out hseen e hknown =>
    rw [commitsToPushFrom, if_neg hseen, hknown] at hresult
    cases hresult
  | case4 oid stack seen out hseen hknown ih =>
    rw [commitsToPushFrom, if_neg hseen, hknown] at hresult
    obtain ⟨r, hr, hanc⟩ := (isKnown_eq_ok htest hknown).mp rfl
    exact ih (h.prune hr hanc) hresult
  | case5 oid stack seen out hseen hknown hmany =>
    rw [commitsToPushFrom, if_neg hseen, hknown] at hresult
    dsimp only at hresult
    rw [if_pos hmany] at hresult
    cases hresult
  | case6 oid stack seen out hseen hknown hmany hnone =>
    rw [commitsToPushFrom, if_neg hseen, hknown] at hresult
    dsimp only at hresult
    rw [if_neg hmany] at hresult
    grind
  | case7 oid stack seen out hseen hknown hmany commit hcommit ih =>
    rw [commitsToPushFrom, if_neg hseen, hknown] at hresult
    dsimp only at hresult
    rw [if_neg hmany] at hresult
    have hnew : ∀ r, remote = some r → ¬ history.IsAncestor oid r := fun r hr hanc =>
      absurd ((isKnown_eq_ok htest hknown).mpr ⟨r, hr, hanc⟩) Bool.false_ne_true
    exact ih (h.visit hseen hnew hcommit) (by grind)

/-- With a test that does not fail and not too many commits, the walk returns. -/
theorem Walked.exists_eq_ok (htest : TestsAncestry history isAncestor)
    (htotal : ∀ a b, isAncestor a b ≠ none) (htip : tip ∈ history.nodes)
    (hfew : ∀ l : List GitOid, l.Nodup → (∀ oid ∈ l, IsNew history tip remote oid) →
      l.length ≤ maxCommits)
    (h : Walked history tip remote stack seen out) :
    ∃ result, commitsToPushFrom history isAncestor remote stack seen out = .ok result := by
  induction stack, seen, out using commitsToPushFrom.induct history isAncestor remote with
  | case1 seen out => exact ⟨out, by rw [commitsToPushFrom]⟩
  | case2 oid stack seen out hseen ih =>
    rw [commitsToPushFrom, if_pos hseen]
    exact ih (h.skip hseen)
  | case3 oid stack seen out hseen e hknown =>
    rcases remote with _ | r
    · cases hknown
    · rw [isKnown] at hknown
      split_ifs at hknown
      rcases hanc : isAncestor oid r with _ | b
      · exact absurd hanc (htotal oid r)
      · rw [hanc] at hknown
        cases hknown
  | case4 oid stack seen out hseen hknown ih =>
    rw [commitsToPushFrom, if_neg hseen, hknown]
    obtain ⟨r, hr, hanc⟩ := (isKnown_eq_ok htest hknown).mp rfl
    exact ih (h.prune hr hanc)
  | case5 oid stack seen out hseen hknown hmany =>
    have hnew : ∀ r, remote = some r → ¬ history.IsAncestor oid r := fun r hr hanc =>
      absurd ((isKnown_eq_ok htest hknown).mpr ⟨r, hr, hanc⟩) Bool.false_ne_true
    obtain ⟨commit, hcommit⟩ :=
      Finmap.mem_iff.mp ((h.waiting oid List.mem_cons_self).mem htip)
    have hvisit := h.visit hseen hnew hcommit
    exact absurd (hfew _ hvisit.nodup fun o ho => (hvisit.listed o ho).2) (not_le.mpr hmany)
  | case6 oid stack seen out hseen hknown hmany hnone =>
    exact absurd ((h.waiting oid List.mem_cons_self).mem htip) (Finmap.lookup_eq_none.mp hnone)
  | case7 oid stack seen out hseen hknown hmany commit hcommit ih =>
    have hnew : ∀ r, remote = some r → ¬ history.IsAncestor oid r := fun r hr hanc =>
      absurd ((isKnown_eq_ok htest hknown).mpr ⟨r, hr, hanc⟩) Bool.false_ne_true
    obtain ⟨result, hresult⟩ := ih (h.visit hseen hnew hcommit)
    refine ⟨result, ?_⟩
    rw [commitsToPushFrom, if_neg hseen, hknown]
    dsimp only
    rw [if_neg hmany]
    grind

/-- A walk that returns has listed every commit that leads to the tip and not to the remote one
exactly once. It returns unless the test of ancestry fails or there are too many such commits. -/
theorem commitsToPush_exact (htest : TestsAncestry history isAncestor) (htip : tip ∈ history.nodes) :
    (∀ result, commitsToPush history isAncestor tip remote = .ok result →
      result.Nodup ∧ ∀ oid, oid ∈ result ↔ IsNew history tip remote oid) ∧
    ((∀ a b, isAncestor a b ≠ none) → (∀ l : List GitOid, l.Nodup →
        (∀ oid ∈ l, IsNew history tip remote oid) → l.length ≤ maxCommits) →
      ∃ result, commitsToPush history isAncestor tip remote = .ok result) := by
  refine ⟨fun result h => ?_, fun htotal hfew => ?_⟩
  · obtain ⟨seen, hwalked⟩ := walked_start.of_eq_ok htest h
    exact ⟨hwalked.nodup, fun oid => hwalked.mem_iff⟩
  · exact walked_start.exists_eq_ok htest htotal htip hfew

end Walk

/-! ### A small history -/

/-- A commit, and two on top of it that a third one merges. -/
def sampleHistory : History :=
  (((NodeStore.empty.add (sampleBlob 1) ⟨sampleBlob 11, []⟩ (by decide) (by decide)).add
    (sampleBlob 2) ⟨sampleBlob 12, [sampleBlob 1]⟩ (by decide) (by decide)).add
    (sampleBlob 3) ⟨sampleBlob 13, [sampleBlob 1]⟩ (by decide) (by decide)).add
    (sampleBlob 4) ⟨sampleBlob 14, [sampleBlob 2, sampleBlob 3]⟩ (by decide) (by decide)

/-- Its ancestry. -/
noncomputable def sampleIsAncestor (a b : GitOid) : Option Bool :=
  some (@decide (sampleHistory.IsAncestor a b) (Classical.propDecidable _))

theorem commitsToPush_exact_sample :
    (∀ result, commitsToPush sampleHistory sampleIsAncestor (sampleBlob 4) (some (sampleBlob 2)) =
        .ok result → result.Nodup ∧
        ∀ oid, oid ∈ result ↔ IsNew sampleHistory (sampleBlob 4) (some (sampleBlob 2)) oid) ∧
    ((∀ a b, sampleIsAncestor a b ≠ none) → (∀ l : List GitOid, l.Nodup →
        (∀ oid ∈ l, IsNew sampleHistory (sampleBlob 4) (some (sampleBlob 2)) oid) →
          l.length ≤ maxCommits) →
      ∃ result, commitsToPush sampleHistory sampleIsAncestor (sampleBlob 4)
        (some (sampleBlob 2)) = .ok result) :=
  commitsToPush_exact (fun a b known h => by simp [← Option.some.inj h]) (by decide)

end Maw.Lfs
