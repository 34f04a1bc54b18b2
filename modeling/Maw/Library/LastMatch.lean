import Mathlib.Data.List.Basic
import Mathlib.Data.List.Perm.Basic

/-!
# The last rule that decides

Rules are tried in order and each may decide a value or say nothing. The value of the last rule
that decides stands. When the rules that decide are in a strict order of precedence, the last one
is the one above all others, so only the set of the rules matters and not the order in which they
are tried.

## Main definitions

* `LastMatch.lastMatch` — the value of the last rule that decides.
* `LastMatch.IsWinner` — a rule above all others that decide.

## Main results

* `LastMatch.lastMatch_eq_iff` — the last rule that decides is the winner.
-/

namespace LastMatch

variable {α δ : Type*} (decision : α → Option δ)

/-- The value of the last rule that decides, or else the one given. -/
def lastMatch (rules : List α) (initial : δ) : δ :=
  rules.foldl (fun current rule => (decision rule).getD current) initial

theorem lastMatch_append (front back : List α) (initial : δ) :
    lastMatch decision (front ++ back) initial =
      lastMatch decision back (lastMatch decision front initial) :=
  List.foldl_append

theorem lastMatch_flatMap {β : Type*} (groups : List β) (rules : β → List α) (initial : δ) :
    lastMatch decision (groups.flatMap rules) initial =
      groups.foldl (fun current group => lastMatch decision (rules group) current) initial := by
  induction groups generalizing initial with
  | nil => rfl
  | cons group groups ih => rw [List.flatMap_cons, lastMatch_append, ih, List.foldl_cons]

variable {decision}

/-- Rules that say nothing leave the value as it is. -/
theorem lastMatch_of_none {rules : List α} (h : ∀ rule ∈ rules, decision rule = none)
    (initial : δ) : lastMatch decision rules initial = initial := by
  induction rules with
  | nil => rfl
  | cons rule rules ih =>
    have hrest := ih fun r hr => h r (List.mem_cons_of_mem _ hr)
    rw [lastMatch, List.foldl_cons, h rule List.mem_cons_self, Option.getD_none]
    exact hrest

/-- The value of the rule behind which all others say nothing. -/
theorem lastMatch_of_some {front back : List α} {rule : α} {d : δ} (hrule : decision rule = some d)
    (hback : ∀ r ∈ back, decision r = none) (initial : δ) :
    lastMatch decision (front ++ rule :: back) initial = d := by
  rw [lastMatch_append, lastMatch, List.foldl_cons, hrule, Option.getD_some]
  exact lastMatch_of_none hback d

/-- Either no rule decides or there is a last one that does. -/
theorem forall_none_or_exists (decision : α → Option δ) (rules : List α) :
    (∀ rule ∈ rules, decision rule = none) ∨
      ∃ front rule back d, rules = front ++ rule :: back ∧ decision rule = some d ∧
        ∀ r ∈ back, decision r = none := by
  induction rules with
  | nil => exact .inl (by simp)
  | cons rule rules ih =>
    rcases ih with hnone | ⟨front, last, back, d, rfl, hlast, hback⟩
    · rcases hrule : decision rule with _ | d
      · refine .inl fun r hr => ?_
        rcases List.mem_cons.mp hr with rfl | hr
        · exact hrule
        · exact hnone r hr
      · exact .inr ⟨[], rule, rules, d, rfl, hrule, hnone⟩
    · exact .inr ⟨rule :: front, last, back, d, rfl, hlast, hback⟩

/-- A rule that decides and has precedence over all others that do. -/
def IsWinner (decision : α → Option δ) (below : α → α → Prop) (rules : List α) (rule : α)
    (d : δ) : Prop :=
  rule ∈ rules ∧ decision rule = some d ∧
    ∀ r ∈ rules, decision r ≠ none → r = rule ∨ below r rule

/-- The rules that decide are tried in the order of their precedence. -/
def InOrder (decision : α → Option δ) (below : α → α → Prop) (rules : List α) : Prop :=
  rules.Pairwise fun a b => decision a ≠ none → decision b ≠ none → below a b

section Precedence

variable {below : α → α → Prop} {rules rules' : List α} {initial d : δ}

/-- The last rule that decides has precedence over the others. -/
theorem isWinner_of_append {front back : List α} {rule : α}
    (horder : InOrder decision below (front ++ rule :: back)) (hrule : decision rule = some d)
    (hback : ∀ r ∈ back, decision r = none) :
    IsWinner decision below (front ++ rule :: back) rule d := by
  refine ⟨by simp, hrule, fun r hr hdecides => ?_⟩
  have hne : decision rule ≠ none := by simp [hrule]
  rcases List.mem_append.mp hr with hfront | hr
  · have hpair := (List.pairwise_append.mp horder).2.2 r hfront rule List.mem_cons_self
    exact .inr (hpair hdecides hne)
  · rcases List.mem_cons.mp hr with rfl | hr
    · exact .inl rfl
    · exact absurd (hback r hr) hdecides

/-- The value of the last rule that decides is that of the winner, if there is one. -/
theorem lastMatch_eq_iff (hasymm : ∀ a b, below a b → ¬ below b a)
    (horder : InOrder decision below rules) :
    lastMatch decision rules initial = d ↔ (∃ rule, IsWinner decision below rules rule d) ∨
      (initial = d ∧ ∀ rule ∈ rules, decision rule = none) := by
  rcases forall_none_or_exists decision rules with hnone | ⟨front, last, back, e, rfl, hlast, hback⟩
  · rw [lastMatch_of_none hnone]
    constructor
    · exact fun h => .inr ⟨h, hnone⟩
    · rintro (⟨rule, hmem, hrule, -⟩ | ⟨h, -⟩)
      · rw [hnone rule hmem] at hrule
        cases hrule
      · exact h
  · rw [lastMatch_of_some hlast hback]
    have hwinner := isWinner_of_append horder hlast hback
    constructor
    · rintro rfl
      exact .inl ⟨last, hwinner⟩
    · rintro (⟨rule, hmem, hrule, habove⟩ | ⟨-, hnone⟩)
      · -- Two winners would have precedence over each other.
        have hne : decision last ≠ none := by simp [hlast]
        have hne' : decision rule ≠ none := by simp [hrule]
        have heq : last = rule := by
          rcases habove last hwinner.1 hne with h | hbelow
          · exact h
          · rcases hwinner.2.2 rule hmem hne' with h | hbelow'
            · exact h.symm
            · exact absurd hbelow' (hasymm _ _ hbelow)
        rw [heq, hrule] at hlast
        exact (Option.some.inj hlast).symm
      · rw [hnone last hwinner.1] at hlast
        cases hlast

end Precedence

end LastMatch
