import Mathlib.Data.List.Lex
import Mathlib.Data.String.Basic

/-!
# Records of numbers in fixed width

Numbers written in decimal with a fixed number of digits, one after another with fixed texts
between them. The written forms are ordered as the lists of the numbers are.

## Main definitions

* `decimal` — the last digits of a number.
* `render` — numbers with a width and a text after each.
* `Fits` — the numbers have no more digits than that.

## Main results

* `render_lt_iff` — the order of the written forms.
-/

namespace FixedWidth

/-- The digit of a number below ten. -/
def digit (n : ℕ) : Char := Char.ofNat (48 + n)

/-- The last digits of a number, the highest of them first. -/
def decimal : (width : ℕ) → ℕ → List Char
  | 0, _ => []
  | width + 1, n => decimal width (n / 10) ++ [digit (n % 10)]

/-- Numbers in fixed width, each with a text after it. -/
def render : List (ℕ × List Char) → List ℕ → List Char
  | (width, text) :: fields, n :: ns => decimal width n ++ (text ++ render fields ns)
  | _, _ => []

/-- The numbers have no more digits than are written. -/
def Fits (fields : List (ℕ × List Char)) (ns : List ℕ) : Prop :=
  List.Forall₂ (fun field n => n < 10 ^ field.1) fields ns

theorem digit_lt : ∀ n < 10, ∀ m < n, digit m < digit n := by decide

@[simp]
theorem length_decimal (width n : ℕ) : (decimal width n).length = width := by
  induction width generalizing n with
  | zero => rfl
  | succ width ih => rw [decimal, List.length_append, ih, List.length_singleton]

section Lex

variable {α : Type*} [LinearOrder α] {a b c d : List α}

/-- Lists are compared by their beginnings first when these are of one length. -/
theorem append_lt_append_iff (h : a.length = b.length) :
    a ++ c < b ++ d ↔ a < b ∨ a = b ∧ c < d := by
  induction a generalizing b with
  | nil =>
    obtain rfl := List.length_eq_zero_iff.mp h.symm
    simp
  | cons x a ih =>
    obtain ⟨y, b, rfl⟩ := List.exists_cons_of_length_eq_add_one h.symm
    rw [List.cons_append, List.cons_append, List.cons_lt_cons_iff, List.cons_lt_cons_iff,
      ih (Nat.succ.inj h)]
    constructor
    · rintro (hlt | ⟨rfl, hlt | ⟨rfl, hlt⟩⟩)
      · exact .inl (.inl hlt)
      · exact .inl (.inr ⟨rfl, hlt⟩)
      · exact .inr ⟨rfl, hlt⟩
    · rintro ((hlt | ⟨rfl, hlt⟩) | ⟨heq, hlt⟩)
      · exact .inl hlt
      · exact .inr ⟨rfl, .inl hlt⟩
      · obtain ⟨rfl, rfl⟩ := List.cons.inj heq
        exact .inr ⟨rfl, .inr ⟨rfl, hlt⟩⟩

end Lex

section Decimal

variable {width n m : ℕ}

/-- A greater number comes later. -/
theorem decimal_lt (hm : m < 10 ^ width) (h : n < m) : decimal width n < decimal width m := by
  induction width generalizing n m with
  | zero => omega
  | succ width ih =>
    have hdiv : m / 10 < 10 ^ width := by omega
    rw [decimal, decimal, append_lt_append_iff (by simp)]
    rcases Nat.lt_or_ge (n / 10) (m / 10) with hlt | hge
    · exact .inl (ih hdiv hlt)
    · have heq : n / 10 = m / 10 := by omega
      have hlast : digit (n % 10) < digit (m % 10) := digit_lt _ (by omega) _ (by omega)
      exact .inr ⟨by rw [heq], List.cons_lt_cons_iff.mpr (.inl hlast)⟩

theorem decimal_lt_iff (hn : n < 10 ^ width) (hm : m < 10 ^ width) :
    decimal width n < decimal width m ↔ n < m := by
  refine ⟨fun h => ?_, decimal_lt hm⟩
  rcases Nat.lt_trichotomy n m with hlt | rfl | hgt
  · exact hlt
  · exact absurd h (lt_irrefl _)
  · exact absurd h (lt_asymm (decimal_lt hn hgt))

theorem decimal_inj (hn : n < 10 ^ width) (hm : m < 10 ^ width) :
    decimal width n = decimal width m ↔ n = m := by
  refine ⟨fun h => ?_, fun h => by rw [h]⟩
  rcases Nat.lt_trichotomy n m with hlt | heq | hgt
  · exact absurd h (decimal_lt hm hlt).ne
  · exact heq
  · exact absurd h (decimal_lt hn hgt).ne'

end Decimal

section Render

variable {fields : List (ℕ × List Char)} {ns ms : List ℕ}

/-- The written forms are ordered as the numbers, the first of them first. -/
theorem render_lt_iff (hns : Fits fields ns) (hms : Fits fields ms) :
    render fields ns < render fields ms ↔ ns < ms := by
  induction hns generalizing ms with
  | nil =>
    cases hms
    simp [render]
  | cons hn _ ih =>
    obtain _ | ⟨hm, hms⟩ := hms
    rw [render, render, append_lt_append_iff (by simp), append_lt_append_iff rfl,
      List.cons_lt_cons_iff, decimal_lt_iff hn hm, decimal_inj hn hm, ih hms]
    simp

/-- A change of the texts only. -/
theorem map_render {f : Char → Char} (hdigit : ∀ n < 10, f (digit n) = digit n) :
    (render fields ns).map f = render (fields.map fun field => (field.1, field.2.map f)) ns := by
  have hdecimal (width n : ℕ) : (decimal width n).map f = decimal width n := by
    induction width generalizing n with
    | zero => rfl
    | succ width ih =>
      rw [decimal, List.map_append, ih, List.map_singleton, hdigit _ (Nat.mod_lt n (by decide))]
  induction fields generalizing ns with
  | nil => rfl
  | cons field fields ih =>
    cases ns with
    | nil => rfl
    | cons n ns => rw [render, List.map_append, List.map_append, hdecimal, ih]; rfl

end Render

end FixedWidth
