import Mathlib.Algebra.GroupWithZero.Nat
import Mathlib.Data.List.Basic

/-!
# Lines and pairs

Texts as lines with a separator behind each of them, and lines that are split at the first
occurrence of a character.

## Main definitions

* `Lines.unlines` — lines, each with a separator behind it.
* `Lines.splitOnce` — what stands in front of and behind the first occurrence of a character.
* `Lines.cutAt` — the same for lines up to a marker, which may be missing.

## Main results

* `Lines.splitOn_unlines`, `Lines.exists_unlines` — lines and their text.
* `Lines.splitOnce_eq_some_iff` — the parts of a line.
-/

namespace Lines

section Unlines

variable {α : Type*} {sep : α}

/-- Lines, each with a separator behind it. -/
def unlines (sep : α) (lines : List (List α)) : List α := lines.flatMap (· ++ [sep])

@[simp]
theorem unlines_nil : unlines sep [] = [] := rfl

@[simp]
theorem unlines_cons (line : List α) (lines : List (List α)) :
    unlines sep (line :: lines) = line ++ sep :: unlines sep lines := by
  simp [unlines]

theorem mem_unlines {lines : List (List α)} {a : α} :
    a ∈ unlines sep lines ↔ ∃ line ∈ lines, a ∈ line ∨ a = sep := by
  simp [unlines]

theorem getLast?_unlines {lines : List (List α)} (h : lines ≠ []) :
    (unlines sep lines).getLast? = some sep := by
  rw [← List.dropLast_append_getLast h, unlines, List.flatMap_append]
  simp

theorem length_unlines (lines : List (List α)) :
    (unlines sep lines).length = (lines.map fun line => line.length + 1).sum := by
  induction lines with
  | nil => rfl
  | cons line lines ih =>
    rw [unlines_cons, List.length_append, List.length_cons, ih, List.map_cons, List.sum_cons]
    omega

theorem unlines_append (lines lines' : List (List α)) :
    unlines sep (lines ++ lines') = unlines sep lines ++ unlines sep lines' :=
  List.flatMap_append

/-- Lines with a separator between them, and what stands behind the last separator. -/
theorem intercalate_concat (lines : List (List α)) (last : List α) :
    [sep].intercalate (lines ++ [last]) = unlines sep lines ++ last := by
  induction lines with
  | nil => simp
  | cons line lines ih =>
    rw [List.cons_append, List.intercalate_cons_of_ne_nil (by simp), ih, unlines_cons]
    simp

theorem intercalate_append_sep {lines : List (List α)} (h : lines ≠ []) :
    [sep].intercalate lines ++ [sep] = unlines sep lines := by
  rw [← List.dropLast_append_getLast h, intercalate_concat, unlines_append]
  simp

end Unlines

variable {α : Type*} [DecidableEq α] {sep : α}

/-- The lines of a text behind whose last line a separator stands as well. -/
theorem splitOn_unlines {lines : List (List α)} (h : ∀ line ∈ lines, sep ∉ line) :
    (unlines sep lines).splitOn sep = lines ++ [[]] := by
  induction lines with
  | nil => rfl
  | cons line lines ih =>
    have hline : ∀ a ∈ line, (a == sep) = false := by
      intro a ha
      rw [beq_eq_false_iff_ne]
      exact ne_of_mem_of_not_mem ha (h line List.mem_cons_self)
    rw [unlines_cons, List.splitOn_eq_splitOnP,
      List.splitOnP_append_cons_of_forall_mem hline sep (beq_self_eq_true sep),
      ← List.splitOn_eq_splitOnP, ih fun l hl => h l (List.mem_cons_of_mem _ hl),
      List.cons_append]

/-- A text that ends in a separator consists of lines. -/
theorem exists_unlines {text : List α} (h : text.getLast? = some sep) :
    ∃ lines, text = unlines sep lines ∧ ∀ line ∈ lines, sep ∉ line := by
  induction text with
  | nil => cases h
  | cons a text ih =>
    rcases text with _ | ⟨b, text⟩
    · obtain rfl : a = sep := Option.some.inj h
      exact ⟨[[]], rfl, by simp⟩
    · rw [List.getLast?_cons_cons] at h
      obtain ⟨lines, htext, hlines⟩ := ih h
      rcases lines with _ | ⟨line, lines⟩
      · cases htext
      by_cases ha : a = sep
      · refine ⟨[] :: line :: lines, ?_, ?_⟩
        · rw [htext, ha, unlines_cons, unlines_cons, unlines_cons]
          rfl
        · exact List.forall_mem_cons.mpr ⟨List.not_mem_nil, hlines⟩
      · obtain ⟨hline, hrest⟩ := List.forall_mem_cons.mp hlines
        refine ⟨(a :: line) :: lines, by rw [htext, unlines_cons, unlines_cons]; rfl, ?_⟩
        exact List.forall_mem_cons.mpr ⟨by simp [hline, Ne.symm ha], hrest⟩

/-- What stands in front of and behind the first occurrence of a character. -/
def splitOnce (c : α) : List α → Option (List α × List α)
  | [] => none
  | d :: rest => if d = c then some ([], rest) else (splitOnce c rest).map fun r => (d :: r.1, r.2)

theorem splitOnce_eq_some_iff {c : α} {line front back : List α} :
    splitOnce c line = some (front, back) ↔ line = front ++ c :: back ∧ c ∉ front := by
  induction line generalizing front with
  | nil => simp [splitOnce]
  | cons d line ih =>
    rw [splitOnce]
    split_ifs with h
    · subst h
      rcases front with _ | ⟨e, front⟩
      · simp [eq_comm]
      · simp only [Option.some.injEq, Prod.mk.injEq, List.cons_append, List.cons.injEq,
          List.mem_cons, not_or]
        constructor
        · exact fun heq => absurd heq.1 (List.cons_ne_nil _ _).symm
        · exact fun heq => absurd heq.1.1 heq.2.1
    · rw [Option.map_eq_some_iff]
      constructor
      · rintro ⟨⟨front', back'⟩, hrest, heq⟩
        obtain ⟨rfl, rfl⟩ := Prod.mk.inj heq
        obtain ⟨rfl, hnot⟩ := ih.mp hrest
        exact ⟨rfl, by simp [Ne.symm h, hnot]⟩
      · rintro ⟨heq, hnot⟩
        rcases front with _ | ⟨e, front⟩
        · exact absurd (List.cons.inj heq).1 h
        · obtain ⟨rfl, rfl⟩ := List.cons.inj heq
          exact ⟨(front, back), ih.mpr ⟨rfl, fun hc => hnot (List.mem_cons_of_mem _ hc)⟩, rfl⟩

/-- The items in front of the first marker, all if there is none, and those behind it. -/
def cutAt (marker : α) (items : List α) : List α × List α :=
  (items.takeWhile (· ≠ marker), (items.dropWhile (· ≠ marker)).tail)

theorem cutAt_append {marker : α} {front : List α} (h : marker ∉ front) (items : List α) :
    cutAt marker (front ++ items) =
      (front ++ (cutAt marker items).1, (cutAt marker items).2) := by
  have hfront : ∀ a ∈ front, decide (a ≠ marker) = true := by
    intro a ha
    rw [decide_eq_true_iff]
    exact ne_of_mem_of_not_mem ha h
  rw [cutAt, cutAt, List.takeWhile_append_of_pos hfront, List.dropWhile_append_of_pos hfront]

theorem cutAt_cons_self (marker : α) (items : List α) :
    cutAt marker (marker :: items) = ([], items) := by
  simp [cutAt]

theorem cutAt_cons_of_ne {a marker : α} (h : a ≠ marker) (items : List α) :
    cutAt marker (a :: items) = (a :: (cutAt marker items).1, (cutAt marker items).2) := by
  simp [cutAt, h]

theorem fst_cutAt_subset (marker : α) (items : List α) : (cutAt marker items).1 ⊆ items :=
  (List.takeWhile_prefix _).subset

theorem snd_cutAt_subset (marker : α) (items : List α) : (cutAt marker items).2 ⊆ items :=
  fun _ h => (List.dropWhile_suffix _).subset (List.mem_of_mem_tail h)

theorem length_cutAt_le (marker : α) (items : List α) :
    (cutAt marker items).2.length ≤ items.length := by
  rw [cutAt, List.length_tail]
  exact Nat.le_trans (Nat.sub_le _ 1) (List.dropWhile_suffix _).length_le

end Lines
