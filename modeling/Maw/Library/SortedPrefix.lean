import Mathlib.Data.List.Sort
import Mathlib.Data.List.Lex
import Maw.Library.FiniteMap

/-!
# Prefixes in sorted collections

In the lexicographic order the lists with a given prefix stand together, right after the prefix
itself. So the first list of a sorted collection that is not below `p` has the prefix `p` as soon
as any list of the collection has it.

## Main definitions

* `FiniteMap.sortedEntries` — the entries of a finite map in the order of their keys.

## Main results

* `SortedPrefix.find?_any_isPrefixOf` — the test for a prefix on the first member.
-/

namespace SortedPrefix

variable {α : Type*} [LinearOrder α]

theorem cons_le_cons_iff {a b : α} {l m : List α} :
    a :: l ≤ b :: m ↔ a < b ∨ a = b ∧ l ≤ m := by
  rw [← not_lt, ← not_lt, List.cons_lt_cons_iff, not_or, not_and, not_lt, le_iff_lt_or_eq]
  constructor
  · rintro ⟨h | rfl, himp⟩
    · exact .inl h
    · exact .inr ⟨rfl, himp rfl⟩
  · rintro (h | ⟨rfl, h⟩)
    · exact ⟨.inl h, fun he => absurd he h.ne'⟩
    · exact ⟨.inr rfl, fun _ => h⟩

theorem le_of_begins {p s : List α} (h : p <+: s) : p ≤ s := by
  obtain ⟨t, rfl⟩ := h
  induction p with
  | nil => exact not_lt.mp (List.not_lt_nil _)
  | cons a p ih => exact cons_le_cons_iff.mpr (.inr ⟨rfl, ih⟩)

/-- What lies between a list and one with that prefix has the prefix too. -/
theorem prefix_of_between {p t s : List α} (hpt : p ≤ t) (hts : t ≤ s) (hps : p <+: s) :
    p <+: t := by
  induction p generalizing t s with
  | nil => exact List.nil_prefix
  | cons a p ih =>
    obtain ⟨r, rfl⟩ := hps
    cases t with
    | nil => exact absurd (List.nil_lt_cons a p) hpt.not_gt
    | cons b t =>
      rw [List.cons_append] at hts
      rcases cons_le_cons_iff.mp hpt with hab | ⟨rfl, hpt'⟩
      · rcases cons_le_cons_iff.mp hts with hba | ⟨rfl, -⟩
        · exact absurd hba hab.asymm
        · exact absurd hab (lt_irrefl _)
      · rcases cons_le_cons_iff.mp hts with hba | ⟨-, hts⟩
        · exact absurd hba (lt_irrefl _)
        · exact List.cons_prefix_cons.mpr ⟨rfl, ih hpt' hts (List.prefix_append p r)⟩

/-- In a sorted list, the first member from `p` on has the prefix `p` exactly when some member
has it. -/
theorem find?_any_isPrefixOf {l : List (List α)} (hl : l.Pairwise (· ≤ ·)) (p : List α) :
    (l.find? fun s => p ≤ s).any p.isPrefixOf = true ↔ ∃ s ∈ l, p <+: s := by
  induction l with
  | nil => simp
  | cons t l ih =>
    rw [List.pairwise_cons] at hl
    by_cases hpt : p ≤ t
    · rw [List.find?_cons_of_pos (by simpa using hpt), Option.any_some, List.isPrefixOf_iff_prefix]
      constructor
      · exact fun h => ⟨t, List.mem_cons_self, h⟩
      · rintro ⟨s, hs, hps⟩
        rcases List.mem_cons.mp hs with rfl | hs
        · exact hps
        · exact prefix_of_between hpt (hl.1 s hs) hps
    · rw [List.find?_cons_of_neg (by simpa using hpt), ih hl.2]
      constructor
      · exact fun ⟨s, hs, hps⟩ => ⟨s, List.mem_cons_of_mem t hs, hps⟩
      · rintro ⟨s, hs, hps⟩
        rcases List.mem_cons.mp hs with rfl | hs
        · exact absurd (le_of_begins hps) hpt
        · exact ⟨s, hs, hps⟩

end SortedPrefix

namespace FiniteMap

variable {α ν : Type*} [LinearOrder α]

/-- The keys of a finite map in order. -/
def sortedKeys (s : FiniteMap α ν) : List α :=
  Quotient.liftOn s.keys.val (fun l => l.insertionSort (· ≤ ·)) fun l m h =>
    (((List.perm_insertionSort _ l).trans h).trans (List.perm_insertionSort _ m).symm).eq_of_pairwise
      (fun _ _ _ _ => le_antisymm) (List.pairwise_insertionSort _ l)
      (List.pairwise_insertionSort _ m)

theorem coe_sortedKeys (s : FiniteMap α ν) : (s.sortedKeys : Multiset α) = s.keys.val := by
  rw [sortedKeys]
  induction s.keys.val using Quotient.inductionOn with
  | h l => exact Multiset.coe_eq_coe.mpr (List.perm_insertionSort _ l)

@[simp]
theorem mem_sortedKeys {s : FiniteMap α ν} {a : α} : a ∈ s.sortedKeys ↔ a ∈ s := by
  rw [← Multiset.mem_coe, coe_sortedKeys, Finset.mem_val, Finmap.mem_keys]

theorem sortedKeys_nodup (s : FiniteMap α ν) : s.sortedKeys.Nodup := by
  rw [← Multiset.coe_nodup, coe_sortedKeys]
  exact s.keys.nodup

variable [DecidableEq α]

/-- The entries of a finite map in the order of their keys. -/
def sortedEntries (s : FiniteMap α ν) : List (α × ν) :=
  s.sortedKeys.filterMap fun a => (s.lookup a).map fun v => (a, v)

theorem mem_sortedEntries {s : FiniteMap α ν} {a : α} {v : ν} :
    (a, v) ∈ s.sortedEntries ↔ s.lookup a = some v := by
  simp only [sortedEntries, List.mem_filterMap, mem_sortedKeys, Option.map_eq_some_iff,
    Prod.mk.injEq]
  constructor
  · rintro ⟨_, -, _, h, rfl, rfl⟩
    exact h
  · exact fun h => ⟨a, mem_of_lookup h, v, h, rfl, rfl⟩

/-- The entries of a finite map are listed once. -/
theorem nodup_sortedEntries (s : FiniteMap α ν) : (s.sortedEntries.map Prod.fst).Nodup := by
  have hsub : (s.sortedEntries.map Prod.fst).Sublist s.sortedKeys := by
    rw [sortedEntries]
    induction s.sortedKeys with
    | nil => simp
    | cons a l ih =>
      cases h : s.lookup a with
      | none =>
        rw [List.filterMap_cons_none (by simp [h])]
        exact ih.cons a
      | some v =>
        rw [List.filterMap_cons_some (by simp [h]; rfl), List.map_cons]
        exact ih.cons_cons a
  exact hsub.nodup s.sortedKeys_nodup

theorem mem_keys_sortedEntries {s : FiniteMap α ν} {a : α} :
    a ∈ s.sortedEntries.map Prod.fst ↔ a ∈ s := by
  rw [List.mem_map, Finmap.mem_iff]
  constructor
  · rintro ⟨⟨_, v⟩, h, rfl⟩
    exact ⟨v, mem_sortedEntries.mp h⟩
  · rintro ⟨v, h⟩
    exact ⟨(a, v), mem_sortedEntries.mpr h, rfl⟩

end FiniteMap
