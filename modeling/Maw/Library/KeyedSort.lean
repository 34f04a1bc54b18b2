import Mathlib.Data.Finset.Basic
import Mathlib.Data.List.Destutter
import Mathlib.Data.List.Sort

/-!
# Sorting and searching by a key

A sort by a key that need not be stable, and a search for a key in a sorted list that may find
any of the items with it. A program that calls such routines is read for every choice they
leave open.

## Main definitions

* `SortBy key` — a sort by `key`.
* `SearchBy key` — a search by `key` in sorted lists.
* `dedupBy key` — one item of each run of items with equal keys.
* `inOrderOf key` — the members of a finite set in the order of their keys.

## Main results

* `SortBy.mem_sort`, `SearchBy.search_eq_none_iff` — what the two routines keep and find.
* `exists_mem_dedupBy` — no key is lost.
* `find?_of_sorted` — the first item with a property has the least key.
* `findSome?_eq_some_iff_of_pairwise` — the first item with a value in a list in order.
* `mem_dropLast_iff`, `getLast?_eq_some_iff_of_pairwise` — the last item of a list in order.
-/

namespace KeyedSort

variable {α κ : Type*} [LinearOrder κ] {key : α → κ}

/-- A sort by a key; items with equal keys may come in any order. -/
structure SortBy (key : α → κ) where
  sort : List α → List α
  perm : ∀ l, (sort l).Perm l
  sorted : ∀ l, (sort l).Pairwise fun a b => key a ≤ key b

/-- A search for a key in a sorted list; of several items with the key it may find any. -/
structure SearchBy (key : α → κ) where
  search : List α → κ → Option α
  sound : ∀ {l k a}, search l k = some a → a ∈ l ∧ key a = k
  complete : ∀ {l k a}, l.Pairwise (fun a b => key a ≤ key b) → a ∈ l → key a = k →
    (search l k).isSome

namespace SortBy

theorem mem_sort (s : SortBy key) {l : List α} {a : α} : a ∈ s.sort l ↔ a ∈ l :=
  (s.perm l).mem_iff

/-- Insertion sort. -/
def insertion (key : α → κ) : SortBy key where
  sort l := l.insertionSort fun a b => key a ≤ key b
  perm _ := List.perm_insertionSort _ _
  sorted l := by
    have : Std.Total fun a b : α => key a ≤ key b := ⟨fun a b => le_total (key a) (key b)⟩
    have : IsTrans α fun a b => key a ≤ key b := ⟨fun _ _ _ => le_trans⟩
    exact List.pairwise_insertionSort _ l

end SortBy

namespace SearchBy

theorem search_eq_none_iff (s : SearchBy key) {l : List α} {k : κ}
    (hl : l.Pairwise fun a b => key a ≤ key b) : s.search l k = none ↔ ∀ a ∈ l, key a ≠ k := by
  constructor
  · intro h a ha hk
    have hsome := s.complete hl ha hk
    rw [h] at hsome
    exact absurd hsome Bool.false_ne_true
  · intro h
    cases hs : s.search l k with
    | none => rfl
    | some a => exact absurd (s.sound hs).2 (h a (s.sound hs).1)

/-- Search from the front. -/
def linear (key : α → κ) : SearchBy key where
  search l k := l.find? fun a => key a = k
  sound h := ⟨List.mem_of_find?_eq_some h, by simpa using List.find?_some h⟩
  complete _ ha hk := List.find?_isSome.mpr ⟨_, ha, by simpa using hk⟩

end SearchBy

/-- Of adjacent items with equal keys the first one. -/
def dedupBy (key : α → κ) (l : List α) : List α := l.destutter fun a b => key a ≠ key b

theorem dedupBy_sublist (l : List α) : (dedupBy key l).Sublist l := List.destutter_sublist _ l

private theorem exists_mem_destutter' (l : List α) :
    ∀ b a, a ∈ b :: l → ∃ c ∈ l.destutter' (fun a b => key a ≠ key b) b, key c = key a := by
  induction l with
  | nil =>
    intro b a ha
    exact ⟨b, by simp, by rw [List.mem_singleton.mp ha]⟩
  | cons d l ih =>
    intro b a ha
    by_cases hd : key b = key d
    · rw [List.destutter'_cons_neg l (by simpa using hd)]
      rcases List.mem_cons.mp ha with rfl | ha
      · exact ih a a List.mem_cons_self
      · rcases List.mem_cons.mp ha with rfl | ha
        · obtain ⟨c, hc, hk⟩ := ih b b List.mem_cons_self
          exact ⟨c, hc, hk.trans hd⟩
        · exact ih b a (List.mem_cons_of_mem b ha)
    · rw [List.destutter'_cons_pos l hd]
      rcases List.mem_cons.mp ha with rfl | ha
      · exact ⟨a, List.mem_cons_self, rfl⟩
      · obtain ⟨c, hc, hk⟩ := ih d a ha
        exact ⟨c, List.mem_cons_of_mem b hc, hk⟩

variable (key) in
/-- Every key has an item that is kept. -/
theorem exists_mem_dedupBy {l : List α} {a : α} (ha : a ∈ l) :
    ∃ c ∈ dedupBy key l, key c = key a := by
  cases l with
  | nil => exact absurd ha List.not_mem_nil
  | cons b l => exact exists_mem_destutter' l b a ha

private theorem find?_destutter' (k : κ) (l : List α) : ∀ b,
    (l.destutter' (fun a b => key a ≠ key b) b).find? (fun a => key a = k) =
      (b :: l).find? fun a => key a = k := by
  induction l with
  | nil => exact fun b => rfl
  | cons d l ih =>
    intro b
    by_cases hd : key b = key d
    · rw [List.destutter'_cons_neg l (by simpa using hd), ih, List.find?_cons, List.find?_cons,
        List.find?_cons, hd]
      split <;> rfl
    · rw [List.destutter'_cons_pos l hd, List.find?_cons, ih, List.find?_cons (a := b)]

variable (key) in
/-- The first item with a key is kept. -/
theorem find?_dedupBy (l : List α) (k : κ) :
    (dedupBy key l).find? (fun a => key a = k) = l.find? fun a => key a = k := by
  cases l with
  | nil => rfl
  | cons b l => exact find?_destutter' k l b

private theorem pairwise_lt_of_isChain_ne {l : List α} (hl : l.Pairwise fun a b => key a ≤ key b)
    (hne : l.IsChain fun a b => key a ≠ key b) : l.Pairwise fun a b => key a < key b := by
  induction l with
  | nil => exact .nil
  | cons a l ih =>
    obtain ⟨hle, hl⟩ := List.pairwise_cons.mp hl
    refine List.pairwise_cons.mpr ⟨fun b hb => ?_, ih hl hne.tail⟩
    cases l with
    | nil => exact absurd hb List.not_mem_nil
    | cons c l =>
      have hac : key a < key c :=
        lt_of_le_of_ne (hle c List.mem_cons_self) (List.isChain_cons_cons.mp hne).1
      rcases List.mem_cons.mp hb with rfl | hb
      · exact hac
      · exact hac.trans_le ((List.pairwise_cons.mp hl).1 b hb)

/-- The items of a sorted list that are kept have different keys. -/
theorem dedupBy_pairwise {l : List α} (hl : l.Pairwise fun a b => key a ≤ key b) :
    (dedupBy key l).Pairwise fun a b => key a < key b :=
  pairwise_lt_of_isChain_ne (hl.sublist (dedupBy_sublist l)) (List.isChain_destutter _ l)

private theorem find?_orderedInsert (k : κ) (a : α) (l : List α) :
    (l.orderedInsert (fun a b => key a ≤ key b) a).find? (fun a => key a = k) =
      (a :: l).find? fun a => key a = k := by
  induction l with
  | nil => rfl
  | cons b l ih =>
    rw [List.orderedInsert]
    split_ifs with hab
    · rfl
    · rw [List.find?_cons, ih, List.find?_cons, List.find?_cons, List.find?_cons]
      by_cases hb : key b = k
      · have ha : key a ≠ k := fun ha => hab (by rw [ha, hb])
        simp [ha, hb]
      · simp [hb]

variable (key) in
/-- An insertion sort is stable: the first item with a key comes first among them. -/
theorem find?_insertionSort (l : List α) (k : κ) :
    (l.insertionSort fun a b => key a ≤ key b).find? (fun a => key a = k) =
      l.find? fun a => key a = k := by
  induction l with
  | nil => rfl
  | cons a l ih =>
    rw [List.insertionSort_cons, find?_orderedInsert, List.find?_cons, ih, List.find?_cons]

/-- In a sorted list, the first item with a property has the least key of those with it. -/
theorem find?_of_sorted {l : List α} (hl : l.Pairwise fun a b => key a ≤ key b) {p : α → Bool}
    {a b : α} (h : l.find? p = some a) (hb : b ∈ l) (hp : p b = true) : key a ≤ key b := by
  obtain ⟨-, l₁, l₂, rfl, hl₁⟩ := List.find?_eq_some_iff_append.mp h
  rw [List.pairwise_append, List.pairwise_cons] at hl
  rcases List.mem_append.mp hb with hb | hb
  · have := hl₁ b hb
    rw [hp] at this
    exact absurd this Bool.false_ne_true
  · rcases List.mem_cons.mp hb with rfl | hb
    · exact le_rfl
    · exact hl.2.1.1 b hb

/-- In a list without repetitions in a strict order, what the first item with a value has as
its value. -/
theorem findSome?_eq_some_iff_of_pairwise {β : Type*} {r : α → α → Prop} {l : List α}
    (hl : l.Pairwise r) (hr : ∀ a b, r a b → ¬ r b a) {f : α → Option β} {b : β} :
    l.findSome? f = some b ↔ ∃ a ∈ l, f a = some b ∧ ∀ x ∈ l, r x a → f x = none := by
  rw [List.findSome?_eq_some_iff]
  constructor
  · rintro ⟨l₁, a, l₂, rfl, ha, hl₁⟩
    refine ⟨a, by simp, ha, fun x hx hxa => ?_⟩
    rw [List.pairwise_append, List.pairwise_cons] at hl
    rcases List.mem_append.mp hx with hx | hx
    · exact hl₁ x hx
    · rcases List.mem_cons.mp hx with rfl | hx
      · exact absurd hxa (hr x x hxa)
      · exact absurd hxa (hr a x (hl.2.1.1 x hx))
  · rintro ⟨a, ha, hfa, hnone⟩
    obtain ⟨l₁, l₂, rfl⟩ := List.append_of_mem ha
    refine ⟨l₁, a, l₂, rfl, hfa, fun x hx => hnone x (by simp [hx]) ?_⟩
    exact (List.pairwise_append.mp hl).2.2 x hx a List.mem_cons_self

/-- A sort of items with different keys is in strict order. -/
theorem pairwise_lt_insertionSort {l : List α} (h : (l.map key).Nodup) :
    (l.insertionSort fun a b => key a ≤ key b).Pairwise fun a b => key a < key b := by
  have hsorted := (SortBy.insertion key).sorted l
  have hperm := List.perm_insertionSort (fun a b => key a ≤ key b) l
  have hnodup : ((l.insertionSort fun a b => key a ≤ key b).map key).Nodup :=
    (hperm.map key).nodup_iff.mpr h
  rw [List.Nodup, List.pairwise_map] at hnodup
  exact hsorted.imp₂ (fun a b hle hne => lt_of_le_of_ne hle hne) hnodup

/-- All but the last item of a list in order have an item after them. -/
theorem mem_dropLast_iff {l : List α} {a : α} (hl : l.Pairwise fun a b => key a < key b) :
    a ∈ l.dropLast ↔ a ∈ l ∧ ∃ b ∈ l, key a < key b := by
  induction l using List.reverseRecOn with
  | nil => simp
  | append_singleton l x _ =>
    rw [List.pairwise_append] at hl
    rw [List.dropLast_concat]
    constructor
    · intro ha
      exact ⟨List.mem_append_left _ ha, x, by simp, hl.2.2 a ha x (by simp)⟩
    · rintro ⟨ha, b, hb, hlt⟩
      rcases List.mem_append.mp ha with ha | ha
      · exact ha
      · obtain rfl := List.mem_singleton.mp ha
        rcases List.mem_append.mp hb with hb | hb
        · exact absurd hlt (lt_asymm (hl.2.2 b hb a (by simp)))
        · exact absurd hlt (by rw [List.mem_singleton.mp hb]; exact lt_irrefl _)

/-- The last item of a list in order has no item after it. -/
theorem getLast?_eq_some_iff_of_pairwise {l : List α} {a : α} (hl : l.Pairwise fun a b => key a < key b) :
    l.getLast? = some a ↔ a ∈ l ∧ ∀ b ∈ l, ¬ key a < key b := by
  induction l using List.reverseRecOn with
  | nil => simp
  | append_singleton l x _ =>
    rw [List.pairwise_append] at hl
    rw [List.getLast?_concat, Option.some_inj]
    constructor
    · rintro rfl
      refine ⟨by simp, fun b hb => ?_⟩
      rcases List.mem_append.mp hb with hb | hb
      · exact lt_asymm (hl.2.2 b hb x (by simp))
      · rw [List.mem_singleton.mp hb]
        exact lt_irrefl _
    · rintro ⟨ha, hlast⟩
      rcases List.mem_append.mp ha with ha | ha
      · exact absurd (hl.2.2 a ha x (by simp)) (hlast x (by simp))
      · exact (List.mem_singleton.mp ha).symm

section InOrder

variable (key)

private theorem total_key : Std.Total fun a b : α => key a ≤ key b :=
  ⟨fun a b => le_total (key a) (key b)⟩

private theorem trans_key : IsTrans α fun a b : α => key a ≤ key b :=
  ⟨fun _ _ _ => le_trans⟩

/-- The members of a finite set in the order of their keys, which are different. -/
def inOrderOf (hkey : Function.Injective key) (s : Finset α) : List α :=
  Quotient.liftOn s.val (fun l => l.insertionSort fun a b => key a ≤ key b) fun l m h => by
    have := total_key key
    have := trans_key key
    have hperm := ((List.perm_insertionSort (fun a b => key a ≤ key b) l).trans h).trans
      (List.perm_insertionSort (fun a b => key a ≤ key b) m).symm
    exact hperm.eq_of_pairwise (fun a b _ _ hab hba => hkey (le_antisymm hab hba))
      (List.pairwise_insertionSort _ l) (List.pairwise_insertionSort _ m)

variable {key} {hkey : Function.Injective key} {s : Finset α}

theorem coe_inOrderOf : (inOrderOf key hkey s : Multiset α) = s.val := by
  rw [inOrderOf]
  induction s.val using Quotient.inductionOn with
  | h l => exact Multiset.coe_eq_coe.mpr (List.perm_insertionSort _ l)

@[simp]
theorem mem_inOrderOf {a : α} : a ∈ inOrderOf key hkey s ↔ a ∈ s := by
  rw [← Multiset.mem_coe, coe_inOrderOf, Finset.mem_val]

theorem nodup_inOrderOf : (inOrderOf key hkey s).Nodup := by
  rw [← Multiset.coe_nodup, coe_inOrderOf]
  exact s.nodup

theorem sorted_inOrderOf : (inOrderOf key hkey s).Pairwise fun a b => key a ≤ key b := by
  have := total_key key
  have := trans_key key
  rw [inOrderOf]
  induction s.val using Quotient.inductionOn with
  | h l => exact List.pairwise_insertionSort _ l

end InOrder

end KeyedSort
