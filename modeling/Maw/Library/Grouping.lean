import Mathlib.Data.List.Count
import Maw.Library.SortedPrefix

/-!
# Items by their keys

Items are put into lists by their keys. The list of a key has its items in the order in which they
come, and all lists together have all items.

## Main definitions

* `FiniteMap.extend`, `FiniteMap.group` — add items to the list of a key, and all items by their
  keys.
* `FiniteMap.valuesAt` — the items of a key in a list of lists.

## Main results

* `FiniteMap.valuesAt_sortedEntries` — the items of a key in a map.
* `FiniteMap.flatten_group_perm` — the lists together have the items.
-/

namespace FiniteMap

section Values

variable {κ ν : Type*} [DecidableEq κ]

/-- The items of a key in a list of lists. -/
def valuesAt (l : List (κ × List ν)) (a : κ) : List ν :=
  (l.filter fun e => e.1 = a).flatMap Prod.snd

/-- All items with their keys. -/
def flatten (l : List (κ × List ν)) : List (κ × ν) := l.flatMap fun e => e.2.map fun v => (e.1, v)

theorem filter_key_of_nodup {l : List (κ × ν)} (h : (l.map Prod.fst).Nodup) {a : κ} {v : ν}
    (hmem : (a, v) ∈ l) : l.filter (fun e => e.1 = a) = [(a, v)] := by
  induction l with
  | nil => exact absurd hmem List.not_mem_nil
  | cons e l ih =>
    rw [List.map_cons, List.nodup_cons] at h
    rcases List.mem_cons.mp hmem with rfl | hmem
    · have hnil : l.filter (fun e => e.1 = a) = [] := by
        rw [List.filter_eq_nil_iff]
        rintro e he heq
        rw [decide_eq_true_iff] at heq
        exact h.1 (List.mem_map.mpr ⟨e, he, heq⟩)
      rw [List.filter_cons_of_pos (by simp), hnil]
    · have hne : e.1 ≠ a := fun heq => h.1 (heq ▸ List.mem_map_of_mem hmem)
      rw [List.filter_cons_of_neg (by simpa using hne), ih h.2 hmem]

omit [DecidableEq κ] in
theorem filter_keyed {α : Type*} (a : κ) (f : α → ν) (l : List α) (q : κ → Prop)
    [DecidablePred q] :
    (l.map fun x => (a, f x)).filter (fun e => q e.1) =
      if q a then l.map fun x => (a, f x) else [] := by
  rw [List.filter_map]
  split_ifs with h <;> simp [Function.comp_def, h]

theorem filter_flatten (l : List (κ × List ν)) (a : κ) :
    (flatten l).filter (fun e => e.1 = a) = (valuesAt l a).map fun v => (a, v) := by
  induction l with
  | nil => rfl
  | cons e l ih =>
    rw [valuesAt] at ih ⊢
    rw [flatten, List.flatMap_cons, List.filter_append, ← flatten, ih, List.filter_cons,
      filter_keyed e.1 (fun v => v) e.2 (· = a)]
    by_cases h : e.1 = a
    · subst h
      rw [if_pos rfl, if_pos (by simp), List.flatMap_cons, List.map_append]
    · rw [if_neg h, if_neg (by simpa using h), List.nil_append]

omit [DecidableEq κ] in
/-- The items of the lists whose keys are chosen. -/
theorem flatMap_snd_filter (l : List (κ × List ν)) (q : κ → Prop) [DecidablePred q] :
    (l.filter fun s => q s.1).flatMap Prod.snd =
      ((flatten l).filter fun s => q s.1).map Prod.snd := by
  induction l with
  | nil => rfl
  | cons e l ih =>
    rw [flatten, List.flatMap_cons, List.filter_append, List.map_append, ← flatten, ← ih,
      List.filter_cons, filter_keyed e.1 (fun v => v) e.2 q]
    by_cases h : q e.1
    · have hsnd : (e.2.map fun v => (e.1, v)).map Prod.snd = e.2 := by
        rw [List.map_map, Function.comp_def, List.map_id']
      rw [if_pos h, if_pos (by simpa using h), List.flatMap_cons, hsnd]
    · rw [if_neg h, if_neg (by simpa using h), List.map_nil, List.nil_append]

/-- Lists with the same items for each key have the same items. -/
theorem perm_of_filter [DecidableEq ν] {l l' : List (κ × ν)}
    (h : ∀ a, (l.filter fun e => e.1 = a).Perm (l'.filter fun e => e.1 = a)) : l.Perm l' := by
  rw [List.perm_iff_count]
  intro x
  have hcount (l : List (κ × ν)) : l.count x = (l.filter fun e => e.1 = x.1).count x :=
    (List.count_filter (by simp)).symm
  rw [hcount l, hcount l', (h x.1).count_eq]

end Values

section Maps

variable {κ ν : Type*} [DecidableEq κ]

/-- Add items to the list of a key. -/
def extend (s : FiniteMap κ (List ν)) (a : κ) (vs : List ν) : FiniteMap κ (List ν) :=
  s.insert a ((s.lookup a).getD [] ++ vs)

theorem getD_lookup_extend (s : FiniteMap κ (List ν)) (a b : κ) (vs : List ν) :
    ((s.extend a vs).lookup b).getD [] =
      (s.lookup b).getD [] ++ if b = a then vs else [] := by
  rw [extend, lookup_insert]
  split_ifs with h
  · rw [h, Option.getD_some]
  · rw [List.append_nil]

/-- Items by their keys. -/
def group (items : List (κ × ν)) : FiniteMap κ (List ν) :=
  items.foldl (fun s i => s.extend i.1 [i.2]) ∅

/-- The list of a key after more items are added. -/
theorem getD_lookup_foldl_extend (l : List (κ × List ν)) (s : FiniteMap κ (List ν)) (a : κ) :
    ((l.foldl (fun s i => s.extend i.1 i.2) s).lookup a).getD [] =
      (s.lookup a).getD [] ++ valuesAt l a := by
  induction l generalizing s with
  | nil => simp [valuesAt]
  | cons e l ih =>
    rw [List.foldl_cons, ih, getD_lookup_extend, List.append_assoc, valuesAt, valuesAt,
      List.filter_cons]
    by_cases h : e.1 = a
    · rw [if_pos h.symm, if_pos (by simpa using h), List.flatMap_cons]
    · rw [if_neg (Ne.symm h), if_neg (by simpa using h), List.nil_append]

theorem group_eq_foldl (items : List (κ × ν)) : group items =
    (items.map fun i => (i.1, [i.2])).foldl (fun s i => s.extend i.1 i.2) ∅ := by
  rw [group, List.foldl_map]

theorem getD_lookup_group (items : List (κ × ν)) (a : κ) :
    ((group items).lookup a).getD [] = (items.filter fun i => i.1 = a).map Prod.snd := by
  rw [group_eq_foldl, getD_lookup_foldl_extend, valuesAt, List.filter_map, List.flatMap_map,
    List.map_eq_flatMap, Finmap.lookup_empty]
  rfl

omit [DecidableEq κ] in
/-- A key has a list if it has one already or is put in place. -/
theorem mem_foldl {f : FiniteMap κ (List ν) → κ × List ν → FiniteMap κ (List ν)}
    (hf : ∀ s i b, b ∈ f s i ↔ b = i.1 ∨ b ∈ s) (l : List (κ × List ν)) (s : FiniteMap κ (List ν))
    (a : κ) : a ∈ l.foldl f s ↔ a ∈ s ∨ a ∈ l.map Prod.fst := by
  induction l generalizing s with
  | nil => simp
  | cons e l ih =>
    rw [List.foldl_cons, ih, hf, List.map_cons, List.mem_cons]
    tauto

theorem mem_foldl_extend (l : List (κ × List ν)) (s : FiniteMap κ (List ν)) (a : κ) :
    a ∈ l.foldl (fun s i => s.extend i.1 i.2) s ↔ a ∈ s ∨ a ∈ l.map Prod.fst :=
  mem_foldl (fun _ _ _ => Finmap.mem_insert) l s a

/-- The list of a key after whole lists are put in place. -/
theorem getD_lookup_foldl_insert {l : List (κ × List ν)} (hl : (l.map Prod.fst).Nodup)
    {s : FiniteMap κ (List ν)} (hs : ∀ b ∈ l.map Prod.fst, s.lookup b = none) (a : κ) :
    ((l.foldl (fun s i => s.insert i.1 i.2) s).lookup a).getD [] =
      (s.lookup a).getD [] ++ valuesAt l a := by
  induction l generalizing s with
  | nil => simp [valuesAt]
  | cons e l ih =>
    rw [List.map_cons, List.nodup_cons] at hl
    have hkeys : ∀ b ∈ l.map Prod.fst, (s.insert e.1 e.2).lookup b = none := by
      intro b hb
      have hne : b ≠ e.1 := fun heq => hl.1 (heq ▸ hb)
      rw [lookup_insert, if_neg hne]
      exact hs b (List.mem_cons_of_mem _ hb)
    rw [List.foldl_cons, ih hl.2 hkeys, lookup_insert, valuesAt, valuesAt, List.filter_cons]
    by_cases h : a = e.1
    · subst h
      rw [if_pos rfl, if_pos (by simp), hs e.1 List.mem_cons_self, List.flatMap_cons]
      rfl
    · rw [if_neg h, if_neg (by simpa using Ne.symm h)]

end Maps

section Sorted

variable {κ ν : Type*} [LinearOrder κ] [DecidableEq κ]

theorem valuesAt_sortedEntries (s : FiniteMap κ (List ν)) (a : κ) :
    valuesAt s.sortedEntries a = (s.lookup a).getD [] := by
  rw [valuesAt]
  rcases h : s.lookup a with _ | vs
  · rw [List.filter_eq_nil_iff.mpr]
    · rfl
    · rintro ⟨b, vs⟩ hmem heq
      rw [decide_eq_true_iff] at heq
      subst heq
      rw [mem_sortedEntries.mp hmem] at h
      cases h
  · rw [filter_key_of_nodup (nodup_sortedEntries s) (mem_sortedEntries.mpr h)]
    simp

theorem mem_group {items : List (κ × ν)} {a : κ} {vs : List ν}
    (h : (a, vs) ∈ (group items).sortedEntries) :
    vs = (items.filter fun i => i.1 = a).map Prod.snd := by
  rw [← getD_lookup_group, mem_sortedEntries.mp h, Option.getD_some]

/-- The lists together have the items. -/
theorem flatten_group_perm [DecidableEq ν] (items : List (κ × ν)) :
    (flatten (group items).sortedEntries).Perm items := by
  refine perm_of_filter fun a => ?_
  rw [filter_flatten, valuesAt_sortedEntries, getD_lookup_group, List.map_map,
    List.map_congr_left (g := id), List.map_id]
  intro i hi
  rw [List.mem_filter, decide_eq_true_iff] at hi
  rw [Function.comp, id, ← hi.2]

/-- A key has a list exactly if it has an item. -/
theorem mem_keys_group {items : List (κ × ν)} {a : κ} :
    a ∈ (group items).sortedEntries.map Prod.fst ↔ ∃ v, (a, v) ∈ items := by
  rw [mem_keys_sortedEntries, group_eq_foldl, mem_foldl_extend, or_iff_right Finmap.notMem_empty,
    List.map_map, List.mem_map]
  constructor
  · rintro ⟨i, hi, rfl⟩
    exact ⟨i.2, hi⟩
  · exact fun ⟨v, hv⟩ => ⟨(a, v), hv, rfl⟩

end Sorted

end FiniteMap
