import Mathlib.Data.List.Nodup
import Maw.Library.ExceptRun
import Mathlib.Data.List.Perm.Basic

/-!
# Folds that act on each cell separately

A loop over a list of keyed items often changes, at each item, only the part of the state that
the key of the item names. When no key repeats, what the whole loop does to one cell is what
the one item with that key does to it. The state is seen through a function `view` that reads
the cell of each key.

## Main definitions

* `PointwiseFold.itemAt` — the item of a list with a given key.

## Main results

* `PointwiseFold.foldl_view` — the effect of a fold on one cell.
* `PointwiseFold.foldlM_view` — the same for a fold that can fail.
-/

namespace PointwiseFold

variable {S A K V ε : Type*} [DecidableEq K]

/-- The first item of `l` whose key is `k`. -/
def itemAt (key : A → K) (l : List A) (k : K) : Option A :=
  l.find? fun a => key a = k

section ItemAt

variable {key : A → K} {l : List A} {k : K} {a : A}

@[simp]
theorem itemAt_nil : itemAt key [] k = none := rfl

theorem itemAt_cons : itemAt key (a :: l) k = if key a = k then some a else itemAt key l k := by
  by_cases h : key a = k <;> simp [itemAt, h]

theorem mem_of_itemAt (h : itemAt key l k = some a) : a ∈ l :=
  List.mem_of_find?_eq_some h

theorem key_of_itemAt (h : itemAt key l k = some a) : key a = k := by
  simpa using List.find?_some h

theorem itemAt_eq_none : itemAt key l k = none ↔ k ∉ l.map key := by
  simp [itemAt]

variable (key) in
theorem itemAt_of_mem (hl : (l.map key).Nodup) (ha : a ∈ l) : itemAt key l (key a) = some a := by
  induction l with
  | nil => simp at ha
  | cons b l ih =>
    rw [List.map_cons, List.nodup_cons] at hl
    rw [itemAt_cons]
    rcases List.mem_cons.mp ha with rfl | ha
    · rw [if_pos rfl]
    · have hne : key b ≠ key a := fun h => hl.1 (h ▸ List.mem_map_of_mem ha)
      rw [if_neg hne, ih hl.2 ha]

theorem itemAt_eq_some (hl : (l.map key).Nodup) :
    itemAt key l k = some a ↔ a ∈ l ∧ key a = k := by
  constructor
  · exact fun h => ⟨mem_of_itemAt h, key_of_itemAt h⟩
  · rintro ⟨ha, rfl⟩
    exact itemAt_of_mem key hl ha

omit [DecidableEq K] in
theorem nodup_map_filter (hl : (l.map key).Nodup) (p : A → Bool) :
    ((l.filter p).map key).Nodup :=
  hl.sublist (List.filter_sublist.map key)

/-- Dropping items from a list drops the item of a key or keeps it. -/
theorem itemAt_filter (hl : (l.map key).Nodup) (p : A → Bool) :
    itemAt key (l.filter p) k = (itemAt key l k).filter p := by
  ext a
  rw [itemAt_eq_some (nodup_map_filter hl p), Option.filter_eq_some_iff, itemAt_eq_some hl,
    List.mem_filter]
  tauto

theorem itemAt_perm {l' : List A} (hl : (l.map key).Nodup) (h : l.Perm l') :
    itemAt key l' k = itemAt key l k := by
  ext a
  rw [itemAt_eq_some hl, itemAt_eq_some ((h.map key).nodup_iff.mp hl), h.mem_iff]

/-- Turning the items of a list into others with the same keys, or dropping them, does the
same to the item of a key. -/
theorem itemAt_filterMap {B : Type*} {key' : B → K} {f : A → Option B}
    (hf : ∀ a b, f a = some b → key' b = key a) (hl : (l.map key).Nodup) :
    itemAt key' (l.filterMap f) k = (itemAt key l k).bind f := by
  induction l with
  | nil => rfl
  | cons a l ih =>
    rw [List.map_cons, List.nodup_cons] at hl
    have hnone (h : key a = k) : itemAt key l k = none := itemAt_eq_none.mpr (h ▸ hl.1)
    rw [itemAt_cons]
    cases hfa : f a with
    | none =>
      rw [List.filterMap_cons_none hfa, ih hl.2]
      split_ifs with h
      · rw [hnone h, Option.bind_none, Option.bind_some, hfa]
      · rfl
    | some b =>
      rw [List.filterMap_cons_some hfa, itemAt_cons, hf a b hfa]
      split_ifs with h
      · rw [Option.bind_some, hfa]
      · exact ih hl.2

omit [DecidableEq K] in
theorem nodup_map_filterMap {B : Type*} {key' : B → K} {f : A → Option B}
    (hf : ∀ a b, f a = some b → key' b = key a) (hl : (l.map key).Nodup) :
    ((l.filterMap f).map key').Nodup := by
  induction l with
  | nil => simp
  | cons a l ih =>
    rw [List.map_cons, List.nodup_cons] at hl
    cases hfa : f a with
    | none =>
      rw [List.filterMap_cons_none hfa]
      exact ih hl.2
    | some b =>
      rw [List.filterMap_cons_some hfa, List.map_cons, List.nodup_cons, hf a b hfa]
      refine ⟨fun hmem => hl.1 ?_, ih hl.2⟩
      obtain ⟨b', hb', hkey⟩ := List.mem_map.mp hmem
      obtain ⟨a', ha', hfa'⟩ := List.mem_filterMap.mp hb'
      exact hkey ▸ hf a' b' hfa' ▸ List.mem_map_of_mem ha'

end ItemAt

/-- A fold over a pair whose components do not depend on each other is a pair of folds. -/
theorem foldl_prod {T : Type*} (f : S → A → S) (g : T → A → T) (l : List A) (x : S) (y : T) :
    l.foldl (fun s a => (f s.1 a, g s.2 a)) (x, y) = (l.foldl f x, l.foldl g y) := by
  induction l generalizing x y with
  | nil => rfl
  | cons a l ih => rw [List.foldl_cons, ih, List.foldl_cons, List.foldl_cons]

/-- Filtering once for each item of a list is filtering by all of them. -/
theorem foldl_filter {B : Type*} (keep : B → A → Bool) (l : List B) (m : List A) :
    l.foldl (fun m b => m.filter (keep b)) m = m.filter fun a => l.all (keep · a) := by
  induction l generalizing m with
  | nil => simp
  | cons b l ih => simp [ih, List.filter_filter, Bool.and_comm]

/-- Clearing a value at some of the items clears it over the list. -/
theorem foldl_clear {B : Type*} (clears : A → Bool) (l : List A) (v : Option B) :
    l.foldl (fun v a => if clears a then none else v) v = if l.any clears then none else v := by
  induction l generalizing v with
  | nil => rfl
  | cons a l ih =>
    rw [List.foldl_cons, ih, List.any_cons]
    by_cases ha : clears a <;> simp [ha]

theorem foldl_snoc_filter {B : Type*} (f : A → B) (keep : A → Bool) (l : List A) (m : List B) :
    l.foldl (fun m a => if keep a then m ++ [f a] else m) m = m ++ (l.filter keep).map f := by
  induction l generalizing m with
  | nil => simp
  | cons a l ih =>
    rw [List.foldl_cons, ih]
    by_cases ha : keep a <;> simp [ha]

variable (view : S → K → V) (key : A → K)

omit [DecidableEq K] in
/-- A step that acts on every cell of its own acts, over a whole fold, on every cell by the
fold of these actions. -/
theorem foldl_cells {step : S → A → S} (eff : A → K → V → V)
    (hstep : ∀ s a k, view (step s a) k = eff a k (view s k)) (l : List A) (s : S) (k : K) :
    view (l.foldl step s) k = l.foldl (fun v a => eff a k v) (view s k) := by
  induction l generalizing s with
  | nil => rfl
  | cons a l ih => rw [List.foldl_cons, List.foldl_cons, ih, hstep]

/-- When each step changes only the cell of its own key and no key repeats, a fold changes each
cell as the one item with that key does. -/
theorem foldl_view {step : S → A → S} (act : A → V → V) {l : List A}
    (hself : ∀ a ∈ l, ∀ s, view (step s a) (key a) = act a (view s (key a)))
    (hother : ∀ a ∈ l, ∀ s k, key a ≠ k → view (step s a) k = view s k)
    (hl : (l.map key).Nodup) (s : S) (k : K) :
    view (l.foldl step s) k = (itemAt key l k).elim (view s k) fun a => act a (view s k) := by
  induction l generalizing s with
  | nil => rfl
  | cons a l ih =>
    have ih' := ih (fun b hb => hself b (List.mem_cons_of_mem a hb))
      fun b hb => hother b (List.mem_cons_of_mem a hb)
    rw [List.map_cons, List.nodup_cons] at hl
    rw [List.foldl_cons, ih' hl.2, itemAt_cons]
    by_cases h : key a = k
    · subst h
      rw [if_pos rfl, itemAt_eq_none.mpr hl.1, Option.elim_none, hself a List.mem_cons_self]
      rfl
    · rw [if_neg h, hother a List.mem_cons_self s k h]

/-- The same for a fold whose steps can fail: a run that returns changes each cell as a step
with that key does. -/
theorem foldlM_view {step : S → A → Except ε S} (act : A → V → V → Prop)
    (hself : ∀ s a s', step s a = .ok s' → act a (view s (key a)) (view s' (key a)))
    (hother : ∀ s a s', step s a = .ok s' → ∀ k, key a ≠ k → view s' k = view s k)
    {l : List A} (hl : (l.map key).Nodup) {s s' : S} (hrun : l.foldlM step s = .ok s') (k : K) :
    (itemAt key l k).elim (view s' k = view s k) fun a => act a (view s k) (view s' k) := by
  induction l generalizing s with
  | nil =>
    rw [List.foldlM_nil, ExceptRun.pure_eq_ok] at hrun
    rw [itemAt_nil, Option.elim_none, hrun]
  | cons a l ih =>
    rw [List.map_cons, List.nodup_cons] at hl
    rw [List.foldlM_cons, ExceptRun.bind_eq_ok] at hrun
    obtain ⟨s₁, hs, hrun⟩ := hrun
    have hrest := ih hl.2 hrun
    rw [itemAt_cons]
    by_cases h : key a = k
    · subst h
      rw [itemAt_eq_none.mpr hl.1, Option.elim_none] at hrest
      rw [if_pos rfl, Option.elim_some, hrest]
      exact hself s a s₁ hs
    · rw [if_neg h, ← hother s a s₁ hs k h]
      exact hrest

end PointwiseFold
