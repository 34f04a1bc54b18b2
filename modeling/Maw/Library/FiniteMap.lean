import Mathlib.Data.Finmap

/-!
# Finite maps read through their lookups

Rewriting rules that turn the lookups of updated finite maps into conditionals on keys, and
the restriction of a finite map to the keys satisfying a decidable predicate.

## Main definitions

* `FiniteMap α ν` — finite maps from `α` to `ν`.
* `FiniteMap.filterKeys` — restriction to the keys satisfying a predicate.
* `FiniteMap.filterValues` — restriction to the keys whose value satisfies a predicate.
* `FiniteMap.ofFun` — the map of a function on finitely many keys.

## Main results

* `FiniteMap.lookup_insert`, `FiniteMap.lookup_erase`, `FiniteMap.lookup_union`,
  `FiniteMap.lookup_filterKeys`, `FiniteMap.lookup_filterValues`, `FiniteMap.lookup_ofFun`.
-/

/-- Finite maps with values in one type. -/
abbrev FiniteMap (α ν : Type*) := Finmap fun _ : α => ν

namespace FiniteMap

variable {α ν : Type*} [DecidableEq α]

theorem lookup_insert (s : FiniteMap α ν) (a b : α) (v : ν) :
    (s.insert a v).lookup b = if b = a then some v else s.lookup b := by
  by_cases h : b = a
  · subst h
    rw [if_pos rfl, Finmap.lookup_insert]
  · rw [if_neg h, Finmap.lookup_insert_of_ne s h]

theorem lookup_erase (s : FiniteMap α ν) (a b : α) :
    (s.erase a).lookup b = if b = a then none else s.lookup b := by
  by_cases h : b = a
  · subst h
    rw [if_pos rfl, Finmap.lookup_erase]
  · rw [if_neg h, Finmap.lookup_erase_ne h]

theorem erase_insert (s : FiniteMap α ν) (a : α) (v : ν) : (s.insert a v).erase a = s.erase a := by
  refine Finmap.ext_lookup fun b => ?_
  rw [lookup_erase, lookup_erase]
  split_ifs with heq
  · rfl
  · rw [lookup_insert, if_neg heq]

theorem erase_of_not_mem {s : FiniteMap α ν} {a : α} (h : a ∉ s) : s.erase a = s := by
  refine Finmap.ext_lookup fun b => ?_
  rw [lookup_erase]
  split_ifs with heq
  · rw [heq, Finmap.lookup_eq_none.mpr h]
  · rfl

theorem lookup_union (s t : FiniteMap α ν) (a : α) :
    (s ∪ t).lookup a = (s.lookup a).or (t.lookup a) := by
  by_cases h : a ∈ s
  · obtain ⟨v, hv⟩ := Finmap.mem_iff.mp h
    rw [Finmap.lookup_union_left h, hv, Option.some_or]
  · rw [Finmap.lookup_union_right h, Finmap.lookup_eq_none.mpr h, Option.none_or]

/-- The entries of `s` whose key satisfies `p`. -/
def filterKeys (p : α → Prop) [DecidablePred p] (s : FiniteMap α ν) : FiniteMap α ν where
  entries := s.entries.filter fun e => p e.1
  nodupKeys := by
    obtain ⟨l, hl⟩ := s
    induction l using Quotient.inductionOn with
    | h l =>
      refine List.NodupKeys.sublist ?_ hl
      exact List.filter_sublist

theorem lookup_filterKeys (p : α → Prop) [DecidablePred p] (s : FiniteMap α ν) (a : α) :
    (s.filterKeys p).lookup a = if p a then s.lookup a else none := by
  have hmem (b : ν) : (s.filterKeys p).lookup a = some b ↔ p a ∧ s.lookup a = some b := by
    rw [Finmap.lookup_eq_some_iff, Finmap.lookup_eq_some_iff, filterKeys, Multiset.mem_filter,
      and_comm]
  by_cases hp : p a
  · rw [if_pos hp]
    ext b
    simp [hmem, hp]
  · rw [if_neg hp]
    ext b
    simp [hmem, hp]

@[simp]
theorem mem_filterKeys (p : α → Prop) [DecidablePred p] (s : FiniteMap α ν) (a : α) :
    a ∈ s.filterKeys p ↔ p a ∧ a ∈ s := by
  rw [← Finmap.lookup_isSome, lookup_filterKeys, ← Finmap.lookup_isSome]
  by_cases hp : p a <;> simp [hp]

/-- The entries of `s` whose value satisfies `p`. -/
def filterValues (p : ν → Bool) (s : FiniteMap α ν) : FiniteMap α ν where
  entries := s.entries.filter fun e => p e.2
  nodupKeys := by
    obtain ⟨l, hl⟩ := s
    induction l using Quotient.inductionOn with
    | h l =>
      refine List.NodupKeys.sublist ?_ hl
      exact List.filter_sublist

theorem lookup_filterValues (p : ν → Bool) (s : FiniteMap α ν) (a : α) :
    (s.filterValues p).lookup a = (s.lookup a).filter p := by
  ext b
  rw [Finmap.lookup_eq_some_iff, filterValues, Multiset.mem_filter, ← Finmap.lookup_eq_some_iff,
    Option.filter_eq_some_iff]

/-- The map with the keys of a finite set at which a function has a value. -/
def ofFun (keys : Finset α) (f : α → Option ν) : FiniteMap α ν where
  entries := keys.val.filterMap fun a => (f a).map fun v => ⟨a, v⟩
  nodupKeys := by
    obtain ⟨l, hl⟩ := keys
    induction l using Quotient.inductionOn with
    | h l =>
      have hkeys : (l.filterMap fun a => (f a).map fun v => (⟨a, v⟩ : (_ : α) × ν)).map
          Sigma.fst = l.filter fun a => (f a).isSome := by
        rw [List.map_filterMap, ← List.filterMap_eq_filter]
        refine List.filterMap_congr fun a _ => ?_
        cases h : f a <;> simp [Option.guard, h]
      change ((l.filterMap fun a => (f a).map fun v => (⟨a, v⟩ : (_ : α) × ν)).map
        Sigma.fst).Nodup
      rw [hkeys]
      exact (Multiset.coe_nodup.mp hl).filter _

theorem lookup_ofFun (keys : Finset α) (f : α → Option ν) (a : α) :
    (ofFun keys f).lookup a = if a ∈ keys then f a else none := by
  have hmem (v : ν) : (ofFun keys f).lookup a = some v ↔ a ∈ keys ∧ f a = some v := by
    rw [Finmap.lookup_eq_some_iff, ofFun, Multiset.mem_filterMap]
    constructor
    · rintro ⟨b, hb, he⟩
      obtain ⟨v', hv', he⟩ := Option.map_eq_some_iff.mp he
      cases he
      exact ⟨Finset.mem_val.mp hb, hv'⟩
    · rintro ⟨ha, hv⟩
      exact ⟨a, Finset.mem_val.mpr ha, by rw [hv]; rfl⟩
  ext v
  by_cases ha : a ∈ keys <;> simp [hmem, ha]

theorem mem_of_lookup {s : FiniteMap α ν} {a : α} {v : ν} (h : s.lookup a = some v) : a ∈ s :=
  Finmap.mem_iff.mpr ⟨v, h⟩

end FiniteMap
