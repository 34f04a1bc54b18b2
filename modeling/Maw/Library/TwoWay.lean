import Maw.Library.FiniteMap

/-!
# Maps that are kept in both directions

Two finite maps that are inverse to each other, and the updates that keep them so: a new pair of
which neither side has an entry, the removal of a pair, and a pair that gets another first side.

## Main definitions

* `TwoWay.Inverse` — maps in both directions.

## Main results

* `TwoWay.Inverse.insert`, `TwoWay.Inverse.erase`, `TwoWay.Inverse.move` — the updates.
-/

namespace TwoWay

variable {α β : Type*} [DecidableEq α] [DecidableEq β]

/-- One map gives `b` for `a` exactly if the other one gives `a` for `b`. -/
def Inverse (f : FiniteMap α β) (g : FiniteMap β α) : Prop :=
  ∀ a b, f.lookup a = some b ↔ g.lookup b = some a

theorem inverse_empty : Inverse (∅ : FiniteMap α β) ∅ := fun a b => by simp

namespace Inverse

variable {f : FiniteMap α β} {g : FiniteMap β α} {a c : α} {b : β}

/-- Nothing else is mapped to what a key is mapped to. -/
theorem injective (h : Inverse f g) (ha : f.lookup a = some b) (hc : f.lookup c = some b) :
    a = c := by
  have hb := (h a b).mp ha
  rw [(h c b).mp hc] at hb
  exact (Option.some.inj hb).symm

theorem insert (h : Inverse f g) (ha : f.lookup a = none) (hb : g.lookup b = none) :
    Inverse (f.insert a b) (g.insert b a) := by
  intro x y
  rw [FiniteMap.lookup_insert, FiniteMap.lookup_insert]
  by_cases hx : x = a
  · subst hx
    rw [if_pos rfl]
    by_cases hy : y = b
    · subst hy
      simp
    · rw [if_neg hy, ← h x y, ha]
      simp [Ne.symm hy]
  · rw [if_neg hx]
    by_cases hy : y = b
    · subst hy
      rw [if_pos rfl, h x y, hb]
      simp [Ne.symm hx]
    · rw [if_neg hy]
      exact h x y

theorem erase (h : Inverse f g) (hab : f.lookup a = some b) :
    Inverse (f.erase a) (g.erase b) := by
  intro x y
  rw [FiniteMap.lookup_erase, FiniteMap.lookup_erase]
  by_cases hx : x = a
  · subst hx
    rw [if_pos rfl]
    by_cases hy : y = b
    · simp [hy]
    · rw [if_neg hy, ← h x y, hab]
      simp [Ne.symm hy]
  · rw [if_neg hx]
    by_cases hy : y = b
    · subst hy
      rw [if_pos rfl]
      exact ⟨fun hxy => absurd (h.injective hxy hab) hx, nofun⟩
    · rw [if_neg hy]
      exact h x y

/-- The second side of a pair keeps its entry, with another first side. -/
theorem move (h : Inverse f g) (hab : f.lookup a = some b)
    (hc : (f.erase a).lookup c = none) :
    Inverse ((f.erase a).insert c b) (g.insert b c) := by
  have hinsert := (h.erase hab).insert hc (by rw [FiniteMap.lookup_erase, if_pos rfl])
  have hsame : (g.erase b).insert b c = g.insert b c := by
    refine Finmap.ext_lookup fun y => ?_
    rw [FiniteMap.lookup_insert, FiniteMap.lookup_insert, FiniteMap.lookup_erase]
    split_ifs <;> rfl
  rwa [hsame] at hinsert

end Inverse

end TwoWay
