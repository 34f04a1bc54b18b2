import Mathlib.Data.List.Dedup
import Mathlib.Data.List.Perm.Basic

/-!
# Joins that may fail

An operation on texts, say, may join two of them or fail, and a join of several is failed by a
failure of any. Where such an operation is commutative and associative the join of a list does not
depend on its order, and where it is idempotent it depends on the members of the list only.

## Main definitions

* `CommAssoc` — commutative, associative, and with a unit.
* `joinAll` — the join of a list.

## Main results

* `CommAssoc.joinAll_perm` — the order does not matter.
* `CommAssoc.joinAll_congr` — only the members matter.
-/

namespace PartialJoin

variable {F C : Type*} {join : C → C → Except F C} {unit : C}

/-- A failure of one join fails the joins with others, and the order of joins does not matter. -/
structure CommAssoc (join : C → C → Except F C) (unit : C) : Prop where
  comm : ∀ a b, join a b = join b a
  assoc : ∀ a b c, (join a b >>= fun m => join m c) = (join b c >>= fun m => join a m)
  unit_join : ∀ a, join unit a = .ok a

/-- The join of a list. -/
def joinAll (join : C → C → Except F C) (unit : C) (cs : List C) : Except F C :=
  cs.foldlM join unit

theorem joinAll_cons (h : CommAssoc join unit) (c : C) (cs : List C) :
    joinAll join unit (c :: cs) = cs.foldlM join c := by
  rw [joinAll, List.foldlM_cons, h.unit_join]
  rfl

namespace CommAssoc

variable (h : CommAssoc join unit)
include h

theorem right_comm (a b c : C) :
    (join a b >>= fun m => join m c) = (join a c >>= fun m => join m b) := by
  rw [h.assoc, h.comm b c, ← h.assoc]

theorem foldlM_perm {cs cs' : List C} (hperm : cs.Perm cs') (a : C) :
    cs.foldlM join a = cs'.foldlM join a := by
  induction hperm generalizing a with
  | nil => rfl
  | cons c _ ih =>
    rw [List.foldlM_cons, List.foldlM_cons]
    exact bind_congr fun m => ih m
  | swap c c' cs =>
    simp only [List.foldlM_cons]
    rw [← bind_assoc, ← bind_assoc, h.right_comm]
  | trans _ _ ih ih' => exact (ih a).trans (ih' a)

theorem joinAll_perm {cs cs' : List C} (hperm : cs.Perm cs') :
    joinAll join unit cs = joinAll join unit cs' :=
  h.foldlM_perm hperm unit

/-- The first of a list can be joined last. -/
theorem joinAll_cons_eq_bind (c : C) (cs : List C) :
    joinAll join unit (c :: cs) = joinAll join unit cs >>= fun m => join m c := by
  have hperm : (c :: cs).Perm (cs ++ [c]) := (List.perm_append_singleton c cs).symm
  rw [h.joinAll_perm hperm, joinAll, List.foldlM_append]
  refine bind_congr fun m => ?_
  rw [List.foldlM_cons]
  exact bind_pure _

variable (hidem : ∀ a, join a a = .ok a)
include hidem

theorem joinAll_cons_of_mem [DecidableEq C] {c : C} {cs : List C} (hc : c ∈ cs) :
    joinAll join unit (c :: cs) = joinAll join unit cs := by
  have hperm : cs.Perm (c :: cs.erase c) := List.perm_cons_erase hc
  rw [h.joinAll_perm (hperm.cons c), h.joinAll_perm hperm, joinAll_cons h, joinAll_cons h,
    List.foldlM_cons, hidem]
  rfl

theorem joinAll_dedup [DecidableEq C] (cs : List C) :
    joinAll join unit cs.dedup = joinAll join unit cs := by
  induction cs with
  | nil => rfl
  | cons c cs ih =>
    by_cases hc : c ∈ cs
    · rw [List.dedup_cons_of_mem hc, ih, h.joinAll_cons_of_mem hidem hc]
    · rw [List.dedup_cons_of_notMem hc, h.joinAll_cons_eq_bind, h.joinAll_cons_eq_bind, ih]

/-- Lists with the same members have the same join. -/
theorem joinAll_congr [DecidableEq C] {cs cs' : List C} (hmem : ∀ c, c ∈ cs ↔ c ∈ cs') :
    joinAll join unit cs = joinAll join unit cs' := by
  have hperm : cs.dedup.Perm cs'.dedup :=
    (List.perm_ext_iff_of_nodup cs.nodup_dedup cs'.nodup_dedup).mpr fun c => by
      rw [List.mem_dedup, List.mem_dedup, hmem]
  rw [← h.joinAll_dedup hidem cs, h.joinAll_perm hperm, h.joinAll_dedup hidem]

end CommAssoc

end PartialJoin
