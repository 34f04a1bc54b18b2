import Mathlib.Order.Defs.Unbundled

/-!
# Folding variants together

Several variants of one base are merged one after another into the first one. Merges are read as
upper bounds: each base orders the texts by the changes they have over it, and what a merge
returns has the changes of both sides. Then the last result has the changes of every variant.

## Main definitions

* `MergesTo` — the fold of a list of variants.
* `positional` — the merge of texts of one length, position by position.

## Main results

* `MergesTo.upper` — the result of a fold is above every variant.
* `positional_keeps` — the merge by positions keeps both sides.
-/

namespace MergeFold

variable {C : Type*}

/-- The variants merge one after another into the first, without a conflict; a variant equal to
the result so far is passed over. -/
inductive MergesTo (merge : C → C → C → Prop) : C → List C → C → Prop
  | nil (merged : C) : MergesTo merge merged [] merged
  | same (merged : C) {rest : List C} {out : C} (h : MergesTo merge merged rest out) :
    MergesTo merge merged (merged :: rest) out
  | step {merged next mid : C} {rest : List C} {out : C} (hne : merged ≠ next)
    (hmerge : merge merged next mid) (h : MergesTo merge mid rest out) :
    MergesTo merge merged (next :: rest) out

/-- Where a merge is above both of its sides, the result of a fold is above every variant. -/
theorem MergesTo.upper {merge : C → C → C → Prop} {le : C → C → Prop} [Std.Refl le] [IsTrans C le]
    (hmerge : ∀ o t m, merge o t m → le o m ∧ le t m) {merged out : C} {rest : List C}
    (h : MergesTo merge merged rest out) : ∀ v ∈ merged :: rest, le v out := by
  induction h with
  | nil merged =>
    intro v hv
    rw [List.mem_singleton.mp hv]
    exact refl_of le merged
  | same merged h ih =>
    intro v hv
    rcases List.mem_cons.mp hv with rfl | hv
    · exact ih v List.mem_cons_self
    · exact ih v hv
  | step hne hm h ih =>
    obtain ⟨hours, htheirs⟩ := hmerge _ _ _ hm
    have hmid := ih _ List.mem_cons_self
    intro v hv
    rcases List.mem_cons.mp hv with rfl | hv
    · exact trans_of le hours hmid
    · rcases List.mem_cons.mp hv with rfl | hv
      · exact trans_of le htheirs hmid
      · exact ih v (List.mem_cons_of_mem _ hv)

section Positional

variable {A : Type*} [DecidableEq A]

/-- Three versions of one position: the side that differs from the base wins. -/
def positionOf (base ours theirs : A) : Option A :=
  if ours = base then some theirs
  else if theirs = base ∨ theirs = ours then some ours
  else none

/-- The merge of three texts of one length, position by position. -/
def positional : List A → List A → List A → Option (List A)
  | [], [], [] => some []
  | b :: base, o :: ours, t :: theirs =>
    (positionOf b o t).bind fun m => (positional base ours theirs).map (m :: ·)
  | _, _, _ => none

/-- A text has the changes of a side when it agrees with it wherever the side differs from the
base. -/
def PositionsKept (base side out : List A) : Prop :=
  ∀ i : Nat, side[i]? ≠ base[i]? → out[i]? = side[i]?

instance (base : List A) : Std.Refl (PositionsKept base) := ⟨fun _ _ _ => rfl⟩

instance (base : List A) : IsTrans (List A) (PositionsKept base) where
  trans o m n hom hmn i hi := by
    have hm := hom i hi
    rw [hmn i (hm ▸ hi), hm]

theorem positionOf_keeps {b o t m : A} (h : positionOf b o t = some m) :
    (o ≠ b → m = o) ∧ (t ≠ b → m = t) := by
  unfold positionOf at h
  by_cases ho : o = b
  · rw [if_pos ho, Option.some.injEq] at h
    exact ⟨fun hne => absurd ho hne, fun _ => h.symm⟩
  · rw [if_neg ho] at h
    by_cases ht : t = b ∨ t = o
    · rw [if_pos ht, Option.some.injEq] at h
      refine ⟨fun _ => h.symm, fun hne => ?_⟩
      rw [← h, ht.resolve_left hne]
    · rw [if_neg ht] at h
      cases h

theorem positional_keeps : ∀ {base ours theirs out : List A},
    positional base ours theirs = some out →
      PositionsKept base ours out ∧ PositionsKept base theirs out
  | [], [], [], out, h => by
    cases h
    exact ⟨fun _ _ => rfl, fun _ _ => rfl⟩
  | b :: base, o :: ours, t :: theirs, out, h => by
    obtain ⟨m, hm, h⟩ := Option.bind_eq_some_iff.mp h
    obtain ⟨rest, hrest, rfl⟩ := Option.map_eq_some_iff.mp h
    obtain ⟨ho, ht⟩ := positionOf_keeps hm
    obtain ⟨hours, htheirs⟩ := positional_keeps hrest
    constructor
    · rintro (_ | i) hi
      · simpa using ho (by simpa using hi)
      · simpa using hours i (by simpa using hi)
    · rintro (_ | i) hi
      · simpa using ht (by simpa using hi)
      · simpa using htheirs i (by simpa using hi)
  | [], [], _ :: _, _, h | [], _ :: _, _, _, h | _ :: _, [], _, _, h | _ :: _, _ :: _, [], _, h => by
    cases h

end Positional

end MergeFold
