import Mathlib.Data.List.Basic

/-!
# The last write wins

A value that some of the items of a list write and the others leave alone: after the list it is
what the last writer wrote, and the value before the list if there is no writer.

## Main definitions

* `lastWrite` — the value after the list.

## Main results

* `lastWrite_eq_iff` — two values become the same by being the same or by being written.
-/

namespace LastWrite

variable {α β : Type*} (write : α → Option β)

/-- The value after the list, from the value before it. -/
def lastWrite (init : β) (l : List α) : β := l.foldl (fun b a => (write a).getD b) init

variable {write}

@[simp]
theorem lastWrite_nil (b : β) : lastWrite write b [] = b := rfl

@[simp]
theorem lastWrite_cons (b : β) (a : α) (l : List α) :
    lastWrite write b (a :: l) = lastWrite write ((write a).getD b) l := rfl

@[simp]
theorem lastWrite_append (b : β) (l m : List α) :
    lastWrite write b (l ++ m) = lastWrite write (lastWrite write b l) m :=
  List.foldl_append

theorem lastWrite_of_none {l : List α} (h : ∀ a ∈ l, write a = none) (b : β) :
    lastWrite write b l = b := by
  induction l with
  | nil => rfl
  | cons a l ih =>
    rw [lastWrite_cons, h a List.mem_cons_self, Option.getD_none]
    exact ih fun a' ha' => h a' (List.mem_cons_of_mem _ ha')

/-- A value that is written does not depend on what it was. -/
theorem lastWrite_of_write {l : List α} (h : ∃ a ∈ l, write a ≠ none) (b b' : β) :
    lastWrite write b l = lastWrite write b' l := by
  induction l generalizing b b' with
  | nil => simp at h
  | cons a l ih =>
    rw [lastWrite_cons, lastWrite_cons]
    rcases hw : write a with _ | c
    · obtain ⟨a', ha', hne⟩ := h
      rcases List.mem_cons.mp ha' with rfl | ha'
      · exact absurd hw hne
      · exact ih ⟨a', ha', hne⟩ b b'
    · rfl

/-- A value that is written comes from the last writer. -/
theorem exists_last_write {l : List α} (h : ∃ a ∈ l, write a ≠ none) (b : β) :
    ∃ before a after c, l = before ++ a :: after ∧ write a = some c ∧
      (∀ a' ∈ after, write a' = none) ∧ lastWrite write b l = c := by
  induction l generalizing b with
  | nil => simp at h
  | cons a l ih =>
    by_cases hlater : ∃ a' ∈ l, write a' ≠ none
    · obtain ⟨before, a', after, c, rfl, hwrite, hnone, heq⟩ := ih hlater ((write a).getD b)
      exact ⟨a :: before, a', after, c, rfl, hwrite, hnone, heq⟩
    · push Not at hlater
      obtain ⟨a', ha', hne⟩ := h
      obtain rfl : a' = a := by
        rcases List.mem_cons.mp ha' with heq | hmem
        · exact heq
        · exact absurd (hlater a' hmem) hne
      obtain ⟨c, hc⟩ := Option.ne_none_iff_exists'.mp hne
      refine ⟨[], a', l, c, rfl, hc, hlater, ?_⟩
      rw [lastWrite_cons, hc, lastWrite_of_none hlater]
      rfl

/-- A value that all writers agree on. -/
theorem lastWrite_of_agree {l : List α} {v : β} (h : ∃ a ∈ l, write a ≠ none)
    (hagree : ∀ a ∈ l, ∀ c, write a = some c → c = v) (b : β) : lastWrite write b l = v := by
  obtain ⟨before, a, after, c, rfl, hwrite, -, heq⟩ := exists_last_write h b
  rw [heq]
  exact hagree a (by simp) c hwrite

/-- Two values become the same by being the same or by being written. -/
theorem lastWrite_eq_iff {l : List α} {b b' : β} :
    lastWrite write b l = lastWrite write b' l ↔ (∃ a ∈ l, write a ≠ none) ∨ b = b' := by
  constructor
  · intro h
    by_cases hw : ∃ a ∈ l, write a ≠ none
    · exact .inl hw
    · push Not at hw
      rw [lastWrite_of_none hw, lastWrite_of_none hw] at h
      exact .inr h
  · rintro (hw | rfl)
    · exact lastWrite_of_write hw b b'
    · rfl

/-- A value that is never written as it was is what it was if it is not written. -/
theorem lastWrite_eq_self_iff {l : List α} {b : β} (hne : ∀ a c, write a = some c → c ≠ b) :
    lastWrite write b l = b ↔ ∀ a ∈ l, write a = none := by
  have hwritten (l : List α) (c : β) (hc : c ≠ b) : lastWrite write c l ≠ b := by
    induction l generalizing c with
    | nil => exact hc
    | cons a l ih =>
      rw [lastWrite_cons]
      rcases hw : write a with _ | d
      · exact ih c hc
      · exact ih d (hne a d hw)
  refine ⟨fun h => ?_, fun h => lastWrite_of_none h b⟩
  induction l with
  | nil => simp
  | cons a l ih =>
    rw [lastWrite_cons] at h
    rcases hw : write a with _ | c
    · rw [hw, Option.getD_none] at h
      exact List.forall_mem_cons.mpr ⟨hw, ih h⟩
    · rw [hw, Option.getD_some] at h
      exact absurd h (hwritten l c (hne a c hw))

/-- A value that is computed from another one is written when that one is. -/
theorem lastWrite_map {γ : Type*} {write' : α → Option γ} {f : β → γ}
    (hf : ∀ a, write' a = (write a).map f) (b : β) (l : List α) :
    lastWrite write' (f b) l = f (lastWrite write b l) := by
  induction l generalizing b with
  | nil => rfl
  | cons a l ih =>
    have hd : ((write a).map f).getD (f b) = f ((write a).getD b) := by
      rcases write a <;> rfl
    rw [lastWrite_cons, lastWrite_cons, hf, hd, ih]

end LastWrite
