import Mathlib.Data.List.Basic
import Mathlib.Data.List.Infix

/-!
# The strict prefix order and joined segments

A list of segments names a place in a tree; a place lies strictly above another when its list
is a strict prefix of the other's. Writing the segments one after the other with a separator
that no segment contains keeps this order: the joined text of the higher place, followed by
the separator, begins the joined text of the lower place.

## Main definitions

* `PrefixOrder.StrictPrefix` — one list is a proper prefix of another.
* `PrefixOrder.strictPrefixes` — the nonempty proper prefixes of a list, longest first.

## Main results

* `PrefixOrder.mem_strictPrefixes` — what `strictPrefixes` lists.
* `PrefixOrder.joined_append_sep_prefix_iff` — the text test for a strict prefix.
* `PrefixOrder.joined_injective` — segments are determined by their joined text.
-/

namespace PrefixOrder

variable {α : Type*}

/-- The list `p` is a prefix of `q` and differs from it. -/
def StrictPrefix (p q : List α) : Prop :=
  p <+: q ∧ p ≠ q

instance [DecidableEq α] (p q : List α) : Decidable (StrictPrefix p q) :=
  inferInstanceAs (Decidable (_ ∧ _))

theorem StrictPrefix.length_lt {p q : List α} (h : StrictPrefix p q) : p.length < q.length :=
  lt_of_le_of_ne h.1.length_le fun hlen => h.2 (h.1.eq_of_length hlen)

theorem strictPrefix_iff_length {p q : List α} :
    StrictPrefix p q ↔ p <+: q ∧ p.length < q.length := by
  constructor
  · exact fun h => ⟨h.1, h.length_lt⟩
  · rintro ⟨h, hlt⟩
    exact ⟨h, fun he => by simp [he] at hlt⟩

theorem StrictPrefix.irrefl (p : List α) : ¬ StrictPrefix p p := fun h => h.2 rfl

theorem StrictPrefix.trans {p q r : List α} (hpq : StrictPrefix p q) (hqr : StrictPrefix q r) :
    StrictPrefix p r := by
  rw [strictPrefix_iff_length]
  exact ⟨hpq.1.trans hqr.1, hpq.length_lt.trans hqr.length_lt⟩

theorem StrictPrefix.asymm {p q : List α} (h : StrictPrefix p q) : ¬ StrictPrefix q p :=
  fun h' => StrictPrefix.irrefl p (h.trans h')

/-- Two lists strictly above a third are equal or one lies above the other. -/
theorem StrictPrefix.trichotomy {p q r : List α} (hp : StrictPrefix p r) (hq : StrictPrefix q r) :
    StrictPrefix p q ∨ p = q ∨ StrictPrefix q p := by
  by_cases he : p = q
  · exact .inr (.inl he)
  rcases List.prefix_or_prefix_of_prefix hp.1 hq.1 with h | h
  · exact .inl ⟨h, he⟩
  · exact .inr (.inr ⟨h, Ne.symm he⟩)

@[simp]
theorem not_strictPrefix_nil (p : List α) : ¬ StrictPrefix p [] := fun h => by
  simpa using h.length_lt

theorem strictPrefix_cons_cons {a b : α} {p q : List α} :
    StrictPrefix (a :: p) (b :: q) ↔ a = b ∧ StrictPrefix p q := by
  unfold StrictPrefix
  rw [List.cons_prefix_cons, Ne, List.cons.injEq]
  tauto

/-- The nonempty proper prefixes of a list, longest first. -/
def strictPrefixes (p : List α) : List (List α) :=
  (List.range' 1 (p.length - 1)).reverse.map p.take

theorem mem_strictPrefixes {p q : List α} :
    p ∈ strictPrefixes q ↔ StrictPrefix p q ∧ p ≠ [] := by
  rw [strictPrefixes, List.mem_map]
  constructor
  · rintro ⟨n, hn, rfl⟩
    rw [List.mem_reverse, List.mem_range'_1] at hn
    refine ⟨strictPrefix_iff_length.mpr ⟨List.take_prefix n q, ?_⟩, ?_⟩
    · rw [List.length_take]
      omega
    · rw [Ne, List.take_eq_nil_iff]
      rintro (h | rfl)
      · omega
      · simp at hn
        omega
  · rintro ⟨h, hne⟩
    have hpos := List.length_pos_iff.mpr hne
    have hlt := h.length_lt
    refine ⟨p.length, ?_, (List.prefix_iff_eq_take.mp h.1).symm⟩
    rw [List.mem_reverse, List.mem_range'_1]
    omega

/-- Of two listed prefixes the one listed first is the longer. -/
theorem strictPrefixes_pairwise (q : List α) :
    (strictPrefixes q).Pairwise fun a b => StrictPrefix b a := by
  rw [strictPrefixes, List.pairwise_map, List.pairwise_reverse]
  refine List.Pairwise.imp_of_mem ?_ (List.pairwise_lt_range' (s := 1) (n := q.length - 1))
  intro m n hm hn hmn
  rw [List.mem_range'_1] at hm hn
  rw [strictPrefix_iff_length]
  refine ⟨?_, ?_⟩
  · rw [List.prefix_take_iff]
    refine ⟨List.take_prefix m q, ?_⟩
    rw [List.length_take]
    omega
  · rw [List.length_take, List.length_take]
    omega

section Joined

variable (sep : α)

/-- The segments written one after the other with `sep` between them. -/
abbrev joined (p : List (List α)) : List α := [sep].intercalate p

variable {sep}

theorem append_sep_inj {a b x y : List α} (ha : sep ∉ a) (hb : sep ∉ b) :
    a ++ sep :: x = b ++ sep :: y ↔ a = b ∧ x = y := by
  constructor
  · intro h
    induction a generalizing b with
    | nil =>
      cases b with
      | nil => simpa using h
      | cons d b =>
        rw [List.nil_append, List.cons_append, List.cons.injEq] at h
        exact absurd (h.1 ▸ List.mem_cons_self) hb
    | cons c a ih =>
      cases b with
      | nil =>
        rw [List.nil_append, List.cons_append, List.cons.injEq] at h
        exact absurd (h.1 ▸ List.mem_cons_self) ha
      | cons d b =>
        rw [List.cons_append, List.cons_append, List.cons.injEq] at h
        obtain ⟨rfl, rfl⟩ := ih (fun hm => ha (List.mem_cons_of_mem c hm))
          (fun hm => hb (List.mem_cons_of_mem d hm)) h.2
        exact ⟨by rw [h.1], rfl⟩
  · rintro ⟨rfl, rfl⟩
    rfl

theorem not_append_sep_prefix {a b : List α} (hb : sep ∉ b) : ¬ a ++ [sep] <+: b := fun h =>
  hb (h.subset (List.mem_append_right a List.mem_cons_self))

/-- The text of `p` followed by the separator begins the text of `q` exactly when `p` lies
strictly above `q`. -/
theorem joined_append_sep_prefix_iff {p q : List (List α)} (hne : p ≠ [])
    (hp : ∀ s ∈ p, sep ∉ s) (hq : ∀ s ∈ q, sep ∉ s) :
    joined sep p ++ [sep] <+: joined sep q ↔ StrictPrefix p q := by
  induction p generalizing q with
  | nil => exact absurd rfl hne
  | cons a p ih =>
    have ha : sep ∉ a := hp a List.mem_cons_self
    match q, hq with
    | [], _ => simp
    | [b], hq =>
      have hb : sep ∉ joined sep [b] := by simpa using hq b List.mem_cons_self
      simpa [strictPrefix_cons_cons] using not_append_sep_prefix hb
    | b :: c :: q, hq =>
      have hb : sep ∉ b := hq b List.mem_cons_self
      have hrest : ∀ s ∈ c :: q, sep ∉ s := fun s hs => hq s (List.mem_cons_of_mem b hs)
      rw [strictPrefix_cons_cons]
      cases p with
      | nil =>
        have hnil : StrictPrefix [] (c :: q) := ⟨List.nil_prefix, by simp⟩
        simp only [joined, List.intercalate_singleton, List.intercalate_cons_cons, hnil, and_true]
        constructor
        · rintro ⟨t, ht⟩
          simp only [List.append_assoc, List.singleton_append] at ht
          exact ((append_sep_inj ha hb).mp ht).1
        · rintro rfl
          exact List.prefix_append _ _
      | cons d p =>
        have ih' := ih (q := c :: q) (by simp) (fun s hs => hp s (List.mem_cons_of_mem a hs)) hrest
        rw [← ih']
        simp only [joined, List.intercalate_cons_cons]
        constructor
        · rintro ⟨t, ht⟩
          simp only [List.append_assoc, List.cons_append] at ht
          obtain ⟨rfl, ht⟩ := (append_sep_inj ha hb).mp ht
          exact ⟨rfl, t, by simpa using ht⟩
        · rintro ⟨rfl, h⟩
          rw [List.append_assoc, List.prefix_append_right_inj]
          exact h

theorem joined_cons_cons (a b : List α) (l : List (List α)) :
    joined sep (a :: b :: l) = a ++ sep :: joined sep (b :: l) := by
  simp [joined]

theorem joined_ne_nil {a : List α} {l : List (List α)} (ha : a ≠ []) : joined sep (a :: l) ≠ [] := by
  cases l with
  | nil => simpa using ha
  | cons b l => simp

/-- Nonempty segments without separators are determined by their joined text. -/
theorem joined_injective {p q : List (List α)} (hp : ∀ s ∈ p, s ≠ [] ∧ sep ∉ s)
    (hq : ∀ s ∈ q, s ≠ [] ∧ sep ∉ s) (h : joined sep p = joined sep q) : p = q := by
  induction p generalizing q with
  | nil =>
    cases q with
    | nil => rfl
    | cons b q => exact absurd h.symm (joined_ne_nil (hq b List.mem_cons_self).1)
  | cons a p ih =>
    obtain ⟨hane, ha⟩ := hp a List.mem_cons_self
    match q, hq with
    | [], _ => exact absurd h (joined_ne_nil hane)
    | b :: q, hq =>
      obtain ⟨-, hb⟩ := hq b List.mem_cons_self
      match p, q with
      | [], [] => simpa using h
      | [], c :: q =>
        rw [joined_cons_cons, joined, List.intercalate_singleton] at h
        exact absurd (h ▸ List.mem_append_right b List.mem_cons_self) ha
      | d :: p, [] =>
        rw [joined_cons_cons, joined, joined, List.intercalate_singleton] at h
        exact absurd (h ▸ List.mem_append_right a List.mem_cons_self) hb
      | d :: p, c :: q =>
        rw [joined_cons_cons, joined_cons_cons, append_sep_inj ha hb] at h
        rw [h.1, ih (fun s hs => hp s (List.mem_cons_of_mem a hs))
          (fun s hs => hq s (List.mem_cons_of_mem b hs)) h.2]

end Joined

end PrefixOrder
