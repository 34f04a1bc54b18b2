import Mathlib.Data.List.Basic
import Mathlib.Data.List.Infix

/-!
# Files as items with text between them

A file is read as a list of items, each with the text in front of it, and the text behind the last
one. Items have keys; several items may have the same one. The file is revised key by key: the
items with a key are kept, left out, or replaced; what stands behind an item that is left out
moves up to what stands in front of it, less the blanks it begins with.

## Main definitions

* `Document` — a file as items with text between them.
* `Document.item` — the item with a key and a number among those with the key.
* `Document.revise` — the file with its items kept, left out or replaced.
* `MadeOf` — texts that are put together from given ones.

## Main results

* `Document.texts_revise` — the items of a revised file.
* `Document.text_reviseFrom_append` — the text that a revision begins with.
* `Document.gaps_revise` — the text between the items of a revised file is of the file.
-/

variable {κ α : Type*}

/-- A text that is put together from given ones. -/
def MadeOf (parts : List α → Prop) (text : List α) : Prop :=
  ∃ pieces : List (List α), text = pieces.flatten ∧ ∀ piece ∈ pieces, parts piece

namespace MadeOf

variable {parts parts' : List α → Prop} {text text' : List α}

theorem nil : MadeOf parts ([] : List α) := ⟨[], rfl, nofun⟩

theorem of (h : parts text) : MadeOf parts text :=
  ⟨[text], by simp, fun piece hpiece => List.mem_singleton.mp hpiece ▸ h⟩

theorem append (h : MadeOf parts text) (h' : MadeOf parts text') :
    MadeOf parts (text ++ text') := by
  obtain ⟨pieces, rfl, hpieces⟩ := h
  obtain ⟨pieces', rfl, hpieces'⟩ := h'
  refine ⟨pieces ++ pieces', List.flatten_append.symm, fun piece hpiece => ?_⟩
  rcases List.mem_append.mp hpiece with hpiece | hpiece
  · exact hpieces piece hpiece
  · exact hpieces' piece hpiece

theorem imp (h : MadeOf parts text) (himp : ∀ piece, parts piece → parts' piece) :
    MadeOf parts' text := by
  obtain ⟨pieces, rfl, hpieces⟩ := h
  exact ⟨pieces, rfl, fun piece hpiece => himp piece (hpieces piece hpiece)⟩

end MadeOf

/-- An item of a file with the text in front of it. -/
structure Entry (κ α : Type*) where
  key : κ
  gap : List α
  text : List α
  deriving DecidableEq

/-- A file as items with text between them. -/
structure Document (κ α : Type*) where
  entries : List (Entry κ α)
  trailing : List α
  deriving DecidableEq

/-- The text of an item with that in front of it. -/
def Entry.all (e : Entry κ α) : List α := e.gap ++ e.text

/-- The text of a part of a file. -/
def textOf (es : List (Entry κ α)) : List α := es.flatMap Entry.all

@[simp]
theorem textOf_nil : textOf ([] : List (Entry κ α)) = [] := rfl

@[simp]
theorem textOf_cons (e : Entry κ α) (es : List (Entry κ α)) :
    textOf (e :: es) = e.gap ++ e.text ++ textOf es := rfl

@[simp]
theorem textOf_append (es es' : List (Entry κ α)) : textOf (es ++ es') = textOf es ++ textOf es' :=
  List.flatMap_append

/-- What becomes of the items with a key. -/
inductive Outcome (α : Type*)
  | keep
  | drop
  | replace (text : List α)

namespace Outcome

def isDrop : Outcome α → Bool
  | drop => true
  | _ => false

/-- What becomes of the texts of the items with a key. -/
def texts : Outcome α → List (List α) → List (List α)
  | keep, texts => texts
  | drop, _ => []
  | replace text, texts => List.replicate texts.length text

end Outcome

/-- A text without the blanks at its start, if it stands behind an item that was left out. -/
def strip (blank : α → Bool) (dropped : Bool) (text : List α) : List α :=
  if dropped then text.dropWhile blank else text

theorem strip_suffix (blank : α → Bool) (dropped : Bool) (text : List α) :
    strip blank dropped text <:+ text := by
  cases dropped with
  | false => exact List.suffix_rfl
  | true => exact List.dropWhile_suffix blank

namespace Document

/-- The text of a file. -/
def text (doc : Document κ α) : List α := textOf doc.entries ++ doc.trailing

/-- A file with another item in front. -/
def cons (e : Entry κ α) (doc : Document κ α) : Document κ α := ⟨e :: doc.entries, doc.trailing⟩

@[simp]
theorem entries_cons (e : Entry κ α) (doc : Document κ α) :
    (doc.cons e).entries = e :: doc.entries := rfl

@[simp]
theorem trailing_cons (e : Entry κ α) (doc : Document κ α) :
    (doc.cons e).trailing = doc.trailing := rfl

@[simp]
theorem text_cons (e : Entry κ α) (doc : Document κ α) :
    (doc.cons e).text = e.gap ++ e.text ++ doc.text := by
  simp [text]

/-- The texts between the items of a file, and that behind the last one. -/
def gaps (doc : Document κ α) : List (List α) := doc.entries.map Entry.gap ++ [doc.trailing]

theorem gaps_cons (e : Entry κ α) (doc : Document κ α) : (doc.cons e).gaps = e.gap :: doc.gaps :=
  rfl

variable [DecidableEq κ]

/-- The items with a key. -/
def entriesAt (doc : Document κ α) (k : κ) : List (Entry κ α) :=
  doc.entries.filter fun e => e.key = k

def texts (doc : Document κ α) (k : κ) : List (List α) := (doc.entriesAt k).map Entry.text

/-- The item with a key and a number. -/
def item (doc : Document κ α) (k : κ) (n : ℕ) : Option (Entry κ α) := (doc.entriesAt k)[n]?

theorem map_text_item (doc : Document κ α) (k : κ) (n : ℕ) :
    (doc.item k n).map Entry.text = (doc.texts k)[n]? :=
  List.getElem?_map.symm

theorem key_eq_of_item {doc : Document κ α} {k : κ} {n : ℕ} {e : Entry κ α}
    (h : doc.item k n = some e) : e ∈ doc.entries ∧ e.key = k := by
  have hmem : e ∈ doc.entriesAt k := List.mem_of_getElem? h
  simpa using List.mem_filter.mp hmem

/-- An item stands somewhere in its file, behind the items with the key and a smaller number. -/
theorem item_eq_some_iff {doc : Document κ α} {k : κ} {n : ℕ} {e : Entry κ α} :
    doc.item k n = some e ↔ e.key = k ∧ ∃ es es', doc.entries = es ++ e :: es' ∧
      (es.filter fun e => e.key = k).length = n := by
  unfold item entriesAt
  constructor
  · intro h
    obtain ⟨hn, he⟩ := List.getElem?_eq_some_iff.mp h
    have hsplit : doc.entries.filter (fun e => e.key = k) =
        (doc.entries.filter fun e => e.key = k).take n ++
          e :: (doc.entries.filter fun e => e.key = k).drop (n + 1) := by
      rw [← he, List.getElem_cons_drop, List.take_append_drop]
    obtain ⟨es, es', hes, htake, hdrop⟩ := List.filter_eq_append_iff.mp hsplit
    obtain ⟨es₁, es₂, rfl, hes₁, hkey, -⟩ := List.filter_eq_cons_iff.mp hdrop
    refine ⟨by simpa using hkey, es ++ es₁, es₂, by simp [hes], ?_⟩
    have hnone : es₁.filter (fun e => e.key = k) = [] := List.filter_eq_nil_iff.mpr hes₁
    rw [List.filter_append, hnone, List.append_nil, htake, List.length_take]
    omega
  · rintro ⟨rfl, es, es', hes, rfl⟩
    rw [hes, List.filter_append, List.getElem?_append_right le_rfl, Nat.sub_self]
    simp

section Revise

variable (blank : α → Bool) (f : κ → Outcome α) (trailing : List α)

/-- Revise the rest of a file behind text that is carried over. -/
def reviseFrom : (dropped : Bool) → (carried : List α) → List (Entry κ α) → Document κ α
  | dropped, carried, [] => ⟨[], carried ++ strip blank dropped trailing⟩
  | dropped, carried, e :: es =>
    match f e.key with
    | .keep => (reviseFrom false [] es).cons ⟨e.key, carried ++ strip blank dropped e.gap, e.text⟩
    | .drop => reviseFrom true (carried ++ strip blank dropped e.gap) es
    | .replace text =>
      (reviseFrom false [] es).cons ⟨e.key, carried ++ strip blank dropped e.gap, text⟩

/-- Keep, leave out or replace the items of a file. -/
def revise (doc : Document κ α) : Document κ α := reviseFrom blank f doc.trailing false [] doc.entries

omit [DecidableEq κ] in
/-- The text that is carried over comes first. -/
theorem text_reviseFrom_append (dropped : Bool) (carried carried' : List α)
    (es : List (Entry κ α)) :
    (reviseFrom blank f trailing dropped (carried ++ carried') es).text =
      carried ++ (reviseFrom blank f trailing dropped carried' es).text := by
  induction es generalizing dropped carried' with
  | nil => simp [reviseFrom, text]
  | cons e es ih =>
    rw [reviseFrom, reviseFrom]
    cases f e.key with
    | keep => simp
    | drop =>
      rw [List.append_assoc]
      exact ih true _
    | replace text => simp

theorem texts_reviseFrom (k : κ) (dropped : Bool) (carried : List α) (es : List (Entry κ α)) :
    (reviseFrom blank f trailing dropped carried es).texts k =
      (f k).texts ((es.filter fun e => e.key = k).map Entry.text) := by
  induction es generalizing dropped carried with
  | nil => cases f k <;> rfl
  | cons e es ih =>
    rw [reviseFrom]
    by_cases hk : e.key = k
    · subst hk
      cases hf : f e.key with
      | keep =>
        have := ih false []
        simp only [hf, Outcome.texts, texts, entriesAt] at this ⊢
        simp [this]
      | drop =>
        have := ih true (carried ++ strip blank dropped e.gap)
        simp only [hf, Outcome.texts] at this ⊢
        exact this
      | replace text =>
        have := ih false []
        simp only [hf, Outcome.texts, texts, entriesAt] at this ⊢
        simp [this, List.replicate_succ]
    · have hfilter : (e :: es).filter (fun e => e.key = k) = es.filter fun e => e.key = k :=
        List.filter_cons_of_neg (by simpa using hk)
      rw [hfilter]
      cases f e.key with
      | keep =>
        rw [← ih false []]
        simp [texts, entriesAt, hk]
      | drop => exact ih true _
      | replace text =>
        rw [← ih false []]
        simp [texts, entriesAt, hk]

/-- The items of a revised file. -/
theorem texts_revise (doc : Document κ α) (k : κ) :
    (doc.revise blank f).texts k = (f k).texts (doc.texts k) :=
  texts_reviseFrom ..

omit [DecidableEq κ] in
/-- A file of which all items are kept is not changed. -/
theorem revise_of_keep (doc : Document κ α) (h : ∀ e ∈ doc.entries, f e.key = .keep) :
    doc.revise blank f = doc := by
  obtain ⟨es, trailing⟩ := doc
  unfold revise
  simp only at h ⊢
  induction es with
  | nil => rfl
  | cons e es ih =>
    rw [reviseFrom, h e List.mem_cons_self]
    simp only [ih fun e' he' => h e' (List.mem_cons_of_mem _ he')]
    rfl

omit [DecidableEq κ] in
theorem gaps_reviseFrom (parts : List α → Prop) (hparts : ∀ p q, p <:+ q → parts q → parts p)
    (htrailing : parts trailing) (dropped : Bool) (carried : List α)
    (hcarried : MadeOf parts carried) (es : List (Entry κ α)) (hes : ∀ e ∈ es, parts e.gap) :
    ∀ gap ∈ (reviseFrom blank f trailing dropped carried es).gaps, MadeOf parts gap := by
  induction es generalizing dropped carried with
  | nil =>
    intro gap hgap
    obtain rfl := List.mem_singleton.mp hgap
    exact hcarried.append (.of (hparts _ _ (strip_suffix ..) htrailing))
  | cons e es ih =>
    have hgap : MadeOf parts (carried ++ strip blank dropped e.gap) :=
      hcarried.append (.of (hparts _ _ (strip_suffix ..) (hes e List.mem_cons_self)))
    have hrest := fun e' he' => hes e' (List.mem_cons_of_mem _ he')
    rw [reviseFrom]
    cases f e.key with
    | drop => exact ih true _ hgap hrest
    | keep | replace text =>
      rw [gaps_cons]
      intro gap hmem
      rcases List.mem_cons.mp hmem with rfl | hmem
      · exact hgap
      · exact ih false [] .nil hrest gap hmem

omit [DecidableEq κ] in
/-- The text between the items of a revised file is put together from ends of texts between the
items of the file. -/
theorem gaps_revise (doc : Document κ α) :
    ∀ gap ∈ (doc.revise blank f).gaps, MadeOf (fun piece => ∃ gap ∈ doc.gaps, piece <:+ gap) gap :=
  gaps_reviseFrom _ _ _ _ (fun _ _ hpq ⟨gap, hgap, hq⟩ => ⟨gap, hgap, hpq.trans hq⟩)
    ⟨doc.trailing, by simp [gaps], List.suffix_rfl⟩ false [] .nil _
    fun e he => ⟨e.gap, by simpa [gaps] using .inl ⟨e, he, rfl⟩, List.suffix_rfl⟩

end Revise

end Document
