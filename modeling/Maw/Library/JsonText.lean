import Mathlib.Data.List.Basic
import Mathlib.Data.Char
import Mathlib.Data.String.Basic
import Maw.Library.Hex

/-!
# JSON texts of records

The text of a record whose fields are strings or null, without spaces and in the order of its
fields. Strings are escaped so that a text ends where its record does: two records with the same
text are the same.

## Main definitions

* `escapeChar`, `quoted` — strings in quotes.
* `recordText` — records.

## Main results

* `recordText_injective` — a record can be read from its text.
-/

namespace JsonText

/-- A character inside quotes. -/
def escapeChar (c : Char) : List Char :=
  match c.toNat with
  | 34 => ['\\', c]
  | 92 => ['\\', c]
  | 8 => ['\\', 'b']
  | 9 => ['\\', 't']
  | 10 => ['\\', 'n']
  | 12 => ['\\', 'f']
  | 13 => ['\\', 'r']
  | n => if n < 32 then ['\\', 'u', '0', '0', Hex.digit (n / 16), Hex.digit (n % 16)] else [c]

/-- The quotation mark. -/
def quote : Char := Char.ofNat 34

/-- A string in quotes. -/
def quoted (s : String) : List Char := quote :: (s.toList.flatMap escapeChar ++ [quote])

/-- A value that may be missing. -/
def optionText : Option String → List Char
  | none => ['n', 'u', 'l', 'l']
  | some s => quoted s

/-- A field. -/
def fieldText (field : String × Option String) : List Char :=
  quoted field.1 ++ ':' :: optionText field.2

/-- The fields after the first one, and the end of a record. -/
def moreText : List (String × Option String) → List Char
  | [] => ['}']
  | field :: fields => ',' :: (fieldText field ++ moreText fields)

/-- The text of a record. -/
def recordText : List (String × Option String) → String
  | [] => String.ofList ['{', '}']
  | field :: fields => String.ofList ('{' :: (fieldText field ++ moreText fields))

/-! ### Reading back -/

/-- The codes of the characters that are escaped. -/
def escapedCodes : List ℕ := 34 :: 92 :: List.range 32

theorem escapeChar_of_not_mem {c : Char} (h : c.toNat ∉ escapedCodes) : escapeChar c = [c] := by
  have hne : c.toNat ≠ 34 ∧ c.toNat ≠ 92 ∧ ¬ c.toNat < 32 := by
    simpa [escapedCodes] using h
  unfold escapeChar
  split
  case h_8 => exact if_neg hne.2.2
  all_goals omega

/-- The texts of escaped characters begin with a backslash, and none of them begins with the text
of another one. -/
theorem escapeChar_ofNat : ∀ m ∈ escapedCodes, (escapeChar (Char.ofNat m)).head? = some '\\' ∧
    ∀ n ∈ escapedCodes, escapeChar (Char.ofNat m) <+: escapeChar (Char.ofNat n) → m = n := by
  decide +kernel

theorem head_escapeChar {c : Char} (h : c.toNat ∈ escapedCodes) :
    ∃ rest, escapeChar c = '\\' :: rest := by
  have hhead := (escapeChar_ofNat c.toNat h).1
  rw [Char.ofNat_toNat] at hhead
  exact List.head?_eq_some_iff.mp hhead

theorem eq_of_prefix_escapeChar {c d : Char} (hc : c.toNat ∈ escapedCodes)
    (hd : d.toNat ∈ escapedCodes) (h : escapeChar c <+: escapeChar d) : c = d := by
  have heq := (escapeChar_ofNat c.toNat hc).2 d.toNat hd
  rw [Char.ofNat_toNat, Char.ofNat_toNat] at heq
  rw [← Char.ofNat_toNat c, heq h, Char.ofNat_toNat]

/-- No character is written as a quotation mark or something that begins with one. -/
theorem head_escapeChar_ne (c : Char) : ∃ d rest, escapeChar c = d :: rest ∧ d ≠ quote := by
  by_cases h : c.toNat ∈ escapedCodes
  · obtain ⟨rest, heq⟩ := head_escapeChar h
    exact ⟨_, rest, heq, by decide⟩
  · refine ⟨c, [], escapeChar_of_not_mem h, ?_⟩
    rintro rfl
    exact h (by decide)

/-- Characters are read back from what they are written as. -/
theorem escapeChar_append_inj {c d : Char} {x y : List Char}
    (h : escapeChar c ++ x = escapeChar d ++ y) : c = d ∧ x = y := by
  have hslash (c : Char) (hc : c.toNat ∉ escapedCodes) : c ≠ '\\' := by
    rintro rfl
    exact hc (by decide)
  by_cases hc : c.toNat ∈ escapedCodes <;> by_cases hd : d.toNat ∈ escapedCodes
  · have heq : c = d := by
      rcases List.prefix_or_prefix_of_prefix (List.prefix_append (escapeChar c) x)
        (h ▸ List.prefix_append (escapeChar d) y) with hprefix | hprefix
      · exact eq_of_prefix_escapeChar hc hd hprefix
      · exact (eq_of_prefix_escapeChar hd hc hprefix).symm
    subst heq
    exact ⟨rfl, List.append_cancel_left h⟩
  · obtain ⟨rest, heq⟩ := head_escapeChar hc
    rw [heq, escapeChar_of_not_mem hd] at h
    exact absurd (List.cons.inj h).1.symm (hslash d hd)
  · obtain ⟨rest, heq⟩ := head_escapeChar hd
    rw [heq, escapeChar_of_not_mem hc] at h
    exact absurd (List.cons.inj h).1 (hslash c hc)
  · rw [escapeChar_of_not_mem hc, escapeChar_of_not_mem hd] at h
    exact List.cons.inj h

theorem escaped_append_inj {l m : List Char} {x y : List Char}
    (h : l.flatMap escapeChar ++ quote :: x = m.flatMap escapeChar ++ quote :: y) :
    l = m ∧ x = y := by
  induction l generalizing m with
  | nil =>
    cases m with
    | nil => exact ⟨rfl, (List.cons.inj h).2⟩
    | cons d m =>
      obtain ⟨e, rest, heq, hne⟩ := head_escapeChar_ne d
      rw [List.flatMap_cons, heq] at h
      exact absurd (List.cons.inj h).1.symm hne
  | cons c l ih =>
    cases m with
    | nil =>
      obtain ⟨e, rest, heq, hne⟩ := head_escapeChar_ne c
      rw [List.flatMap_cons, heq] at h
      exact absurd (List.cons.inj h).1 hne
    | cons d m =>
      rw [List.flatMap_cons, List.flatMap_cons, List.append_assoc, List.append_assoc] at h
      obtain ⟨rfl, hrest⟩ := escapeChar_append_inj h
      obtain ⟨rfl, hxy⟩ := ih hrest
      exact ⟨rfl, hxy⟩

/-- A string in quotes is read back, whatever follows. -/
theorem quoted_append_inj {s t : String} {x y : List Char} (h : quoted s ++ x = quoted t ++ y) :
    s = t ∧ x = y := by
  rw [quoted, quoted, List.cons_append, List.cons_append, List.append_assoc, List.append_assoc]
    at h
  obtain ⟨hlist, hxy⟩ := escaped_append_inj (List.cons.inj h).2
  exact ⟨String.toList_injective hlist, hxy⟩

theorem optionText_append_inj {a b : Option String} {x y : List Char}
    (h : optionText a ++ x = optionText b ++ y) : a = b ∧ x = y := by
  have hquote : 'n' ≠ quote := by decide
  rcases a with _ | a <;> rcases b with _ | b
  · exact ⟨rfl, List.append_cancel_left h⟩
  · exact absurd (List.cons.inj h).1 hquote
  · exact absurd (List.cons.inj h).1.symm hquote
  · obtain ⟨rfl, hxy⟩ := quoted_append_inj h
    exact ⟨rfl, hxy⟩

theorem fieldText_append_inj {a b : String × Option String} {x y : List Char}
    (h : fieldText a ++ x = fieldText b ++ y) : a = b ∧ x = y := by
  rw [fieldText, fieldText, List.append_assoc, List.append_assoc] at h
  obtain ⟨hkey, hrest⟩ := quoted_append_inj h
  obtain ⟨hvalue, hxy⟩ := optionText_append_inj (List.cons.inj hrest).2
  exact ⟨Prod.ext hkey hvalue, hxy⟩

theorem moreText_injective : Function.Injective moreText := by
  have hcomma : '}' ≠ ',' := by decide
  intro l
  induction l with
  | nil =>
    rintro (_ | ⟨field, m⟩) h
    · rfl
    · exact absurd (List.cons.inj h).1 hcomma
  | cons field l ih =>
    rintro (_ | ⟨field', m⟩) h
    · exact absurd (List.cons.inj h).1.symm hcomma
    · obtain ⟨rfl, hrest⟩ := fieldText_append_inj (List.cons.inj h).2
      rw [ih hrest]

/-- Records with the same text are the same. -/
theorem recordText_injective : Function.Injective recordText := by
  have hend (field : String × Option String) (x : List Char) : ['}'] ≠ fieldText field ++ x :=
    fun h => absurd (List.cons.inj h).1 (by decide)
  rintro (_ | ⟨field, l⟩) (_ | ⟨field', m⟩) h
  · rfl
  · exact absurd (List.cons.inj (String.ofList_injective h)).2 (hend _ _)
  · exact absurd (List.cons.inj (String.ofList_injective h)).2.symm (hend _ _)
  · obtain ⟨rfl, hrest⟩ := fieldText_append_inj (List.cons.inj (String.ofList_injective h)).2
    rw [moreText_injective hrest]

end JsonText
