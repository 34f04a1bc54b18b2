import Maw.Library.Lines
import Maw.Merge.ResolveDetail

/-!
# Texts of bytes by their lines

The text that bytes are taken for has an ASCII character exactly where the bytes have it, so that
it has the lines of the bytes, each taken by itself.

## Main results

* `fromUtf8Lossy_append_cons` — an ASCII byte parts the text.
* `mem_of_mem_fromUtf8Lossy` — the ASCII characters of the text are bytes.
* `prefix_fromUtf8Lossy_iff` — what the text begins with.
* `textLines_unlines_append` — the lines of a text.
-/

open Lines

namespace Maw

/-! ### Characters of several bytes -/

theorem takeFollowers_eq_take (count : ℕ) (low high : UInt8) (bytes : Bytes) :
    takeFollowers count low high bytes =
      bytes.take (takeFollowers count low high bytes).length := by
  fun_induction takeFollowers count low high bytes with
  | case1 count low high b bytes hb ih => rw [List.length_cons, List.take_succ_cons, ← ih]
  | case2 => rfl
  | case3 => rfl

theorem length_takeFollowers_le (count : ℕ) (low high : UInt8) (bytes : Bytes) :
    (takeFollowers count low high bytes).length ≤ bytes.length := by
  rw [takeFollowers_eq_take, List.length_take]
  exact Nat.min_le_right _ _

/-- An ASCII byte does not go on with a character. -/
theorem takeFollowers_append_cons {count : ℕ} {low high c : UInt8} (hlow : 0x80 ≤ low)
    (hc : c < 0x80) (bytes rest : Bytes) :
    takeFollowers count low high (bytes ++ c :: rest) = takeFollowers count low high bytes := by
  fun_induction takeFollowers count low high bytes with
  | case1 count low high b bytes hb ih =>
    rw [List.cons_append, takeFollowers, if_pos hb, ih (by decide)]
  | case2 count low high b bytes hb => rw [List.cons_append, takeFollowers, if_neg hb]
  | case3 count low high bytes hnot =>
    rcases count with _ | count
    · rfl
    · rcases bytes with _ | ⟨b, bytes⟩
      · rw [List.nil_append, takeFollowers, if_neg]
        have hlt : c < low := UInt8.lt_of_lt_of_le hc hlow
        simp [UInt8.not_le.mpr hlt]
      · exact absurd rfl (hnot count b bytes rfl)

theorem head_takeFollowers {count : ℕ} {low high r : UInt8} {bytes rest : Bytes}
    (h : takeFollowers count low high bytes = r :: rest) : low ≤ r ∧ r ≤ high := by
  rcases count with _ | count
  · cases h
  rcases bytes with _ | ⟨b, bytes⟩
  · cases h
  rw [takeFollowers] at h
  split_ifs at h with hb
  obtain ⟨rfl, -⟩ := List.cons.inj h
  simpa using hb

/-- The range of the byte behind the first one. -/
theorem low_of_followers {b low high : UInt8} {count : ℕ}
    (h : followers b = some (count, low, high)) : 0x80 ≤ low := by
  have hall : ∀ b : UInt8, ∀ f ∈ followers b, 0x80 ≤ f.2.1 := by
    rintro ⟨⟨n⟩⟩
    revert n
    decide +kernel
  exact hall b _ h

/-- What the first byte of a character and the next one give is not too small. -/
theorem le_of_followers {b low high : UInt8} {count : ℕ}
    (h : followers b = some (count, low, high)) {r : UInt8} (hlow : low ≤ r) (hhigh : r ≤ high) :
    count = 1 ∧ 2 ≤ b.toNat % 32 ∨ count = 2 ∧ 2 ≤ b.toNat % 16 * 64 + r.toNat % 64 ∨
      count = 3 ∧ 2 ≤ b.toNat % 8 * 64 + r.toNat % 64 := by
  have hall : ∀ b : UInt8, ∀ f ∈ followers b, f.1 = 1 ∧ 2 ≤ b.toNat % 32 ∨
      (f.1 = 2 ∨ f.1 = 3) ∧ (1 ≤ b.toNat % 2 ^ (6 - f.1) ∨ 0x90 ≤ f.2.1 ∧ f.2.2 = 0xBF) := by
    rintro ⟨⟨n⟩⟩
    revert n
    decide +kernel
  have hlow' := UInt8.le_iff_toNat_le.mp hlow
  have hhigh' := UInt8.le_iff_toNat_le.mp hhigh
  have hnext : 0x90 ≤ low ∧ high = 0xBF → 2 ≤ r.toNat % 64 := by
    rintro ⟨hlow, rfl⟩
    have hlow := UInt8.le_iff_toNat_le.mp hlow
    change 0x90 ≤ low.toNat at hlow
    change r.toNat ≤ 0xBF at hhigh'
    omega
  rcases hall b _ h with ⟨rfl, hb⟩ | ⟨rfl | rfl, hb⟩
  · exact .inl ⟨rfl, hb⟩
  · refine .inr (.inl ⟨rfl, ?_⟩)
    rcases hb with hb | hb
    · change 1 ≤ b.toNat % 2 ^ 4 at hb
      omega
    · have := hnext hb
      omega
  · refine .inr (.inr ⟨rfl, ?_⟩)
    rcases hb with hb | hb
    · change 1 ≤ b.toNat % 2 ^ 3 at hb
      omega
    · have := hnext hb
      omega

/-- A character of several bytes is none of ASCII. -/
theorem le_codePoint {b low high : UInt8} {count : ℕ} {bytes : Bytes}
    (h : followers b = some (count, low, high))
    (hlength : (takeFollowers count low high bytes).length = count) :
    0x80 ≤ codePoint b (takeFollowers count low high bytes) := by
  rcases hrest : takeFollowers count low high bytes with _ | ⟨r, rest⟩
  · rw [hrest] at hlength
    have hpos : ∀ b : UInt8, ∀ f ∈ followers b, f.1 ≠ 0 := by
      rintro ⟨⟨n⟩⟩
      revert n
      decide +kernel
    exact absurd hlength.symm (hpos b _ h)
  rw [hrest, List.length_cons] at hlength
  obtain ⟨hlow, hhigh⟩ := head_takeFollowers hrest
  rcases le_of_followers h hlow hhigh with ⟨rfl, hb⟩ | ⟨rfl, hb⟩ | ⟨rfl, hb⟩
  · obtain rfl := List.length_eq_zero_iff.mp (Nat.succ.inj hlength)
    change 0x80 ≤ b.toNat % 2 ^ 5 * 64 + r.toNat % 64
    omega
  · obtain ⟨s, rfl⟩ := List.length_eq_one_iff.mp (Nat.succ.inj hlength)
    change 0x80 ≤ (b.toNat % 2 ^ 4 * 64 + r.toNat % 64) * 64 + s.toNat % 64
    omega
  · obtain ⟨s, t, rfl⟩ := List.length_eq_two.mp (Nat.succ.inj hlength)
    change 0x80 ≤ ((b.toNat % 2 ^ 3 * 64 + r.toNat % 64) * 64 + s.toNat % 64) * 64 + t.toNat % 64
    omega

/-! ### ASCII characters -/

/-- The character of an ASCII byte. -/
def asciiChar (b : UInt8) : Char := Char.ofNat b.toNat

theorem toNat_asciiChar {b : UInt8} (h : b < 0x80) : (asciiChar b).toNat = b.toNat := by
  have hlt : b.toNat < 0x80 := UInt8.lt_iff_toNat_lt.mp h
  have hvalid : b.toNat.isValidChar := .inl (by omega)
  rw [asciiChar, Char.ofNat, dif_pos hvalid]
  rfl

theorem asciiChar_inj {b c : UInt8} (hb : b < 0x80) (hc : c < 0x80)
    (h : asciiChar b = asciiChar c) : b = c := by
  rw [← UInt8.toNat_inj, ← toNat_asciiChar hb, ← toNat_asciiChar hc, h]

theorem fromUtf8Lossy_cons {b : UInt8} (h : b < 0x80) (bytes : Bytes) :
    fromUtf8Lossy (b :: bytes) = asciiChar b :: fromUtf8Lossy bytes := by
  rw [fromUtf8Lossy, if_pos h, asciiChar]

/-- Bytes with an ASCII byte among them are the texts of what stands in front of it and behind
it. -/
theorem fromUtf8Lossy_append_cons {c : UInt8} (hc : c < 0x80) (bytes rest : Bytes) :
    fromUtf8Lossy (bytes ++ c :: rest) =
      fromUtf8Lossy bytes ++ asciiChar c :: fromUtf8Lossy rest := by
  induction bytes using fromUtf8Lossy.induct with
  | case1 => rw [List.nil_append, fromUtf8Lossy_cons hc, fromUtf8Lossy, List.nil_append]
  | case2 b bytes hb ih =>
    rw [List.cons_append, fromUtf8Lossy_cons hb, fromUtf8Lossy_cons hb, ih, List.cons_append]
  | case3 b bytes hb hnone ih =>
    rw [List.cons_append, fromUtf8Lossy, fromUtf8Lossy, if_neg hb, if_neg hb, hnone]
    exact congrArg ('\uFFFD' :: ·) ih
  | case4 b bytes hb count low high hsome more ih =>
    have hmore : takeFollowers count low high (bytes ++ c :: rest) = more :=
      takeFollowers_append_cons (low_of_followers hsome) hc bytes rest
    rw [List.cons_append, fromUtf8Lossy, fromUtf8Lossy, if_neg hb, if_neg hb, hsome]
    simp only
    rw [hmore, List.drop_append_of_le_length (length_takeFollowers_le count low high bytes), ih]
    rfl

theorem eq_nil_of_fromUtf8Lossy {bytes : Bytes} (h : fromUtf8Lossy bytes = []) : bytes = [] := by
  rcases bytes with _ | ⟨b, bytes⟩
  · rfl
  · rw [fromUtf8Lossy] at h
    split_ifs at h
    split at h <;> cases h

/-- A character behind the ASCII ones, or zero for a number that is no character. -/
theorem toNat_ofNat_cases {n : ℕ} (h : 0x80 ≤ n) :
    0x80 ≤ (Char.ofNat n).toNat ∨ (Char.ofNat n).toNat = 0 := by
  by_cases hvalid : n.isValidChar
  · rw [Char.ofNat, dif_pos hvalid]
    exact .inl h
  · rw [Char.ofNat, dif_neg hvalid]
    exact .inr rfl

/-- Where a text begins with an ASCII character, the bytes begin with it. -/
theorem cons_of_fromUtf8Lossy {bytes : Bytes} {c : Char} {cs : List Char}
    (h : fromUtf8Lossy bytes = c :: cs) (hc : c.toNat < 0x80) (hzero : c.toNat ≠ 0) :
    ∃ b rest, bytes = b :: rest ∧ b < 0x80 ∧ c = asciiChar b ∧ cs = fromUtf8Lossy rest := by
  rcases bytes with _ | ⟨b, rest⟩
  · rw [fromUtf8Lossy] at h
    cases h
  by_cases hb : b < 0x80
  · rw [fromUtf8Lossy_cons hb] at h
    obtain ⟨rfl, rfl⟩ := List.cons.inj h
    exact ⟨b, rest, rfl, hb, rfl, rfl⟩
  · exfalso
    have hreplacement : ('\uFFFD').toNat = 0xFFFD := rfl
    rw [fromUtf8Lossy, if_neg hb] at h
    split at h
    · obtain ⟨rfl, -⟩ := List.cons.inj h
      omega
    · rename_i count low high hsome
      obtain ⟨rfl, -⟩ := List.cons.inj h
      split_ifs at hc hzero with hlength
      · rcases toNat_ofNat_cases (le_codePoint hsome hlength) with hlarge | hnone
        · exact absurd hc (Nat.not_lt.mpr hlarge)
        · exact hzero hnone
      · omega

/-- Bytes that are looked for in the text. -/
def IsAscii (part : Bytes) : Prop := ∀ b ∈ part, b < 0x80 ∧ b ≠ 0

theorem fromUtf8Lossy_of_isAscii {part : Bytes} (h : IsAscii part) :
    fromUtf8Lossy part = part.map asciiChar := by
  induction part with
  | nil => rw [fromUtf8Lossy, List.map_nil]
  | cons b part ih =>
    obtain ⟨⟨hb, -⟩, hpart⟩ := List.forall_mem_cons.mp h
    rw [fromUtf8Lossy_cons hb, ih hpart, List.map_cons]

/-- A text begins with an ASCII text exactly if the bytes do. -/
theorem prefix_fromUtf8Lossy_iff {part bytes : Bytes} (h : IsAscii part) :
    part.map asciiChar <+: fromUtf8Lossy bytes ↔ part <+: bytes := by
  induction part generalizing bytes with
  | nil => simp
  | cons b part ih =>
    obtain ⟨⟨hb, hzero⟩, hpart⟩ := List.forall_mem_cons.mp h
    have hzero' : b.toNat ≠ 0 := fun heq => hzero (UInt8.toNat_inj.mp heq)
    have hlt : b.toNat < 0x80 := UInt8.lt_iff_toNat_lt.mp hb
    rw [List.map_cons]
    constructor
    · rintro ⟨more, hmore⟩
      obtain ⟨c, rest, rfl, hc, hbc, hrest⟩ := cons_of_fromUtf8Lossy hmore.symm
        (by rwa [toNat_asciiChar hb]) (by rwa [toNat_asciiChar hb])
      obtain rfl := asciiChar_inj hb hc hbc
      rw [List.cons_prefix_cons]
      exact ⟨rfl, (ih hpart).mp ⟨more, hrest⟩⟩
    · rintro ⟨more, rfl⟩
      rw [List.cons_append, fromUtf8Lossy_cons hb, List.cons_prefix_cons]
      exact ⟨rfl, (ih hpart).mpr (List.prefix_append part more)⟩

/-- An ASCII character of a text is a byte. -/
theorem mem_of_mem_fromUtf8Lossy {bytes : Bytes} {b : UInt8} (hb : b < 0x80) (hzero : b ≠ 0)
    (h : asciiChar b ∈ fromUtf8Lossy bytes) : b ∈ bytes := by
  have hlt : b.toNat < 0x80 := UInt8.lt_iff_toNat_lt.mp hb
  have hzero' : b.toNat ≠ 0 := fun heq => hzero (UInt8.toNat_inj.mp heq)
  have hfirst {more : Bytes} {cs : List Char} (heq : fromUtf8Lossy more = asciiChar b :: cs) :
      b ∈ more := by
    obtain ⟨c, rest, rfl, hc, hbc, -⟩ := cons_of_fromUtf8Lossy heq
      (by rwa [toNat_asciiChar hb]) (by rwa [toNat_asciiChar hb])
    rw [asciiChar_inj hb hc hbc]
    exact List.mem_cons_self
  induction bytes using fromUtf8Lossy.induct with
  | case1 =>
    rw [fromUtf8Lossy] at h
    exact absurd h List.not_mem_nil
  | case2 c bytes hc ih =>
    rw [fromUtf8Lossy_cons hc] at h
    rcases List.mem_cons.mp h with h | h
    · rw [asciiChar_inj hb hc h]
      exact List.mem_cons_self
    · exact List.mem_cons_of_mem _ (ih h)
  | case3 c bytes hc hnone ih =>
    have heq : fromUtf8Lossy (c :: bytes) = '\uFFFD' :: fromUtf8Lossy bytes := by
      rw [fromUtf8Lossy, if_neg hc, hnone]
    rw [heq] at h
    rcases List.mem_cons.mp h with h | h
    · exact hfirst (heq.trans (by rw [h]))
    · exact List.mem_cons_of_mem _ (ih h)
  | case4 c bytes hc count low high hsome more ih =>
    rcases hcs : fromUtf8Lossy (c :: bytes) with _ | ⟨first, cs⟩
    · rw [hcs] at h
      exact absurd h List.not_mem_nil
    have hcs' : cs = fromUtf8Lossy (bytes.drop more.length) := by
      rw [fromUtf8Lossy, if_neg hc, hsome] at hcs
      exact (List.cons.inj hcs).2.symm
    rw [hcs] at h
    rcases List.mem_cons.mp h with h | h
    · exact hfirst (hcs.trans (by rw [h]))
    · exact List.mem_cons_of_mem _ (List.mem_of_mem_drop (ih (hcs' ▸ h)))

/-- A text ends in an ASCII character exactly if the bytes do. -/
theorem getLast?_fromUtf8Lossy_iff {bytes : Bytes} {b : UInt8} (hb : b < 0x80) (hzero : b ≠ 0) :
    (fromUtf8Lossy bytes).getLast? = some (asciiChar b) ↔ bytes.getLast? = some b := by
  constructor
  · intro h
    have hlt : b.toNat < 0x80 := UInt8.lt_iff_toNat_lt.mp hb
    have hzero' : b.toNat ≠ 0 := fun heq => hzero (UInt8.toNat_inj.mp heq)
    -- Of a text with one character the bytes are that character.
    have hsingle {more : Bytes} (heq : fromUtf8Lossy more = [asciiChar b]) :
        more.getLast? = some b := by
      obtain ⟨c, rest, rfl, hc, hbc, hrest⟩ := cons_of_fromUtf8Lossy heq
        (by rwa [toNat_asciiChar hb]) (by rwa [toNat_asciiChar hb])
      rw [asciiChar_inj hb hc hbc, eq_nil_of_fromUtf8Lossy hrest.symm]
      rfl
    have hmore (front back : Bytes) {first : Char} {cs : List Char}
        (hcs : fromUtf8Lossy (front ++ back) = first :: cs) (hback : cs = fromUtf8Lossy back)
        (hlast : (first :: cs).getLast? = some (asciiChar b))
        (ih : (fromUtf8Lossy back).getLast? = some (asciiChar b) → back.getLast? = some b) :
        (front ++ back).getLast? = some b := by
      rcases cs with _ | ⟨second, cs⟩
      · have hfirst : first = asciiChar b := Option.some.inj hlast
        exact hsingle (hcs.trans (by rw [hfirst]))
      · rw [List.getLast?_cons_cons, hback] at hlast
        rw [List.getLast?_append, ih hlast, Option.some_or]
    induction bytes using fromUtf8Lossy.induct with
    | case1 =>
      rw [fromUtf8Lossy] at h
      cases h
    | case2 c bytes hc ih =>
      have heq := fromUtf8Lossy_cons hc bytes
      exact hmore [c] bytes heq rfl (heq ▸ h) ih
    | case3 c bytes hc hnone ih =>
      have heq : fromUtf8Lossy (c :: bytes) = '\uFFFD' :: fromUtf8Lossy bytes := by
        rw [fromUtf8Lossy, if_neg hc, hnone]
      exact hmore [c] bytes heq rfl (heq ▸ h) ih
    | case4 c bytes hc count low high hsome more ih =>
      rcases hcs : fromUtf8Lossy (c :: bytes) with _ | ⟨first, cs⟩
      · rw [hcs] at h
        cases h
      have hcs' : cs = fromUtf8Lossy (bytes.drop more.length) := by
        rw [fromUtf8Lossy, if_neg hc, hsome] at hcs
        exact (List.cons.inj hcs).2.symm
      have hparts : c :: bytes = (c :: bytes.take more.length) ++ bytes.drop more.length := by
        rw [List.cons_append, List.take_append_drop]
      rw [hcs] at h
      rw [hparts] at hcs ⊢
      exact hmore (c :: bytes.take more.length) (bytes.drop more.length) hcs hcs' h ih
  · intro h
    obtain ⟨front, rfl⟩ := List.getLast?_eq_some_iff.mp h
    rw [fromUtf8Lossy_append_cons hb, fromUtf8Lossy, List.getLast?_concat]

/-! ### Lines -/

theorem splitInclusive_append_cons {line : List Char} (h : '\n' ∉ line) (rest : List Char) :
    splitInclusive (line ++ '\n' :: rest) = (line ++ ['\n']) :: splitInclusive rest := by
  induction line with
  | nil => rw [List.nil_append, splitInclusive, if_pos rfl, List.nil_append]
  | cons c line ih =>
    obtain ⟨hc, hline⟩ := not_or.mp (List.mem_cons.not.mp h)
    rw [List.cons_append, splitInclusive, if_neg (Ne.symm hc), ih hline]
    rfl

theorem splitInclusive_of_not_mem {line : List Char} (h : '\n' ∉ line) (hne : line ≠ []) :
    splitInclusive line = [line] := by
  induction line with
  | nil => exact absurd rfl hne
  | cons c line ih =>
    obtain ⟨hc, hline⟩ := not_or.mp (List.mem_cons.not.mp h)
    rw [splitInclusive, if_neg (Ne.symm hc)]
    rcases line with _ | ⟨d, line⟩
    · rfl
    · rw [ih hline (List.cons_ne_nil _ _)]

/-- A line without a carriage return at its end. -/
def chopReturn (line : List Char) : List Char :=
  if line.getLast? = some '\r' then line.dropLast else line

theorem prefix_chopReturn_iff {part line : List Char} (h : part.getLast? ≠ some '\r') :
    part <+: chopReturn line ↔ part <+: line := by
  rw [chopReturn]
  split_ifs with hlast
  · obtain ⟨front, rfl⟩ := List.getLast?_eq_some_iff.mp hlast
    rw [List.dropLast_concat, List.prefix_concat_iff]
    refine ⟨.inr, fun hpart => hpart.resolve_left ?_⟩
    rintro rfl
    exact h List.getLast?_concat
  · exact Iff.rfl

theorem stripLineEnd_append (line : List Char) :
    stripLineEnd (line ++ ['\n']) = chopReturn line := by
  rcases List.eq_nil_or_concat line with rfl | ⟨front, c, rfl⟩
  · rfl
  · have hreverse : (front ++ [c] ++ ['\n']).reverse = '\n' :: c :: front.reverse := by simp
    rw [List.concat_eq_append, stripLineEnd, hreverse, chopReturn, List.getLast?_concat,
      List.dropLast_concat]
    by_cases hc : c = '\r'
    · subst hc
      simp
    · rw [if_neg (fun h => hc (Option.some.inj h))]
      split
      · rename_i heq
        exact absurd (List.cons.inj (List.cons.inj heq).2).1 hc
      · rename_i heq
        rw [← (List.cons.inj heq).2]
        simp
      · rename_i hnot
        exact absurd rfl (hnot (c :: front.reverse))

/-- What stands behind the last line feed is one line, or none. -/
theorem textLines_of_not_mem {last : Bytes} (h : 0x0A ∉ last) :
    ∃ line, textLines (fromUtf8Lossy last) = if last = [] then [] else [line] := by
  have hfree : '\n' ∉ fromUtf8Lossy last :=
    fun hmem => h (mem_of_mem_fromUtf8Lossy (by decide) (by decide) hmem)
  rcases eq_or_ne last [] with rfl | hne
  · exact ⟨[], by rw [fromUtf8Lossy]; rfl⟩
  · have hnil : fromUtf8Lossy last ≠ [] := fun hnil => hne (eq_nil_of_fromUtf8Lossy hnil)
    rw [textLines, splitInclusive_of_not_mem hfree hnil]
    exact ⟨stripLineEnd (fromUtf8Lossy last), by rw [if_neg hne]; rfl⟩

/-- A line of bytes as it is among the lines of the text. -/
def seen (line : Bytes) : List Char := chopReturn (fromUtf8Lossy line)

/-- The lines of a text are those of the bytes. -/
theorem textLines_unlines_append {lines : List Bytes} (h : ∀ line ∈ lines, 0x0A ∉ line)
    {rest : Bytes} :
    textLines (fromUtf8Lossy (unlines 0x0A lines ++ rest)) =
      lines.map seen ++ textLines (fromUtf8Lossy rest) := by
  induction lines with
  | nil => rfl
  | cons line lines ih =>
    obtain ⟨hline, hlines⟩ := List.forall_mem_cons.mp h
    have hfree : '\n' ∉ fromUtf8Lossy line :=
      fun hmem => hline (mem_of_mem_fromUtf8Lossy (by decide) (by decide) hmem)
    rw [unlines_cons, List.append_assoc, List.cons_append, fromUtf8Lossy_append_cons (by decide)]
    change textLines (fromUtf8Lossy line ++ '\n' :: fromUtf8Lossy (unlines 0x0A lines ++ rest)) = _
    rw [textLines, splitInclusive_append_cons hfree, List.map_cons, stripLineEnd_append,
      ← textLines, ih hlines, List.map_cons, List.cons_append, seen]

end Maw
