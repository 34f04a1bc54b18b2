import Mathlib.Algebra.Order.BigOperators.Group.List
import Maw.Lfs.Pointer

/-!
# Reading pointers and writing them again

A pointer that is read is written with its lines sorted, and read again as the same pointer. The
bytes are those that were read, up to the order of their lines, unless these have an empty line or
a size that is not spelled as it is written; a second version line is kept as an unknown key.

## Main definitions

* `Reads` — the pairs of keys and values that a pointer is read from.
* `Documented` — the bytes of a pointer as the format describes them.
* `Plain` — no line is empty, none is a version line again, and the size is spelled plainly.

## Main results

* `parse_ok_iff` — the bytes that are accepted.
* `roundTrip_of_parse` — what was read is read again from what is written.
* `pointer_codec_iff` — when the bytes are documented ones, and written back but for the order.
-/

open Lines

namespace Maw.Lfs

/-! ### Values -/

theorem hexByte_hexChar : ∀ b : UInt8,
    hexByte (hexChar (b >>> 4)) (hexChar (b &&& 0x0F)) = some b := by
  rintro ⟨⟨n⟩⟩
  revert n
  decide +kernel

/-- A digit in lower case is that of its value. -/
theorem eq_hexChar_of_hexDigit {b n : UInt8} (h : hexDigit b = some n)
    (hlower : isAsciiUppercase b = false) : b = hexChar n ∧ n.toNat < 16 := by
  have hall : ∀ b : UInt8, isAsciiUppercase b = false →
      (hexDigit b).all (fun n => b = hexChar n ∧ n.toNat < 16) := by
    rintro ⟨⟨n⟩⟩
    revert n
    decide +kernel
  have hb := hall b hlower
  rw [h] at hb
  exact of_decide_eq_true hb

theorem eq_hexChar_of_hexByte {hi lo byte : UInt8} (h : hexByte hi lo = some byte) :
    hi = hexChar (byte >>> 4) ∧ lo = hexChar (byte &&& 0x0F) := by
  have hhalves : ∀ m < 16, ∀ n < 16, (UInt8.ofNat m <<< 4 ||| UInt8.ofNat n) >>> 4 = UInt8.ofNat m ∧
      (UInt8.ofNat m <<< 4 ||| UInt8.ofNat n) &&& 0x0F = UInt8.ofNat n := by
    decide +kernel
  rw [hexByte] at h
  split at h
  · rename_i m n hm hn
    split_ifs at h with hupper
    obtain rfl := Option.some.inj h
    rw [Bool.or_eq_true, not_or, Bool.not_eq_true, Bool.not_eq_true] at hupper
    obtain ⟨hhi, hmlt⟩ := eq_hexChar_of_hexDigit hm hupper.1
    obtain ⟨hlo, hnlt⟩ := eq_hexChar_of_hexDigit hn hupper.2
    have hboth := hhalves m.toNat hmlt n.toNat hnlt
    rw [UInt8.ofNat_toNat, UInt8.ofNat_toNat] at hboth
    rw [hboth.1, hboth.2]
    exact ⟨hhi, hlo⟩
  · cases h

/-- The digits of bytes. -/
def hexOf (bytes : Bytes) : Bytes :=
  bytes.flatMap fun (byte : UInt8) => [hexChar (byte >>> 4), hexChar (byte &&& 0x0F)]

theorem length_hexOf (bytes : Bytes) : (hexOf bytes).length = 2 * bytes.length := by
  induction bytes with
  | nil => rfl
  | cons byte bytes ih =>
    rw [hexOf, List.flatMap_cons, ← hexOf, List.length_append, ih, List.length_cons]
    simp only [List.length_cons, List.length_nil]
    omega

theorem hexBytes_hexOf (bytes : Bytes) : hexBytes (hexOf bytes) = some bytes := by
  induction bytes with
  | nil => rfl
  | cons byte bytes ih =>
    rw [hexOf, List.flatMap_cons, ← hexOf]
    change hexBytes (hexChar (byte >>> 4) :: hexChar (byte &&& 0x0F) :: hexOf bytes) = _
    rw [hexBytes, hexByte_hexChar, ih]

theorem eq_hexOf_of_hexBytes {hex bytes : Bytes} (h : hexBytes hex = some bytes)
    (heven : hex.length % 2 = 0) : hex = hexOf bytes := by
  fun_induction hexBytes hex generalizing bytes with
  | case1 hi lo rest byte rest' hrest hbyte ih =>
    obtain rfl := Option.some.inj h
    obtain ⟨hhi, hlo⟩ := eq_hexChar_of_hexByte hbyte
    rw [List.length_cons, List.length_cons] at heven
    rw [ih hrest (by omega), hhi, hlo]
    rfl
  | case2 => cases h
  | case3 hex hnot =>
    obtain rfl := Option.some.inj h
    rcases hex with _ | ⟨hi, _ | ⟨lo, rest⟩⟩
    · rfl
    · cases heven
    · exact absurd rfl (hnot hi lo rest)

theorem stripPrefix_eq_some_iff {part text rest : Bytes} :
    stripPrefix part text = some rest ↔ text = part ++ rest := by
  rw [stripPrefix]
  split_ifs with h
  · obtain ⟨rest', rfl⟩ := List.isPrefixOf_iff_prefix.mp h
    rw [List.drop_left, Option.some_inj, List.append_cancel_left_eq]
  · refine iff_of_false nofun fun heq => h ?_
    rw [heq]
    exact List.isPrefixOf_iff_prefix.mpr (List.prefix_append part rest)

/-- A hash has one spelling. -/
theorem parseOid_eq_some_iff {value : Bytes} {oid : Oid} :
    parseOid value = some oid ↔ value = sha256 ++ oidHex oid := by
  have hlength : (hexOf oid.val).length = 64 := by rw [length_hexOf, oid.property]
  rw [parseOid]
  constructor
  · intro h
    split at h
    · cases h
    · rename_i hex hstrip
      split_ifs at h with hlen
      split at h
      · cases h
      · rename_i bytes hbytes
        split_ifs at h with hoid
        obtain rfl := Option.some.inj h
        rw [stripPrefix_eq_some_iff.mp hstrip,
          eq_hexOf_of_hexBytes hbytes (by rw [not_ne_iff.mp hlen])]
        rfl
  · intro h
    have hhex : oidHex oid = hexOf oid.val := rfl
    rw [stripPrefix_eq_some_iff.mpr h, hhex]
    simp only
    rw [if_neg (not_ne_iff.mpr hlength), hexBytes_hexOf]
    exact dif_pos oid.property

theorem parseU64_eq_some_iff {text : Bytes} {n : UInt64} :
    parseU64 text = some n ↔ digitsOf text ≠ [] ∧ (∀ b ∈ digitsOf text, Decimal.isDigit b) ∧
      Decimal.value (digitsOf text) = n.toNat := by
  have hn : n.toNat < 2 ^ 64 := n.toNat_lt
  simp only [parseU64]
  rw [← List.all_eq_true]
  by_cases hempty : digitsOf text = []
  · simp [hempty]
  by_cases hdigits : (digitsOf text).all Decimal.isDigit = true
  · rw [if_neg (by simp [hempty, hdigits])]
    simp only [hempty, hdigits, ne_eq, not_false_eq_true, true_and]
    split_ifs with hlt
    · rw [Option.some_inj, ← UInt64.toNat_inj, UInt64.toNat_ofNat_of_lt' hlt]
    · exact iff_of_false nofun (by omega)
  · rw [if_pos (by simp [hdigits])]
    exact iff_of_false nofun fun h => hdigits h.2.1

/-- A number is not spelled with a plus sign or a superfluous zero. -/
def PlainSize (text : Bytes) : Prop :=
  text.head? ≠ some 0x2B ∧ (text.head? = some 0x30 → text = [0x30])

theorem digitsOf_of_head? {text : Bytes} (h : text.head? ≠ some 0x2B) : digitsOf text = text := by
  rw [digitsOf.eq_def]
  split
  · exact absurd rfl h
  · rfl

theorem length_digitsOf_le (text : Bytes) : (digitsOf text).length ≤ text.length := by
  rw [digitsOf.eq_def]
  split
  · exact Nat.le_succ _
  · exact le_rfl

theorem plainSize_text (n : ℕ) : PlainSize (Decimal.text n) := by
  constructor
  · intro h
    have hdigit := Decimal.isDigit_of_mem_text (List.mem_of_mem_head? h)
    exact absurd hdigit (by decide)
  · intro h
    rcases eq_or_ne n 0 with rfl | hn
    · rfl
    · exact absurd h (Decimal.head?_text hn)

theorem parseU64_text (n : UInt64) : parseU64 (Decimal.text n.toNat) = some n := by
  have hdigits := digitsOf_of_head? (plainSize_text n.toNat).1
  rw [parseU64_eq_some_iff, hdigits]
  exact ⟨Decimal.text_ne_nil _, fun b => Decimal.isDigit_of_mem_text, Decimal.value_text _⟩

/-- Spelled plainly, a number is spelled as it is written. -/
theorem text_of_parseU64 {text : Bytes} {n : UInt64} (h : parseU64 text = some n)
    (hplain : PlainSize text) : Decimal.text n.toNat = text := by
  obtain ⟨hne, hall, hvalue⟩ := parseU64_eq_some_iff.mp h
  rw [digitsOf_of_head? hplain.1] at hne hall hvalue
  rw [← hvalue, Decimal.text_value hne hall hplain.2]

theorem length_text_of_parseU64 {text : Bytes} {n : UInt64} (h : parseU64 text = some n) :
    (Decimal.text n.toNat).length ≤ text.length := by
  obtain ⟨hne, hall, hvalue⟩ := parseU64_eq_some_iff.mp h
  rw [← hvalue]
  exact (Decimal.length_text_value hne hall).trans (length_digitsOf_le text)

/-! ### Lines -/

def IsExtension (pair : Bytes × Bytes) : Prop := pair.1 ≠ oidKey ∧ pair.1 ≠ sizeKey

instance : DecidablePred IsExtension := fun _ => instDecidableAnd

/-- A known key has a value that can be read. -/
def Valid (pair : Bytes × Bytes) : Prop :=
  (pair.1 = oidKey → (parseOid pair.2).isSome) ∧ (pair.1 = sizeKey → (parseU64 pair.2).isSome)

/-- No key occurs twice, and the known ones have values that can be read. -/
def Accepts (pairs : List (Bytes × Bytes)) : Prop :=
  (pairs.map Prod.fst).Nodup ∧ ∀ pair ∈ pairs, Valid pair

/-- What pairs of keys and values give. -/
def fieldsOf (pairs : List (Bytes × Bytes)) : Fields where
  oid := (pairs.lookup oidKey).bind parseOid
  size := (pairs.lookup sizeKey).bind parseU64
  extensions := pairs.filter IsExtension
  seenKeys := pairs.map Prod.fst

theorem accepts_append {pairs : List (Bytes × Bytes)} {pair : Bytes × Bytes}
    (h : Accepts pairs) : Accepts (pairs ++ [pair]) ↔
      pair.1 ∉ pairs.map Prod.fst ∧ Valid pair := by
  simp only [Accepts, List.map_append, List.map_singleton, List.nodup_append, List.mem_append,
    List.mem_singleton, or_imp, forall_and, forall_eq, h.1, List.nodup_singleton, true_and]
  constructor
  · rintro ⟨hnew, -, hvalid⟩
    exact ⟨fun hmem => hnew _ hmem rfl, hvalid⟩
  · rintro ⟨hnew, hvalid⟩
    exact ⟨fun key hkey heq => hnew (heq ▸ hkey), h.2, hvalid⟩

theorem lookup_append_singleton (pairs : List (Bytes × Bytes)) (pair : Bytes × Bytes)
    (hnew : pair.1 ∉ pairs.map Prod.fst) (key : Bytes) :
    (pairs ++ [pair]).lookup key = if key = pair.1 then some pair.2 else pairs.lookup key := by
  rw [List.lookup_append, List.lookup_cons]
  by_cases h : key = pair.1
  · subst h
    have hnone : pairs.lookup pair.1 = none := by
      rw [List.lookup_eq_none_iff]
      intro other hother
      rw [bne_iff_ne]
      exact fun heq => hnew (heq ▸ List.mem_map_of_mem hother)
    simp [hnone]
  · simp [h, beq_eq_false_iff_ne.mpr h]

/-- What one more pair gives. -/
theorem addPair_ok_iff {pairs : List (Bytes × Bytes)} {pair : Bytes × Bytes} {fields : Fields}
    (hnew : pair.1 ∉ pairs.map Prod.fst) :
    ({ fieldsOf pairs with seenKeys := pairs.map Prod.fst ++ [pair.1] } : Fields).addPair pair.1
      pair.2 = .ok fields ↔ Valid pair ∧ fields = fieldsOf (pairs ++ [pair]) := by
  have hoidSize : oidKey ≠ sizeKey := by decide +kernel
  have hlookup := lookup_append_singleton pairs pair hnew
  rw [Fields.addPair, fieldsOf, fieldsOf, hlookup, hlookup, List.filter_append, List.map_append]
  by_cases hoid : pair.1 = oidKey
  · have hvalid : Valid pair ↔ (parseOid pair.2).isSome := by
      simp [Valid, hoid, hoidSize]
    have hext : [pair].filter (fun pair => IsExtension pair) = [] := by simp [IsExtension, hoid]
    rw [if_pos hoid, hvalid, hext, hoid, if_pos rfl, if_neg hoidSize.symm]
    rcases hvalue : parseOid pair.2 with _ | oid
    · simp
    · simp [hvalue, hoid, eq_comm]
  · rw [if_neg hoid, if_neg (Ne.symm hoid)]
    by_cases hsize : pair.1 = sizeKey
    · have hvalid : Valid pair ↔ (parseU64 pair.2).isSome := by
        simp [Valid, hsize, hoidSize.symm]
      have hext : [pair].filter (fun pair => IsExtension pair) = [] := by simp [IsExtension, hsize]
      rw [if_pos hsize, hvalid, hext, hsize, if_pos rfl]
      rcases hvalue : parseU64 pair.2 with _ | n
      · simp
      · simp [hvalue, hsize, eq_comm]
    · have hvalid : Valid pair := ⟨fun h => absurd h hoid, fun h => absurd h hsize⟩
      have hext : [pair].filter (fun pair => IsExtension pair) = [pair] := by
        simp [IsExtension, hoid, hsize]
      rw [if_neg hsize, if_neg (Ne.symm hsize), hext]
      simp [hvalid, eq_comm]

theorem splitOnce_keyLine {pair : Bytes × Bytes} (h : 0x20 ∉ pair.1) :
    splitOnce 0x20 (keyLine pair) = some pair := splitOnce_eq_some_iff.mpr ⟨rfl, h⟩

theorem keyLine_ne_nil (pair : Bytes × Bytes) : keyLine pair ≠ [] := by simp [keyLine]

/-- The lines that are accepted: those that are not empty have a key that is new. -/
theorem addLines_ok_iff {lines : List Bytes} {pairs : List (Bytes × Bytes)} {fields : Fields}
    (h : Accepts pairs) : (fieldsOf pairs).addLines lines = .ok fields ↔
      ∃ more : List (Bytes × Bytes), lines.filter (· ≠ []) = more.map keyLine ∧
        (∀ pair ∈ more, 0x20 ∉ pair.1) ∧ Accepts (pairs ++ more) ∧
          fields = fieldsOf (pairs ++ more) := by
  induction lines generalizing pairs with
  | nil =>
    rw [Fields.addLines]
    constructor
    · intro hok
      exact ⟨[], rfl, nofun, by rwa [List.append_nil], by
        rw [List.append_nil]; exact (Except.ok.inj hok).symm⟩
    · rintro ⟨more, hmore, -, -, rfl⟩
      obtain rfl := List.map_eq_nil_iff.mp hmore.symm
      rw [List.append_nil]
  | cons line lines ih =>
    rw [Fields.addLines, Fields.addLine]
    rcases eq_or_ne line [] with rfl | hline
    · rw [List.filter_cons_of_neg (by simp)]
      exact ih h
    rw [if_neg (by simpa using hline), List.filter_cons_of_pos (by simpa using hline)]
    rcases hsplit : splitOnce 0x20 line with _ | ⟨key, value⟩
    · refine iff_of_false nofun ?_
      rintro ⟨_ | ⟨pair, more⟩, hmore, hkeys, -⟩
      · cases hmore
      · rw [(List.cons.inj hmore).1, splitOnce_keyLine (hkeys pair List.mem_cons_self)] at hsplit
        cases hsplit
    obtain ⟨hkeyLine, hkey⟩ := splitOnce_eq_some_iff.mp hsplit
    change line = keyLine (key, value) at hkeyLine
    have hfirst {more : List (Bytes × Bytes)}
        (hmore : line :: lines.filter (· ≠ []) = more.map keyLine)
        (hkeys : ∀ pair ∈ more, 0x20 ∉ pair.1) : ∃ rest, more = (key, value) :: rest ∧
          lines.filter (· ≠ []) = rest.map keyLine := by
      rcases more with _ | ⟨pair, rest⟩
      · cases hmore
      · obtain ⟨hpair, hrest⟩ := List.cons.inj hmore
        rw [hpair, splitOnce_keyLine (hkeys pair List.mem_cons_self)] at hsplit
        exact ⟨rest, by rw [Option.some.inj hsplit], hrest⟩
    simp only
    by_cases hseen : key ∈ pairs.map Prod.fst
    · rw [if_pos (show key ∈ (fieldsOf pairs).seenKeys from hseen)]
      refine iff_of_false nofun ?_
      rintro ⟨more, hmore, hkeys, haccepts, -⟩
      obtain ⟨rest, rfl, -⟩ := hfirst hmore hkeys
      have hnodup := haccepts.1
      rw [List.map_append, List.nodup_append] at hnodup
      exact hnodup.2.2 key hseen key (by simp) rfl
    rw [if_neg (show key ∉ (fieldsOf pairs).seenKeys from hseen)]
    have hseenKeys : (fieldsOf pairs).seenKeys ++ [key] = pairs.map Prod.fst ++ [key] := rfl
    rw [hseenKeys]
    have hpair := @addPair_ok_iff pairs (key, value)
    rcases hadd : ({ fieldsOf pairs with seenKeys := pairs.map Prod.fst ++ [key] } :
      Fields).addPair key value with error | fields'
    · refine iff_of_false nofun ?_
      rintro ⟨more, hmore, hkeys, haccepts, -⟩
      obtain ⟨rest, rfl, -⟩ := hfirst hmore hkeys
      have hvalid : Valid (key, value) := haccepts.2 _ (by simp)
      rw [(hpair hseen).mpr ⟨hvalid, rfl⟩] at hadd
      cases hadd
    obtain ⟨hvalid, rfl⟩ := (hpair hseen).mp hadd
    simp only
    rw [ih ((accepts_append h).mpr ⟨hseen, hvalid⟩)]
    constructor
    · rintro ⟨more, hmore, hkeys, haccepts, rfl⟩
      refine ⟨(key, value) :: more, by rw [hmore, hkeyLine]; rfl,
        List.forall_mem_cons.mpr ⟨hkey, hkeys⟩, ?_, ?_⟩
      · rwa [List.append_assoc] at haccepts
      · rw [List.append_assoc]
        rfl
    · rintro ⟨more, hmore, hkeys, haccepts, rfl⟩
      obtain ⟨rest, rfl, hrest⟩ := hfirst hmore hkeys
      refine ⟨rest, hrest, fun pair hp => hkeys pair (List.mem_cons_of_mem _ hp), ?_, ?_⟩
      · rwa [List.append_assoc]
      · rw [List.append_assoc]
        rfl

/-! ### Pointers -/

/-- A pointer is read from pairs of keys and values. -/
structure Reads (pairs : List (Bytes × Bytes)) (p : Pointer) : Prop where
  nodup : (pairs.map Prod.fst).Nodup
  oid : (oidKey, sha256 ++ oidHex p.oid) ∈ pairs
  size : ∃ text, (sizeKey, text) ∈ pairs ∧ parseU64 text = some p.size
  extensions : p.extensions = pairs.filter IsExtension

/-- With different keys, a pair is found by its key. -/
theorem lookup_eq_some_iff {pairs : List (Bytes × Bytes)} (h : (pairs.map Prod.fst).Nodup)
    {key value : Bytes} : pairs.lookup key = some value ↔ (key, value) ∈ pairs := by
  induction pairs with
  | nil => simp
  | cons pair pairs ih =>
    rw [List.map_cons, List.nodup_cons] at h
    obtain ⟨known, text⟩ := pair
    rw [List.lookup_cons, List.mem_cons, Prod.mk.injEq]
    by_cases heq : key = known
    · subst heq
      have hnot : (key, value) ∉ pairs := fun hmem => h.1 (List.mem_map.mpr ⟨_, hmem, rfl⟩)
      simp [hnot, eq_comm]
    · simp [beq_eq_false_iff_ne.mpr heq, heq, ih h.2]

theorem toPointer_ok_iff {pairs : List (Bytes × Bytes)} {p : Pointer} (h : Accepts pairs) :
    (fieldsOf pairs).toPointer = .ok p ↔ Reads pairs p := by
  have hlookup {key value : Bytes} := @lookup_eq_some_iff pairs h.1 key value
  rw [Fields.toPointer, fieldsOf]
  constructor
  · intro hok
    split at hok
    · rename_i oid size hoid hsize
      obtain rfl := Except.ok.inj hok
      obtain ⟨value, hvalue, hread⟩ := Option.bind_eq_some_iff.mp hoid
      obtain ⟨text, htext, hnumber⟩ := Option.bind_eq_some_iff.mp hsize
      refine ⟨h.1, ?_, ⟨text, hlookup.mp htext, hnumber⟩, rfl⟩
      rw [← parseOid_eq_some_iff.mp hread]
      exact hlookup.mp hvalue
    · cases hok
    · cases hok
  · rintro ⟨-, hoid, ⟨text, htext, hnumber⟩, hext⟩
    rw [hlookup.mpr hoid, hlookup.mpr htext, Option.bind_some, Option.bind_some, hnumber,
      parseOid_eq_some_iff.mpr rfl, ← hext]

theorem Reads.accepts {pairs : List (Bytes × Bytes)} {p : Pointer} (h : Reads pairs p) :
    Accepts pairs := by
  have hlookup {key value : Bytes} := @lookup_eq_some_iff pairs h.nodup key value
  refine ⟨h.nodup, ?_⟩
  rintro ⟨key, value⟩ hpair
  obtain ⟨text, htext, hnumber⟩ := h.size
  refine ⟨?_, ?_⟩
  · rintro rfl
    have hsame := (hlookup.mpr hpair).symm.trans (hlookup.mpr h.oid)
    rw [Option.some.inj hsame, parseOid_eq_some_iff.mpr rfl]
    rfl
  · rintro rfl
    have hsame := (hlookup.mpr hpair).symm.trans (hlookup.mpr htext)
    rw [Option.some.inj hsame, hnumber]
    rfl

/-- Bytes that may be those of a pointer. -/
def Small (b : Bytes) : Prop := b.length ≤ maxPointerBytes ∧ ∀ c ∈ b, c < 0x80 ∧ c ≠ 0x0D

/-- Lines as they stand in a text. -/
def LfFree (lines : List Bytes) : Prop := ∀ line ∈ lines, 0x0A ∉ line

theorem lf_not_mem_versionLine : 0x0A ∉ versionLine := by decide +kernel

/-- Exactly those bytes are accepted that consist of the version line and lines that are empty or
have a key of their own. -/
theorem parse_ok_iff {b : Bytes} {p : Pointer} :
    Pointer.parse b = .ok p ↔ Small b ∧ ∃ lines pairs, b = unlines 0x0A (versionLine :: lines) ∧
      LfFree lines ∧ lines.filter (· ≠ []) = pairs.map keyLine ∧
        (∀ pair ∈ pairs, 0x20 ∉ pair.1) ∧ Reads pairs p := by
  have hlines (lines : List Bytes) (hfree : LfFree lines) :
      parseLines ((unlines 0x0A (versionLine :: lines)).splitOn 0x0A) = .ok p ↔
        ∃ pairs, lines.filter (· ≠ []) = pairs.map keyLine ∧
          (∀ pair ∈ pairs, 0x20 ∉ pair.1) ∧ Reads pairs p := by
    have hempty : Accepts [] := ⟨List.nodup_nil, nofun⟩
    have hfilter : (lines ++ [[]]).filter (· ≠ []) = lines.filter (· ≠ []) := by simp
    have hstrip : stripPrefix (versionKey ++ [0x20]) versionLine = some versionUrl :=
      stripPrefix_eq_some_iff.mpr (by simp [versionLine, keyLine])
    rw [splitOn_unlines (List.forall_mem_cons.mpr ⟨lf_not_mem_versionLine, hfree⟩),
      List.cons_append, parseLines, hstrip]
    simp only [ne_eq, not_true_eq_false, if_false]
    have hstart : Fields.mk none none [] [] = fieldsOf [] := rfl
    rw [hstart]
    constructor
    · intro hok
      rcases hadd : (fieldsOf []).addLines (lines ++ [[]]) with error | fields
      · rw [hadd] at hok
        cases hok
      · rw [hadd] at hok
        obtain ⟨pairs, hpairs, hkeys, haccepts, rfl⟩ := (addLines_ok_iff hempty).mp hadd
        exact ⟨pairs, hfilter ▸ hpairs, hkeys, (toPointer_ok_iff haccepts).mp hok⟩
    · rintro ⟨pairs, hpairs, hkeys, hreads⟩
      rw [(addLines_ok_iff hempty).mpr
        ⟨pairs, hfilter.trans hpairs, hkeys, hreads.accepts, rfl⟩]
      exact (toPointer_ok_iff hreads.accepts).mpr hreads
  rw [Pointer.parse]
  constructor
  · intro hok
    split_ifs at hok with hempty hlarge hascii hcr hend
    rw [Bool.not_eq_true', Bool.not_eq_false, List.all_eq_true] at hascii
    rw [not_ne_iff] at hend
    have hsmall : Small b := by
      refine ⟨not_lt.mp hlarge, fun c hc => ⟨of_decide_eq_true (hascii c hc), ?_⟩⟩
      rintro rfl
      exact hcr hc
    obtain ⟨all, rfl, hall⟩ := exists_unlines hend
    rcases all with _ | ⟨first, lines⟩
    · cases hend
    obtain ⟨hfirst, hfree⟩ := List.forall_mem_cons.mp hall
    have hversion : first = versionLine := by
      rw [splitOn_unlines hall, List.cons_append, parseLines] at hok
      split at hok
      · cases hok
      · rename_i value hstrip
        split_ifs at hok with hurl
        rw [stripPrefix_eq_some_iff.mp hstrip, not_ne_iff.mp hurl]
        simp [versionLine, keyLine]
    subst hversion
    obtain ⟨pairs, hpairs, hkeys, hreads⟩ := (hlines lines hfree).mp hok
    exact ⟨hsmall, lines, pairs, rfl, hfree, hpairs, hkeys, hreads⟩
  · rintro ⟨hsmall, lines, pairs, rfl, hfree, hpairs, hkeys, hreads⟩
    have hend : (unlines 0x0A (versionLine :: lines)).getLast? = some 0x0A :=
      getLast?_unlines (List.cons_ne_nil _ _)
    have hcr : (0x0D : UInt8) ∉ unlines 0x0A (versionLine :: lines) :=
      fun hmem => (hsmall.2 _ hmem).2 rfl
    rw [if_neg (by simp), if_neg (not_lt.mpr hsmall.1), if_neg, if_neg hcr,
      if_neg (not_not.mpr hend)]
    · exact (hlines lines hfree).mpr ⟨pairs, hpairs, hkeys, hreads⟩
    · rw [Bool.not_eq_true', Bool.not_eq_false, List.all_eq_true]
      exact fun c hc => decide_eq_true (hsmall.2 c hc).1

/-- The quick check misses no pointer. -/
theorem looksLikePointer_of_parse {bytes : Bytes} {p : Pointer}
    (h : Pointer.parse bytes = .ok p) : looksLikePointer bytes = true := by
  obtain ⟨hsmall, lines, pairs, rfl, -⟩ := parse_ok_iff.mp h
  rw [looksLikePointer, Bool.and_eq_true]
  refine ⟨decide_eq_true hsmall.1, List.isPrefixOf_iff_prefix.mpr ?_⟩
  have hversion : versionPrefix = versionLine ++ [0x0A] := by
    simp [versionPrefix, versionLine, keyLine]
  exact ⟨unlines 0x0A lines, by rw [hversion, unlines_cons, List.append_assoc]; rfl⟩

/-! ### Writing -/

/-- The pairs that a pointer was read from are those that it is written with, but for the spelling
of the size. -/
theorem Reads.perm {pairs : List (Bytes × Bytes)} {p : Pointer} (h : Reads pairs p) :
    ∃ text, parseU64 text = some p.size ∧ pairs.Perm
      ((oidKey, sha256 ++ oidHex p.oid) :: (sizeKey, text) :: p.extensions) := by
  have hoidSize : oidKey ≠ sizeKey := by decide +kernel
  have hunique {key value value' : Bytes} (hv : (key, value) ∈ pairs)
      (hv' : (key, value') ∈ pairs) : value = value' := by
    have hlookup := (lookup_eq_some_iff h.nodup).mpr hv
    rw [(lookup_eq_some_iff h.nodup).mpr hv'] at hlookup
    exact (Option.some.inj hlookup).symm
  obtain ⟨text, htext, hnumber⟩ := h.size
  refine ⟨text, hnumber, ?_⟩
  rw [List.perm_ext_iff_of_nodup h.nodup.of_map]
  · rintro ⟨key, value⟩
    rw [List.mem_cons, List.mem_cons, h.extensions, List.mem_filter, decide_eq_true_iff]
    constructor
    · intro hpair
      by_cases hoid : key = oidKey
      · subst hoid
        exact .inl (by rw [hunique hpair h.oid])
      · by_cases hsize : key = sizeKey
        · subst hsize
          exact .inr (.inl (by rw [hunique hpair htext]))
        · exact .inr (.inr ⟨hpair, hoid, hsize⟩)
    · rintro (heq | heq | hpair)
      · rw [heq]
        exact h.oid
      · rw [heq]
        exact htext
      · exact hpair.1
  · have hext {key value : Bytes} (hmem : (key, value) ∈ p.extensions) :
        key ≠ oidKey ∧ key ≠ sizeKey := by
      rw [h.extensions, List.mem_filter] at hmem
      exact of_decide_eq_true hmem.2
    refine List.nodup_cons.mpr ⟨?_, List.nodup_cons.mpr ⟨fun hmem => (hext hmem).2 rfl, ?_⟩⟩
    · rw [List.mem_cons, not_or]
      exact ⟨fun heq => hoidSize (congrArg Prod.fst heq), fun hmem => (hext hmem).1 rfl⟩
    · rw [h.extensions]
      exact h.nodup.of_map.filter _

/-- The pairs that a pointer is written with, in their order. -/
def Pointer.sorted (p : Pointer) : List (Bytes × Bytes) :=
  (KeyedSort.SortBy.insertion fun pair => byteOrder pair.1).sort p.keyed

theorem Pointer.sorted_perm (p : Pointer) : p.sorted.Perm p.keyed := KeyedSort.SortBy.perm _ _

/-- The pairs that are written are read as the same pointer. -/
theorem Reads.sorted {pairs : List (Bytes × Bytes)} {p : Pointer} (h : Reads pairs p) :
    Reads p.sorted { p with extensions := p.sorted.filter IsExtension } := by
  obtain ⟨text, hnumber, hperm⟩ := h.perm
  have hkeys : (pairs.map Prod.fst).Perm (p.keyed.map Prod.fst) := hperm.map Prod.fst
  refine ⟨?_, ?_, ⟨Decimal.text p.size.toNat, ?_, parseU64_text p.size⟩, rfl⟩
  · exact ((p.sorted_perm.map Prod.fst).trans hkeys.symm).nodup_iff.mpr h.nodup
  · exact p.sorted_perm.mem_iff.mpr List.mem_cons_self
  · exact p.sorted_perm.mem_iff.mpr (List.mem_cons_of_mem _ List.mem_cons_self)

/-- The extensions of what is read again are the same in another order. -/
theorem Reads.extensions_perm {pairs : List (Bytes × Bytes)} {p : Pointer} (h : Reads pairs p) :
    (p.sorted.filter IsExtension).Perm p.extensions := by
  refine (p.sorted_perm.filter _).trans ?_
  have hall : p.extensions.filter IsExtension = p.extensions := by
    rw [h.extensions, List.filter_filter]
    simp
  rw [Pointer.keyed, List.filter_cons_of_neg (by simp [IsExtension]),
    List.filter_cons_of_neg (by simp [IsExtension]), hall]

/-- Each pair that is written was read, but for the spelling of the size. -/
theorem Reads.mem_keyed {pairs : List (Bytes × Bytes)} {p : Pointer} (h : Reads pairs p)
    {pair : Bytes × Bytes} (hpair : pair ∈ p.keyed) :
    pair ∈ pairs ∨ pair = (sizeKey, Decimal.text p.size.toNat) := by
  obtain ⟨text, -, hperm⟩ := h.perm
  rw [hperm.mem_iff, List.mem_cons, List.mem_cons]
  rw [Pointer.keyed, List.mem_cons, List.mem_cons] at hpair
  rcases hpair with hoid | hsize | hext
  · exact .inl (.inl hoid)
  · exact .inr hsize
  · exact .inl (.inr (.inr hext))

/-- The line of the size, as it is written. -/
theorem mem_sizeLine {n : ℕ} {c : UInt8} (h : c ∈ keyLine (sizeKey, Decimal.text n)) :
    c < 0x80 ∧ c ≠ 0x0D ∧ c ≠ 0x0A := by
  have hdigit : ∀ c : UInt8, Decimal.isDigit c → c < 0x80 ∧ c ≠ 0x0D ∧ c ≠ 0x0A := by
    rintro ⟨⟨c⟩⟩
    revert c
    decide +kernel
  have hkey : ∀ c ∈ sizeKey ++ [0x20], c < 0x80 ∧ c ≠ 0x0D ∧ c ≠ 0x0A := by decide +kernel
  rw [keyLine, List.append_cons, List.mem_append] at h
  rcases h with h | h
  · exact hkey c h
  · exact hdigit c (Decimal.isDigit_of_mem_text h)

/-- What is written is not longer than what was read. -/
theorem Reads.length_write_le {pairs : List (Bytes × Bytes)} {p : Pointer} {lines : List Bytes}
    (h : Reads pairs p) (hlines : lines.filter (· ≠ []) = pairs.map keyLine) :
    p.write.length ≤ (unlines 0x0A (versionLine :: lines)).length := by
  obtain ⟨text, hnumber, hperm⟩ := h.perm
  have hsize := length_text_of_parseU64 hnumber
  have hfilter : ((lines.filter (· ≠ [])).map fun line => line.length + 1).sum ≤
      (lines.map fun line => line.length + 1).sum :=
    (List.filter_sublist.map _).sum_le_sum fun _ _ => Nat.zero_le _
  have hread := ((hperm.map keyLine).map fun line => line.length + 1).sum_eq
  have hwritten := ((p.sorted_perm.map keyLine).map fun line => line.length + 1).sum_eq
  rw [Pointer.write, length_unlines, length_unlines, List.map_cons, List.map_cons, List.sum_cons,
    List.sum_cons, ← Pointer.sorted, hwritten]
  rw [hlines, hread] at hfilter
  refine Nat.add_le_add_left (le_trans ?_ hfilter) _
  simp only [Pointer.keyed, List.map_cons, List.sum_cons, keyLine, List.length_append,
    List.length_cons]
  omega

/-! ### Round trips -/

/-- What was read is read again from what is written, up to the order of the extensions. -/
theorem roundTrip_of_parse {b : Bytes} {p : Pointer} (h : Pointer.parse b = .ok p) :
    ∃ q, Pointer.parse p.write = .ok q ∧ q.oid = p.oid ∧ q.size = p.size ∧
      q.extensions.Perm p.extensions := by
  obtain ⟨hsmall, lines, pairs, rfl, hfree, hlines, hkeys, hreads⟩ := parse_ok_iff.mp h
  have hread {pair : Bytes × Bytes} (hpair : pair ∈ pairs) : keyLine pair ∈ lines :=
    List.mem_of_mem_filter (hlines ▸ List.mem_map_of_mem hpair)
  have hsorted {pair : Bytes × Bytes} (hpair : pair ∈ p.sorted) :=
    hreads.mem_keyed (p.sorted_perm.mem_iff.mp hpair)
  refine ⟨_, parse_ok_iff.mpr ⟨⟨?_, ?_⟩, p.sorted.map keyLine, p.sorted, rfl, ?_, ?_, ?_,
    hreads.sorted⟩, rfl, rfl, hreads.extensions_perm⟩
  · exact (hreads.length_write_le hlines).trans hsmall.1
  · intro c hc
    obtain ⟨line, hline, hc⟩ := mem_unlines.mp hc
    rcases hc with hc | rfl
    · rcases List.mem_cons.mp hline with rfl | hline
      · exact hsmall.2 c (mem_unlines.mpr ⟨_, List.mem_cons_self, .inl hc⟩)
      · obtain ⟨pair, hpair, rfl⟩ := List.mem_map.mp hline
        rcases hsorted hpair with hpair | rfl
        · exact hsmall.2 c (mem_unlines.mpr ⟨_, List.mem_cons_of_mem _ (hread hpair), .inl hc⟩)
        · exact ⟨(mem_sizeLine hc).1, (mem_sizeLine hc).2.1⟩
    · decide
  · intro line hline
    obtain ⟨pair, hpair, rfl⟩ := List.mem_map.mp hline
    rcases hsorted hpair with hpair | rfl
    · exact hfree _ (hread hpair)
    · exact fun hlf => (mem_sizeLine hlf).2.2 rfl
  · refine List.filter_eq_self.mpr fun line hline => ?_
    obtain ⟨pair, -, rfl⟩ := List.mem_map.mp hline
    simpa using keyLine_ne_nil pair
  · intro pair hpair
    rcases hsorted hpair with hpair | rfl
    · exact hkeys pair hpair
    · change 0x20 ∉ sizeKey
      decide +kernel

theorem hexChar_ascii : ∀ byte : UInt8, ∀ c ∈ [hexChar (byte >>> 4), hexChar (byte &&& 0x0F)],
    c < 0x80 ∧ c ≠ 0x0D ∧ c ≠ 0x0A := by
  have hhalves : ∀ byte : UInt8,
      (hexChar (byte >>> 4) < 0x80 ∧ hexChar (byte >>> 4) ≠ 0x0D ∧ hexChar (byte >>> 4) ≠ 0x0A) ∧
        hexChar (byte &&& 0x0F) < 0x80 ∧ hexChar (byte &&& 0x0F) ≠ 0x0D ∧
          hexChar (byte &&& 0x0F) ≠ 0x0A := by
    rintro ⟨⟨byte⟩⟩
    revert byte
    decide +kernel
  intro byte c hc
  rcases List.mem_pair.mp hc with rfl | rfl
  · exact (hhalves byte).1
  · exact (hhalves byte).2

/-- A pointer without extensions that is written is read again. -/
theorem parse_write (oid : Oid) (size : UInt64) :
    Pointer.parse (Pointer.write ⟨oid, size, []⟩) = .ok ⟨oid, size, []⟩ := by
  have hkeys : oidKey ≠ sizeKey := by decide +kernel
  have hreads : Reads (Pointer.keyed ⟨oid, size, []⟩) ⟨oid, size, []⟩ := by
    refine ⟨?_, List.mem_cons_self, ⟨_, List.mem_cons_of_mem _ List.mem_cons_self,
      parseU64_text size⟩, ?_⟩
    · simpa [Pointer.keyed] using hkeys
    · simp [Pointer.keyed, IsExtension]
  have hoid : ∀ c ∈ keyLine (oidKey, sha256 ++ oidHex oid), c < 0x80 ∧ c ≠ 0x0D ∧ c ≠ 0x0A := by
    have hkey : ∀ c ∈ oidKey ++ 0x20 :: sha256, c < 0x80 ∧ c ≠ 0x0D ∧ c ≠ 0x0A := by decide +kernel
    intro c hc
    rw [keyLine, ← List.cons_append, ← List.append_assoc, List.mem_append] at hc
    rcases hc with hc | hc
    · exact hkey c hc
    · obtain ⟨byte, -, hc⟩ := List.mem_flatMap.mp hc
      exact hexChar_ascii byte c hc
  have hversion : ∀ c ∈ versionLine, c < 0x80 ∧ c ≠ 0x0D := by decide +kernel
  have hline {line : Bytes}
      (hmem : line ∈ (Pointer.keyed ⟨oid, size, []⟩).map keyLine) :
      ∀ c ∈ line, c < 0x80 ∧ c ≠ 0x0D ∧ c ≠ 0x0A := by
    simp only [Pointer.keyed, List.map_cons, List.map_nil, List.mem_cons, List.not_mem_nil,
      or_false] at hmem
    rcases hmem with rfl | rfl
    · exact hoid
    · exact fun c hc => mem_sizeLine hc
  have hlength : (Decimal.text size.toNat).length ≤ 20 := by
    rw [Decimal.text, List.length_map, Nat.length_toDigits_le_iff (by omega) (by omega)]
    exact size.toNat_lt.trans_le (by norm_num)
  have hparse : Pointer.parse (unlines 0x0A
      (versionLine :: (Pointer.keyed ⟨oid, size, []⟩).map keyLine)) = .ok ⟨oid, size, []⟩ := by
    refine parse_ok_iff.mpr ⟨⟨?_, ?_⟩, _, _, rfl, fun line hmem hlf => (hline hmem _ hlf).2.2 rfl,
      List.filter_eq_self.mpr ?_, ?_, hreads⟩
    · have hfixed : versionLine.length + oidKey.length + sha256.length + sizeKey.length ≤ 100 := by
        decide +kernel
      have hhex := length_hexOf oid.val
      rw [oid.property, hexOf, ← oidHex] at hhex
      rw [length_unlines, maxPointerBytes]
      simp only [Pointer.keyed, keyLine, List.map_cons, List.map_nil, List.sum_cons, List.sum_nil,
        List.length_append, List.length_cons]
      omega
    · intro c hc
      obtain ⟨line, hmem, hc⟩ := mem_unlines.mp hc
      rcases hc with hc | rfl
      · rcases List.mem_cons.mp hmem with rfl | hmem
        · exact hversion c hc
        · exact ⟨(hline hmem c hc).1, (hline hmem c hc).2.1⟩
      · decide
    · intro line hmem
      obtain ⟨pair, -, rfl⟩ := List.mem_map.mp hmem
      simpa using keyLine_ne_nil pair
    · have hspace : 0x20 ∉ oidKey ∧ 0x20 ∉ sizeKey := by decide +kernel
      intro pair hpair
      simp only [Pointer.keyed, List.mem_cons, List.not_mem_nil, or_false] at hpair
      rcases hpair with rfl | rfl
      · exact hspace.1
      · exact hspace.2
  obtain ⟨⟨oid', size', extensions⟩, hq, heq, hsize, hext⟩ := roundTrip_of_parse hparse
  obtain rfl : oid' = oid := heq
  obtain rfl : size' = size := hsize
  obtain rfl : extensions = [] := hext.eq_nil
  exact hq

/-- Bytes with their lines behind the first one in the order of the keys. -/
def SortedLines (b sorted : Bytes) : Prop :=
  ∃ first lines lines', b = unlines 0x0A (first :: lines) ∧ LfFree (first :: lines) ∧
    lines'.Perm lines ∧
    lines'.Pairwise (fun l m => byteOrder (l.takeWhile (· ≠ 0x20)) ≤
      byteOrder (m.takeWhile (· ≠ 0x20))) ∧
    sorted = unlines 0x0A (first :: lines')

/-- The bytes of a pointer as the format describes them: the version line, which occurs once, and
lines with different keys, among them the hash and the size. -/
structure Documented (b : Bytes) : Prop where
  small : Small b
  lines : ∃ pairs : List (Bytes × Bytes), b = unlines 0x0A (versionLine :: pairs.map keyLine) ∧
    LfFree (pairs.map keyLine) ∧ (∀ pair ∈ pairs, 0x20 ∉ pair.1) ∧
      ((versionLine :: pairs.map keyLine).map (List.takeWhile (· ≠ 0x20))).Nodup ∧
        (∃ oid, (oidKey, sha256 ++ oidHex oid) ∈ pairs) ∧
          ∃ size : UInt64, (sizeKey, Decimal.text size.toNat) ∈ pairs

/-- Behind the first line, no line is empty, none begins as a version line, and that of the size
has neither a plus sign nor a zero in front of other digits. -/
def Plain (b : Bytes) : Prop :=
  ∀ line ∈ (b.splitOn 0x0A).tail.dropLast,
    line ≠ [] ∧ ¬ versionKey ++ [0x20] <+: line ∧ ¬ sizeKey ++ [0x20, 0x2B] <+: line ∧
      (sizeKey ++ [0x20, 0x30] <+: line → line = sizeKey ++ [0x20, 0x30])

theorem plain_unlines {first : Bytes} {lines : List Bytes} (h : LfFree (first :: lines)) :
    Plain (unlines 0x0A (first :: lines)) ↔ ∀ line ∈ lines,
      line ≠ [] ∧ ¬ versionKey ++ [0x20] <+: line ∧ ¬ sizeKey ++ [0x20, 0x2B] <+: line ∧
        (sizeKey ++ [0x20, 0x30] <+: line → line = sizeKey ++ [0x20, 0x30]) := by
  rw [Plain, splitOn_unlines h, List.cons_append, List.tail_cons, List.dropLast_concat]

theorem takeWhile_keyLine {pair : Bytes × Bytes} (h : 0x20 ∉ pair.1) :
    (keyLine pair).takeWhile (· ≠ 0x20) = pair.1 := by
  have hall : ∀ c ∈ pair.1, decide (c ≠ 0x20) = true :=
    fun c hc => decide_eq_true (ne_of_mem_of_not_mem hc h)
  rw [keyLine, List.takeWhile_append_of_pos hall]
  simp

/-- A line begins with a key, a space and more exactly if it has that key, and its value begins
so. -/
theorem prefix_keyLine_iff {key part : Bytes} {pair : Bytes × Bytes} (hkey : 0x20 ∉ key)
    (hpair : 0x20 ∉ pair.1) :
    key ++ 0x20 :: part <+: keyLine pair ↔ pair.1 = key ∧ part <+: pair.2 := by
  constructor
  · rintro ⟨rest, hrest⟩
    have hsplit : splitOnce 0x20 (keyLine pair) = some (key, part ++ rest) :=
      splitOnce_eq_some_iff.mpr ⟨by rw [← hrest, List.append_assoc]; rfl, hkey⟩
    rw [splitOnce_keyLine hpair] at hsplit
    rw [Option.some.inj hsplit]
    exact ⟨rfl, List.prefix_append _ _⟩
  · rintro ⟨rfl, rest, hrest⟩
    exact ⟨rest, by rw [keyLine, ← hrest, List.append_assoc]; rfl⟩

theorem singleton_prefix_iff {c : UInt8} {text : Bytes} : [c] <+: text ↔ text.head? = some c := by
  rcases text with _ | ⟨d, text⟩
  · simp
  · simp [List.cons_prefix_cons, eq_comm]

/-- What is asked of a line, of its key and value. -/
theorem plain_keyLine_iff {pair : Bytes × Bytes} (h : 0x20 ∉ pair.1) :
    (keyLine pair ≠ [] ∧ ¬ versionKey ++ [0x20] <+: keyLine pair ∧
      ¬ sizeKey ++ [0x20, 0x2B] <+: keyLine pair ∧
        (sizeKey ++ [0x20, 0x30] <+: keyLine pair → keyLine pair = sizeKey ++ [0x20, 0x30])) ↔
      pair.1 ≠ versionKey ∧ (pair.1 = sizeKey → PlainSize pair.2) := by
  have hversion : 0x20 ∉ versionKey := by decide +kernel
  have hsize : 0x20 ∉ sizeKey := by decide +kernel
  rw [prefix_keyLine_iff hversion h, prefix_keyLine_iff hsize h, prefix_keyLine_iff hsize h,
    singleton_prefix_iff, singleton_prefix_iff]
  have hline (hkey : pair.1 = sizeKey) :
      keyLine pair = sizeKey ++ [0x20, 0x30] ↔ pair.2 = [0x30] := by
    rw [keyLine, hkey, List.append_cancel_left_eq, List.cons.injEq]
    simp
  constructor
  · rintro ⟨-, hfirst, hplus, hzero⟩
    refine ⟨fun hkey => hfirst ⟨hkey, List.nil_prefix⟩, fun hkey => ⟨?_, ?_⟩⟩
    · exact fun hhead => hplus ⟨hkey, hhead⟩
    · exact fun hhead => (hline hkey).mp (hzero ⟨hkey, hhead⟩)
  · rintro ⟨hfirst, hplain⟩
    exact ⟨keyLine_ne_nil pair, fun hkey => hfirst hkey.1, fun hkey => (hplain hkey.1).1 hkey.2,
      fun hkey => (hline hkey.1).mpr ((hplain hkey.1).2 hkey.2)⟩

/-- Documented bytes are spelled plainly. -/
theorem Documented.plain {b : Bytes} (h : Documented b) : Plain b := by
  obtain ⟨-, pairs, rfl, hfree, hkeys, hnodup, -, size, hsize⟩ := h
  have hmap : (pairs.map keyLine).map (List.takeWhile (· ≠ 0x20)) = pairs.map Prod.fst := by
    rw [List.map_map]
    exact List.map_congr_left fun pair hpair => takeWhile_keyLine (hkeys pair hpair)
  have hfirst : versionLine.takeWhile (· ≠ 0x20) = versionKey :=
    takeWhile_keyLine (by decide +kernel)
  rw [List.map_cons, hmap, hfirst, List.nodup_cons] at hnodup
  rw [plain_unlines (List.forall_mem_cons.mpr ⟨lf_not_mem_versionLine, hfree⟩)]
  intro line hline
  obtain ⟨⟨key, value⟩, hpair, rfl⟩ := List.mem_map.mp hline
  rw [plain_keyLine_iff (hkeys _ hpair)]
  refine ⟨?_, ?_⟩
  · rintro rfl
    exact hnodup.1 (List.mem_map_of_mem hpair)
  · rintro rfl
    have hlookup := (lookup_eq_some_iff hnodup.2).mpr hpair
    rw [(lookup_eq_some_iff hnodup.2).mpr hsize] at hlookup
    rw [← Option.some.inj hlookup]
    exact plainSize_text _

/-- For accepted bytes the pointer is read again from what is written for it, what is written is
what was read with its lines sorted, and this is documented, exactly if the bytes have no empty
line, no second version line, and no sign or superfluous zero in the size. -/
theorem pointer_codec_iff {b : Bytes} {p : Pointer} (h : Pointer.parse b = .ok p) :
    ((∃ q, Pointer.parse p.write = .ok q ∧ q.oid = p.oid ∧ q.size = p.size ∧
      q.extensions.Perm p.extensions) ∧ SortedLines b p.write ∧ Documented b) ↔ Plain b := by
  refine ⟨fun hproperty => hproperty.2.2.plain, fun hplain => ⟨roundTrip_of_parse h, ?_⟩⟩
  obtain ⟨hsmall, lines, pairs, rfl, hfree, hlines, hkeys, hreads⟩ := parse_ok_iff.mp h
  have hall : LfFree (versionLine :: lines) :=
    List.forall_mem_cons.mpr ⟨lf_not_mem_versionLine, hfree⟩
  rw [plain_unlines hall] at hplain
  -- Without empty lines, the lines are those of the pairs.
  rw [List.filter_eq_self.mpr fun line hline => decide_eq_true (hplain line hline).1] at hlines
  subst hlines
  have hplain' : ∀ pair ∈ pairs, pair.1 ≠ versionKey ∧ (pair.1 = sizeKey → PlainSize pair.2) :=
    fun pair hpair =>
      (plain_keyLine_iff (hkeys pair hpair)).mp (hplain _ (List.mem_map_of_mem hpair))
  obtain ⟨text, hnumber, hperm⟩ := hreads.perm
  have hsize : (sizeKey, text) ∈ pairs :=
    hperm.mem_iff.mpr (List.mem_cons_of_mem _ List.mem_cons_self)
  have htext := text_of_parseU64 hnumber ((hplain' _ hsize).2 rfl)
  rw [← htext] at hperm hsize
  have hsorted : ∀ pair ∈ p.sorted, 0x20 ∉ pair.1 := fun pair hpair =>
    hkeys pair (hperm.mem_iff.mpr (p.sorted_perm.mem_iff.mp hpair))
  refine ⟨⟨versionLine, pairs.map keyLine, p.sorted.map keyLine, rfl, hall, ?_, ?_, rfl⟩, hsmall,
    pairs, rfl, hfree, hkeys, ?_, ⟨p.oid, hreads.oid⟩, ⟨p.size, hsize⟩⟩
  · exact (p.sorted_perm.trans hperm.symm).map keyLine
  · rw [List.pairwise_map]
    refine (KeyedSort.SortBy.sorted _ p.keyed).imp_of_mem fun hl hm hle => ?_
    rwa [takeWhile_keyLine (hsorted _ hl), takeWhile_keyLine (hsorted _ hm)]
  · have hmap : (pairs.map keyLine).map (List.takeWhile (· ≠ 0x20)) = pairs.map Prod.fst := by
      rw [List.map_map]
      exact List.map_congr_left fun pair hpair => takeWhile_keyLine (hkeys pair hpair)
    have hfirst : versionLine.takeWhile (· ≠ 0x20) = versionKey :=
      takeWhile_keyLine (by decide +kernel)
    rw [List.map_cons, hmap, hfirst, List.nodup_cons]
    refine ⟨fun hmem => ?_, hreads.nodup⟩
    obtain ⟨pair, hpair, hkey⟩ := List.mem_map.mp hmem
    exact (hplain' pair hpair).1 hkey

/-- A pointer with more lines in front of that of the size. -/
private def pointerText (more size : String) : Bytes :=
  versionLine ++ 0x0A ::
    "oid sha256:4d7a214614ab2935c943f9e0ff69d22eadbb8f32b1258daaa5e2ca24d17e2393".toUTF8.toList ++
    0x0A :: (more.toUTF8.toList ++ keyLine (sizeKey, size.toUTF8.toList) ++ [0x0A])

/-- A pointer with an unknown key. -/
theorem pointer_codec_iff_extension :
    ∃ p, Pointer.parse (pointerText "ext-0 a b\n" "12345") = .ok p ∧
      SortedLines (pointerText "ext-0 a b\n" "12345") p.write ∧
        Documented (pointerText "ext-0 a b\n" "12345") := by
  have hparse : (Pointer.parse (pointerText "ext-0 a b\n" "12345")).isOk := by decide +kernel
  have hplain : Plain (pointerText "ext-0 a b\n" "12345") := by
    unfold Plain
    decide +kernel
  rcases hresult : Pointer.parse (pointerText "ext-0 a b\n" "12345") with error | p
  · rw [hresult] at hparse
    cases hparse
  · exact ⟨p, rfl, ((pointer_codec_iff hresult).mpr hplain).2⟩

/-- Bytes are accepted that have an empty line, a second version line, a plus sign or zeros in
front of the size. -/
theorem pointer_codec_fails :
    ¬ ∃ b ∈ [pointerText "\n" "12345", pointerText "version 2\n" "12345", pointerText "" "+5",
        pointerText "" "007"],
      ∀ p, Pointer.parse b = .ok p →
        (∃ q, Pointer.parse p.write = .ok q ∧ q.oid = p.oid ∧ q.size = p.size ∧
          q.extensions.Perm p.extensions) ∧ SortedLines b p.write ∧ Documented b := by
  rintro ⟨b, hb, hall⟩
  have hparse : (Pointer.parse b).isOk := by
    clear hall
    revert b
    decide +kernel
  have hplain : ¬ Plain b := by
    clear hall hparse
    unfold Plain
    revert b
    decide +kernel
  rcases hresult : Pointer.parse b with error | p
  · rw [hresult] at hparse
    cases hparse
  · exact hplain (hall p hresult).2.2.plain

end Maw.Lfs
