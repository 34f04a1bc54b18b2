import Mathlib.Data.BitVec
import Mathlib.Tactic.NormNum

/-!
# Hexadecimal strings

Words of a fixed number of lower-case hexadecimal digits, and reading them back.

## Main definitions

* `toHex`, `ofHex` — the hexadecimal form of a word.

## Main results

* `ofHex_toHex` — a word is read back from its hexadecimal form.
-/

namespace Hex

/-- The digit of a number below sixteen. -/
def digit (n : ℕ) : Char := if n < 10 then Char.ofNat (48 + n) else Char.ofNat (87 + n)

/-- The value of a lower-case hexadecimal digit. -/
def value (c : Char) : Option ℕ :=
  if '0' ≤ c ∧ c ≤ '9' then some (c.toNat - 48)
  else if 'a' ≤ c ∧ c ≤ 'f' then some (c.toNat - 87)
  else none

theorem value_digit : ∀ n < 16, value (digit n) = some n := by decide

/-- The lowest digits of a number, the highest of them first. -/
def digits : (width : ℕ) → ℕ → List Char
  | 0, _ => []
  | width + 1, n => digits width (n / 16) ++ [digit (n % 16)]

/-- The number with these digits. -/
def ofDigits (cs : List Char) : Option ℕ :=
  cs.foldlM (fun n c => (value c).map fun v => n * 16 + v) 0

theorem length_digits (width n : ℕ) : (digits width n).length = width := by
  induction width generalizing n with
  | zero => rfl
  | succ width ih => rw [digits, List.length_append, ih, List.length_singleton]

theorem ofDigits_digits (width n : ℕ) : ofDigits (digits width n) = some (n % 16 ^ width) := by
  induction width generalizing n with
  | zero =>
    rw [pow_zero, Nat.mod_one]
    rfl
  | succ width ih =>
    have hdigit := value_digit (n % 16) (Nat.mod_lt _ (by omega))
    have hsplit : n % 16 ^ (width + 1) = n / 16 % 16 ^ width * 16 + n % 16 := by
      rw [pow_succ', Nat.mod_mul]
      omega
    rw [digits, ofDigits, List.foldlM_append, ← ofDigits, ih, hsplit]
    simp [hdigit]

/-- The hexadecimal form of a word. -/
def toHex {width : ℕ} (bits : BitVec (4 * width)) : String :=
  String.ofList (digits width bits.toNat)

/-- Read a word of a fixed number of digits. -/
def ofHex (width : ℕ) (s : String) : Option (BitVec (4 * width)) :=
  if s.toList.length = width then (ofDigits s.toList).map (BitVec.ofNat (4 * width)) else none

theorem ofHex_toHex {width : ℕ} (bits : BitVec (4 * width)) :
    ofHex width (toHex bits) = some bits := by
  have hpow : (16 : ℕ) ^ width = 2 ^ (4 * width) := by
    rw [pow_mul]
    norm_num
  have hlt : bits.toNat % 16 ^ width = bits.toNat := by
    rw [hpow]
    exact Nat.mod_eq_of_lt bits.isLt
  rw [ofHex, toHex, String.toList_ofList, if_pos (length_digits _ _), ofDigits_digits, hlt,
    Option.map_some, BitVec.ofNat_toNat, BitVec.setWidth_eq]

end Hex
