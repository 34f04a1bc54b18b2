import Mathlib.Data.List.Induction
import Mathlib.Data.List.Basic
import Mathlib.Tactic.IntervalCases

/-!
# Decimal numbers

The decimal form of a number as bytes, and the number that digits stand for. Digits without a
superfluous zero in front are the decimal form of their number.

## Main definitions

* `Decimal.text` — the decimal form of a number.
* `Decimal.value` — the number that digits stand for.

## Main results

* `Decimal.value_text` — a number is read back from its decimal form.
* `Decimal.text_value` — digits are the decimal form of their number.
-/

namespace Decimal

/-- The digit of a number below ten. -/
def digit (n : ℕ) : UInt8 := (48 + n).toUInt8

def isDigit (b : UInt8) : Bool := 48 ≤ b && b ≤ 57

/-- The decimal form of a number. -/
def text (n : ℕ) : List UInt8 := (Nat.toDigits 10 n).map fun c => c.toNat.toUInt8

/-- The number that digits stand for. -/
def value (digits : List UInt8) : ℕ := digits.foldl (fun n b => 10 * n + (b.toNat - 48)) 0

theorem value_append (digits : List UInt8) (b : UInt8) :
    value (digits ++ [b]) = 10 * value digits + (b.toNat - 48) := by
  rw [value, List.foldl_append]
  rfl

theorem toNat_digit {n : ℕ} (h : n < 10) : (digit n).toNat = 48 + n := by
  rw [digit, Nat.toUInt8_eq, UInt8.toNat_ofNat']
  omega

theorem isDigit_iff {b : UInt8} : isDigit b ↔ 48 ≤ b.toNat ∧ b.toNat ≤ 57 := by
  rw [isDigit, Bool.and_eq_true, decide_eq_true_iff, decide_eq_true_iff, UInt8.le_iff_toNat_le,
    UInt8.le_iff_toNat_le]
  rfl

/-- The last digit of a number, behind those of its tenth. -/
theorem text_eq (n : ℕ) :
    text n = if n < 10 then [digit n] else text (n / 10) ++ [digit (n % 10)] := by
  have hdigit : ∀ d < 10, (Nat.digitChar d).toNat.toUInt8 = digit d := by
    intro d hd
    interval_cases d <;> rfl
  rw [text, Nat.toDigits_eq_if (by omega)]
  split_ifs with h
  · rw [List.map_singleton, hdigit n h]
  · rw [List.map_append, List.map_singleton, hdigit _ (Nat.mod_lt n (by omega)), ← text]

theorem text_ne_nil (n : ℕ) : text n ≠ [] := by
  rw [text_eq]
  split_ifs <;> simp

theorem isDigit_of_mem_text {n : ℕ} {b : UInt8} (h : b ∈ text n) : isDigit b := by
  induction n using Nat.strong_induction_on with
  | _ n ih =>
    have hdigit (d : ℕ) (hd : d < 10) : isDigit (digit d) := by
      rw [isDigit_iff, toNat_digit hd]
      omega
    rw [text_eq] at h
    split_ifs at h with hn
    · rw [List.mem_singleton.mp h]
      exact hdigit n hn
    · rcases List.mem_append.mp h with h | h
      · exact ih (n / 10) (by omega) h
      · rw [List.mem_singleton.mp h]
        exact hdigit _ (Nat.mod_lt n (by omega))

theorem value_text (n : ℕ) : value (text n) = n := by
  induction n using Nat.strong_induction_on with
  | _ n ih =>
    rw [text_eq]
    split_ifs with h
    · rw [← List.nil_append [digit n], value_append, toNat_digit h]
      change 10 * 0 + (48 + n - 48) = n
      omega
    · rw [value_append, ih (n / 10) (by omega), toNat_digit (Nat.mod_lt n (by omega))]
      omega

theorem value_lt (digits : List UInt8) (h : ∀ b ∈ digits, isDigit b) :
    value digits < 10 ^ digits.length := by
  induction digits using List.reverseRecOn with
  | nil => decide
  | append_singleton digits b ih =>
    have hvalue := ih fun c hc => h c (List.mem_append_left _ hc)
    have hb := isDigit_iff.mp (h b (by simp))
    rw [value_append, List.length_append, List.length_singleton, pow_succ]
    omega

/-- No digits stand for their number in fewer digits than its decimal form. -/
theorem length_text_value {digits : List UInt8} (hne : digits ≠ [])
    (h : ∀ b ∈ digits, isDigit b) : (text (value digits)).length ≤ digits.length := by
  rw [text, List.length_map, Nat.length_toDigits_le_iff (by omega) (List.length_pos_iff.mpr hne)]
  exact value_lt digits h

/-- A decimal form begins with a zero only if it is that of zero. -/
theorem head?_text {n : ℕ} (h : n ≠ 0) : (text n).head? ≠ some 48 := by
  induction n using Nat.strong_induction_on with
  | _ n ih =>
    rw [text_eq]
    split_ifs with hn
    · intro hhead
      have hdigit := congrArg UInt8.toNat (Option.some.inj hhead)
      rw [toNat_digit hn] at hdigit
      have : (48 : UInt8).toNat = 48 := rfl
      omega
    · rw [List.head?_append_of_ne_nil _ (text_ne_nil _)]
      exact ih (n / 10) (by omega) (by omega)

/-- Digits with no superfluous zero in front of them are the decimal form of their number. -/
theorem text_value {digits : List UInt8} (hne : digits ≠ []) (h : ∀ b ∈ digits, isDigit b)
    (hlead : digits.head? = some 48 → digits = [48]) : text (value digits) = digits := by
  induction digits using List.reverseRecOn with
  | nil => exact absurd rfl hne
  | append_singleton digits b ih =>
    have hb := isDigit_iff.mp (h b (by simp))
    have hlast : digit (b.toNat - 48) = b := by
      apply UInt8.toNat_inj.mp
      rw [toNat_digit (by omega)]
      omega
    rw [value_append, text_eq]
    rcases eq_or_ne digits [] with rfl | hnil
    · change (if 10 * 0 + (b.toNat - 48) < 10 then [digit (10 * 0 + (b.toNat - 48))] else _) = _
      rw [if_pos (by omega), Nat.mul_zero, Nat.zero_add, hlast]
      rfl
    · -- The digits in front have no superfluous zero either, and are not just a zero.
      have hzero : digits.head? ≠ some 48 := by
        intro hhead
        have hone := hlead (by rw [List.head?_append_of_ne_nil _ hnil, hhead])
        have hlength := congrArg List.length hone
        rw [List.length_append, List.length_singleton, List.length_singleton] at hlength
        exact hnil (List.length_eq_zero_iff.mp (by omega))
      have hfront := ih hnil (fun c hc => h c (List.mem_append_left _ hc))
        fun hhead => absurd hhead hzero
      have hpos : value digits ≠ 0 := by
        intro hvalue
        rw [hvalue] at hfront
        rw [← hfront] at hzero
        exact hzero rfl
      rw [if_neg (by omega), show (10 * value digits + (b.toNat - 48)) / 10 = value digits by omega,
        show (10 * value digits + (b.toNat - 48)) % 10 = b.toNat - 48 by omega, hfront, hlast]

end Decimal
