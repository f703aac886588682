import Mathlib.Algebra.Ring.Nat
import TreeDigest.Bytes

/-!
# Numbers in decimal digits

`Bytes.decimal` writes a number with its digits, most significant first and without
a zero in front, and `Bytes.ofDecimal` reads digits. Reading takes back writing,
also when zeros are put after the digits or before them.
-/

namespace TreeDigest.Bytes

/-- The octet of a digit. -/
def digit (n : Nat) : UInt8 := (Nat.digitChar n).toNat.toUInt8

theorem isDigit_digit : ∀ n < 10, isDigit (digit n) = true := by decide

theorem digit_sub : ∀ n < 10, (digit n).toNat - 0x30 = n := by decide

/-- The digits of a number are those of its tenth and the last one. -/
theorem decimal_eq (n : Nat) :
    decimal n = if n < 10 then [digit n] else decimal (n / 10) ++ [digit (n % 10)] := by
  rw [decimal, Nat.toDigits_eq_if (by decide)]
  split
  · rfl
  · rw [List.map_append]
    rfl

/-- Numbers in decimal are taken apart from the last digit on. -/
theorem decimal_induction {p : Nat → Prop} (hdigit : ∀ n < 10, p n)
    (hmore : ∀ n d, d < 10 → 0 < n → p n → p (10 * n + d)) (n : Nat) : p n := by
  induction n using Nat.strongRecOn with
  | ind n ih =>
    by_cases h : n < 10
    · exact hdigit n h
    · have hsplit : n = 10 * (n / 10) + n % 10 := (Nat.div_add_mod n 10).symm
      rw [hsplit]
      exact hmore _ _ (Nat.mod_lt _ (by decide)) (by omega) (ih _ (by omega))

theorem decimal_of_lt {n : Nat} (h : n < 10) : decimal n = [digit n] := by
  rw [decimal_eq, if_pos h]

theorem decimal_append {n d : Nat} (hd : d < 10) (hn : 0 < n) :
    decimal (10 * n + d) = decimal n ++ [digit d] := by
  have hdiv : (10 * n + d) / 10 = n := by omega
  have hmod : (10 * n + d) % 10 = d := by omega
  rw [decimal_eq, if_neg (by omega), hdiv, hmod]

theorem isDigit_of_mem_decimal {n : Nat} {b : UInt8} (h : b ∈ decimal n) : isDigit b = true := by
  induction n using decimal_induction with
  | hdigit n hn =>
    rw [decimal_of_lt hn] at h
    exact List.mem_singleton.mp h ▸ isDigit_digit n hn
  | hmore n d hd hn ih =>
    rw [decimal_append hd hn] at h
    rcases List.mem_append.mp h with h | h
    · exact ih h
    · exact List.mem_singleton.mp h ▸ isDigit_digit d hd

theorem decimal_ne_nil (n : Nat) : decimal n ≠ [] := by
  rw [decimal_eq]
  split
  · simp
  · simp

/-- A number that is not zero does not begin with a zero. -/
theorem head?_decimal {n : Nat} (h : 0 < n) : (decimal n).head? ≠ some 0x30 := by
  induction n using decimal_induction with
  | hdigit n hn =>
    have hzero : ∀ n < 10, digit n = 0x30 → n = 0 := by decide
    rw [decimal_of_lt hn]
    intro hhead
    have := hzero n hn (Option.some.inj hhead)
    omega
  | hmore n d hd hn ih =>
    rw [decimal_append hd hn]
    cases hdigits : decimal n with
    | nil => exact absurd hdigits (decimal_ne_nil n)
    | cons b rest =>
      have hhead := ih hn
      rw [hdigits] at hhead
      exact hhead

/-- A number has as many digits as its power of ten says. -/
theorem pow_le_of_length {n : Nat} (hn : 0 < n) : 10 ^ ((decimal n).length - 1) ≤ n := by
  induction n using decimal_induction with
  | hdigit n h =>
    rw [decimal_of_lt h]
    exact hn
  | hmore n d hd hpos ih =>
    have hne : 0 < (decimal n).length := List.length_pos_iff.mpr (decimal_ne_nil n)
    have hlength : (decimal n).length = (decimal n).length - 1 + 1 := by omega
    rw [decimal_append hd hpos, List.length_append, List.length_singleton, Nat.add_sub_cancel,
      hlength, Nat.pow_succ]
    have := ih hpos
    omega

theorem lt_pow_length (n : Nat) : n < 10 ^ (decimal n).length := by
  induction n using decimal_induction with
  | hdigit n h =>
    rw [decimal_of_lt h]
    exact h
  | hmore n d hd hpos ih =>
    rw [decimal_append hd hpos, List.length_append, List.length_singleton, Nat.pow_succ]
    omega

/-- A greater number has no fewer digits. -/
theorem length_decimal_mono {m n : Nat} (h : m ≤ n) : (decimal m).length ≤ (decimal n).length := by
  rcases Nat.eq_zero_or_pos m with rfl | hm
  · exact List.length_pos_iff.mpr (decimal_ne_nil n)
  · have hpow : 10 ^ ((decimal m).length - 1) < 10 ^ (decimal n).length :=
      Nat.lt_of_le_of_lt (Nat.le_trans (pow_le_of_length hm) h) (lt_pow_length n)
    have := (Nat.pow_lt_pow_iff_right (by decide)).mp hpow
    omega

/-- A number has at most one digit more than it says. -/
theorem length_decimal_le (n : Nat) : (decimal n).length ≤ n + 1 := by
  rcases Nat.eq_zero_or_pos n with rfl | hn
  · exact Nat.le_refl _
  · have := Nat.lt_of_lt_of_le (Nat.lt_pow_self (by decide)) (pow_le_of_length hn)
    omega

/-! ## Reading -/

theorem ofDecimal_append (digits : Bytes) (b : UInt8) :
    ofDecimal (digits ++ [b]) = 10 * ofDecimal digits + (b.toNat - 0x30) := by
  rw [ofDecimal, List.foldl_append]
  rfl

/-- **Reading takes back writing.** -/
theorem ofDecimal_decimal (n : Nat) : ofDecimal (decimal n) = n := by
  induction n using decimal_induction with
  | hdigit n hn =>
    rw [decimal_of_lt hn]
    show 10 * 0 + ((digit n).toNat - 0x30) = n
    rw [digit_sub n hn, Nat.mul_zero, Nat.zero_add]
  | hmore n d hd hn ih => rw [decimal_append hd hn, ofDecimal_append, ih, digit_sub d hd]

/-- Zeros in front do not count. -/
theorem ofDecimal_zeros (k : Nat) (digits : Bytes) :
    ofDecimal (List.replicate k 0x30 ++ digits) = ofDecimal digits := by
  induction k with
  | zero => rfl
  | succ k ih => exact ih

/-- Each zero at the end is a factor of ten. -/
theorem ofDecimal_append_zeros (digits : Bytes) (k : Nat) :
    ofDecimal (digits ++ List.replicate k 0x30) = ofDecimal digits * 10 ^ k := by
  induction k with
  | zero => rw [List.replicate_zero, List.append_nil, Nat.pow_zero, Nat.mul_one]
  | succ k ih =>
    rw [List.replicate_succ', ← List.append_assoc, ofDecimal_append, ih, Nat.pow_succ]
    show 10 * (ofDecimal digits * 10 ^ k) + 0 = _
    rw [Nat.add_zero, Nat.mul_comm, Nat.mul_assoc]

theorem not_nul_mem_decimal (n : Nat) : (0 : UInt8) ∉ decimal n :=
  fun h => Bool.noConfusion (isDigit_of_mem_decimal h)

end TreeDigest.Bytes
