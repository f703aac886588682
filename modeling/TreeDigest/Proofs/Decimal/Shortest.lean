import Mathlib.Tactic.FieldSimp
import TreeDigest.Decimal.Shortest
import TreeDigest.Proofs.Binary.Nearest
import TreeDigest.Proofs.Decimal.Digits

/-!
# The shortest decimal reads back

A decimal is read as the double nearest to the number it stands for: what
`Decimal.nearest` says of decimals far out of range without a look at the number is
what rounding would say too. So decimals of the same number are read alike, and the
one that the search for the shortest ends with is read as the magnitude that it was
searched for.
-/

namespace TreeDigest.Decimal

open Binary

variable {d d' : Decimal}

theorem ten_zpow_pos (e : ℤ) : (0 : ℚ) < 10 ^ e := zpow_pos (by norm_num) e

theorem ten_zpow_le {a b : ℤ} (h : a ≤ b) : (10 : ℚ) ^ a ≤ 10 ^ b := zpow_le_zpow_right₀ (by norm_num) h

theorem ten_zpow_add (a b : ℤ) : (10 : ℚ) ^ (a + b) = 10 ^ a * 10 ^ b := zpow_add₀ (by norm_num) a b

/-- The number that a decimal stands for. -/
def toRat (d : Decimal) : ℚ := d.digits * 10 ^ d.exponent

theorem toRat_eq_zero : d.toRat = 0 ↔ d.digits = 0 := by
  rw [toRat, mul_eq_zero, or_iff_left (ten_zpow_pos d.exponent).ne', Nat.cast_eq_zero]

theorem den_toRatio (d : Decimal) : 0 < d.toRatio.den := by
  unfold toRatio
  split
  · exact Nat.one_pos
  · exact Nat.pow_pos (by decide)

theorem toRat_toRatio (d : Decimal) : d.toRatio.toRat = d.toRat := by
  obtain ⟨n, e⟩ := d
  cases e with
  | ofNat k =>
    show ((n * 10 ^ k : ℕ) : ℚ) / ((1 : ℕ) : ℚ) = n * 10 ^ (k : ℤ)
    rw [Nat.cast_one, div_one, zpow_natCast]
    push_cast
    rfl
  | negSucc k =>
    show (n : ℚ) / ((10 ^ (k + 1) : ℕ) : ℚ) = n * 10 ^ Int.negSucc k
    rw [zpow_negSucc]
    push_cast
    rfl

/-! ## Reading depends on the number alone -/

/-- Ten is more than the third power of two. -/
theorem two_pow_le_ten_pow {m n : ℕ} (h : m ≤ 3 * n) : (2 : ℚ) ^ m ≤ 10 ^ n :=
  calc (2 : ℚ) ^ m ≤ 2 ^ (3 * n) := pow_le_pow_right₀ (by norm_num) h
    _ = 8 ^ n := by rw [pow_mul]; norm_num
    _ ≤ 10 ^ n := pow_le_pow_left₀ (by norm_num) (by norm_num) n

/-- A number beyond all doubles is read as infinity. -/
theorem nearest_of_large {r : Ratio} (hden : 0 < r.den) (h : (10 : ℚ) ^ (401 : ℤ) ≤ r.toRat) :
    double.nearest r = double.infinity := by
  have hbound : (2 : ℚ) ^ (double.leastExponent + double.fractionBits + (2046 : ℕ)) ≤ r.toRat := by
    refine le_trans ?_ h
    exact two_pow_le_ten_pow (m := 1024) (n := 401) (by decide)
  have hle := double.le_nearest 2046 hden hbound
  have hge : double.nearest r ≤ double.infinity := by
    unfold Layout.nearest
    split
    · exact Nat.zero_le _
    · exact Nat.min_le_left _ _
  have hreach : (2046 + 1) * 2 ^ double.fractionBits = double.infinity := rfl
  rw [hreach, Nat.min_self] at hle
  exact Nat.le_antisymm hge hle

/-- A number below all doubles but zero is read as zero. -/
theorem nearest_of_small {r : Ratio} (hden : 0 < r.den) (h : r.toRat < (10 : ℚ) ^ (-400 : ℤ)) :
    double.nearest r = 0 := by
  refine double.nearest_eq_zero hden (lt_of_lt_of_le h ?_)
  have hle : (2 : ℚ) ^ 1075 ≤ 10 ^ 400 := two_pow_le_ten_pow (by decide)
  show (10 : ℚ) ^ (-400 : ℤ) ≤ 2 ^ (-1075 : ℤ)
  rw [zpow_neg, zpow_neg]
  exact inv_anti₀ (two_zpow_pos _) hle

theorem ten_zpow_le_toRat (h : d.digits ≠ 0) : (10 : ℚ) ^ d.exponent ≤ d.toRat :=
  le_mul_of_one_le_left (ten_zpow_pos _).le (by exact_mod_cast Nat.pos_of_ne_zero h)

theorem toRat_lt (d : Decimal) : d.toRat < 10 ^ (d.exponent + (Nat.log2 d.digits + 1 : Nat)) := by
  have hdigits : (d.digits : ℚ) < 10 ^ (Nat.log2 d.digits + 1) := by
    have hlog : d.digits < 2 ^ (Nat.log2 d.digits + 1) := Nat.lt_log2_self
    have hpow : 2 ^ (Nat.log2 d.digits + 1) ≤ 10 ^ (Nat.log2 d.digits + 1) :=
      Nat.pow_le_pow_left (by decide) _
    exact_mod_cast Nat.lt_of_lt_of_le hlog hpow
  rw [toRat, add_comm, ten_zpow_add, zpow_natCast]
  exact mul_lt_mul_of_pos_right hdigits (ten_zpow_pos _)

/-- **A decimal is read as the double nearest to it.** -/
theorem nearest_double (d : Decimal) : nearest double d = double.nearest d.toRatio := by
  unfold nearest exponentBound
  split
  · rename_i hzero
    have hnum : d.toRatio.num = 0 := by
      rwa [← Ratio.toRat_eq_zero d.den_toRatio, toRat_toRatio, toRat_eq_zero]
    rw [double.nearest_zero hnum]
  rename_i hdigits
  split
  · rename_i hlarge
    refine (nearest_of_large d.den_toRatio ?_).symm
    rw [toRat_toRatio]
    exact le_trans (ten_zpow_le (by omega)) (ten_zpow_le_toRat hdigits)
  split
  · rename_i hsmall
    refine (nearest_of_small d.den_toRatio ?_).symm
    rw [toRat_toRatio]
    exact lt_of_lt_of_le d.toRat_lt (ten_zpow_le (by omega))
  · rfl

theorem nearest_congr (h : d.toRat = d'.toRat) : nearest double d = nearest double d' := by
  rw [nearest_double, nearest_double]
  apply double.nearest_congr d.den_toRatio d'.den_toRatio
  rw [toRat_toRatio, toRat_toRatio, h]

/-- A decimal that is read as a finite double does not have a great exponent. -/
theorem lead_le (hdigits : d.digits ≠ 0) (h : nearest double d < double.infinity) :
    d.exponent + (Bytes.decimal d.digits).length - 1 ≤ 400 := by
  by_contra hlead
  have hlength : 0 < (Bytes.decimal d.digits).length :=
    List.length_pos_iff.mpr (Bytes.decimal_ne_nil _)
  have hle : (10 : ℚ) ^ (((Bytes.decimal d.digits).length - 1 : ℕ) : ℤ) ≤ d.digits := by
    rw [zpow_natCast]
    exact_mod_cast Bytes.pow_le_of_length (Nat.pos_of_ne_zero hdigits)
  rw [nearest_double, nearest_of_large d.den_toRatio] at h
  · exact Nat.lt_irrefl _ h
  rw [toRat_toRatio]
  calc (10 : ℚ) ^ (401 : ℤ)
      ≤ 10 ^ ((((Bytes.decimal d.digits).length - 1 : ℕ) : ℤ) + d.exponent) :=
        ten_zpow_le (by omega)
    _ = 10 ^ (((Bytes.decimal d.digits).length - 1 : ℕ) : ℤ) * 10 ^ d.exponent := ten_zpow_add _ _
    _ ≤ d.toRat := mul_le_mul_of_nonneg_right hle (ten_zpow_pos _).le

/-! ## The search -/

variable {tie : Tie} {k : Nat}

theorem toRat_trim (count : Nat) (d : Decimal) : (trim count d).toRat = d.toRat := by
  unfold trim
  split
  · rename_i h
    rw [toRat, toRat, h, Nat.cast_one, one_mul, ten_zpow_add, zpow_natCast, Nat.pow_eq]
    push_cast
    ring
  · rfl

theorem toRat_exact {l : Layout} : (exact l k).toRat = (l.value k).toRat := by
  cases hparts : l.parts k with
  | mk m q =>
    rw [l.toRat_value hparts, exact, hparts]
    dsimp only
    cases q with
    | ofNat n =>
      show ((m * 2 ^ n : ℕ) : ℚ) * 10 ^ (0 : ℤ) = m * 2 ^ (n : ℤ)
      rw [zpow_zero, mul_one, zpow_natCast]
      push_cast
      rfl
    | negSucc n =>
      -- A half is five tenths.
      show ((m * 5 ^ (n + 1) : ℕ) : ℚ) * 10 ^ Int.negSucc n = m * 2 ^ Int.negSucc n
      have hten : (10 : ℚ) ^ (n + 1) = 2 ^ (n + 1) * 5 ^ (n + 1) := by rw [← mul_pow]; norm_num
      rw [zpow_negSucc, zpow_negSucc, hten]
      push_cast
      field_simp

/-- **The shortest decimal of a magnitude is read as that magnitude.** -/
theorem nearest_shortest (hk : k ≤ double.infinity) : nearest double (shortest double tie k) = k := by
  suffices h : ∀ lead left count, nearest double (search double tie k lead left count) = k from
    h _ _ _
  intro lead left
  induction left with
  -- with no length left to try, the search ends with all digits of the number
  | zero =>
    intro count
    rw [search, nearest_double]
    rw [double.nearest_congr (den_toRatio _) (double.den_value k) ((toRat_toRatio _).trans toRat_exact)]
    exact double.nearest_value hk
  | succ left ih =>
    intro count
    rw [search]
    split
    · -- a candidate is taken for being read as the magnitude, and what is cut off are zeros
      rename_i d hd
      rw [nearest_congr (toRat_trim count d)]
      exact eq_of_beq (List.find?_some (p := fun d => nearest double d == k) hd)
    · exact ih (count + 1)

end TreeDigest.Decimal
