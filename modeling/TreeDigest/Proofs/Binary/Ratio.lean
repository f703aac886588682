import Mathlib.Algebra.Order.Field.Power
import Mathlib.Data.Rat.Lemmas
import Mathlib.Tactic.Linarith
import Mathlib.Tactic.Ring
import TreeDigest.Binary

/-!
# Fractions as rational numbers

What is computed with a fraction depends on the rational number that it stands for
and not on its terms: the integer nearest to it, and the power of two below it.
-/

namespace TreeDigest.Binary

theorem two_zpow_pos (e : ℤ) : (0 : ℚ) < 2 ^ e := zpow_pos (by norm_num) e

theorem two_zpow_le {a b : ℤ} (h : a ≤ b) : (2 : ℚ) ^ a ≤ 2 ^ b := zpow_le_zpow_right₀ (by norm_num) h

theorem two_zpow_lt {a b : ℤ} : (2 : ℚ) ^ a < 2 ^ b ↔ a < b :=
  zpow_lt_zpow_iff_right₀ (by norm_num)

theorem two_zpow_add (a b : ℤ) : (2 : ℚ) ^ (a + b) = 2 ^ a * 2 ^ b := zpow_add₀ (by norm_num) a b

namespace Ratio

/-- The number that a fraction stands for. -/
def toRat (r : Ratio) : ℚ := r.num / r.den

variable {r s : Ratio} {tie : Tie}

theorem toRat_eq_zero (hden : 0 < r.den) : r.toRat = 0 ↔ r.num = 0 := by
  have hden' : (r.den : ℚ) ≠ 0 := Nat.cast_ne_zero.mpr (Nat.ne_of_gt hden)
  rw [toRat, div_eq_zero_iff, or_iff_left hden', Nat.cast_eq_zero]

theorem toRat_le (hr : 0 < r.den) (hs : 0 < s.den) :
    r.toRat ≤ s.toRat ↔ r.num * s.den ≤ s.num * r.den := by
  rw [toRat, toRat, div_le_div_iff₀ (Nat.cast_pos.mpr hr) (Nat.cast_pos.mpr hs)]
  exact_mod_cast Iff.rfl

theorem toRat_inj (hr : 0 < r.den) (hs : 0 < s.den) :
    r.toRat = s.toRat ↔ r.num * s.den = s.num * r.den := by
  rw [le_antisymm_iff, toRat_le hr hs, toRat_le hs hr, ← le_antisymm_iff]

/-! ## Scaling -/

theorem den_scale {n d : Nat} (hd : 0 < d) (q : ℤ) : 0 < (scale n d q).den := by
  cases q with
  | ofNat k => exact hd
  | negSucc k => exact Nat.mul_pos hd (Nat.pow_pos (by decide))

theorem toRat_scale (n d : Nat) (q : ℤ) : (scale n d q).toRat = (n / d : ℚ) * 2 ^ q := by
  cases q with
  | ofNat k =>
    show ((n * 2 ^ k : ℕ) : ℚ) / d = _
    rw [Int.ofNat_eq_natCast, zpow_natCast]
    push_cast
    ring
  | negSucc k =>
    show (n : ℚ) / ((d * 2 ^ (k + 1) : ℕ) : ℚ) = _
    rw [zpow_negSucc]
    push_cast
    rw [div_mul_eq_div_div]
    rfl

theorem num_scale_pos {n d : Nat} (hn : 0 < n) (q : ℤ) : 0 < (scale n d q).num := by
  cases q with
  | ofNat k => exact Nat.mul_pos hn (Nat.pow_pos (by decide))
  | negSucc k => exact hn

/-! ## The nearest integer -/

/-- Equal numbers are nearest to the same integer. -/
theorem toNearest_congr (hr : 0 < r.den) (hs : 0 < s.den) (h : r.toRat = s.toRat) :
    r.toNearest tie = s.toNearest tie := by
  rw [toRat_inj hr hs] at h
  have hlow : r.num / r.den = s.num / s.den := by
    rw [← Nat.mul_div_mul_right _ _ hs, h, Nat.mul_comm r.den, Nat.mul_div_mul_right _ _ hr]
  have hrest : r.num % r.den * s.den = s.num % s.den * r.den := by
    rw [← Nat.mul_mod_mul_right, ← Nat.mul_mod_mul_right, h, Nat.mul_comm r.den]
  -- Twice the rest is compared with the denominator; both sides are scaled by the other one.
  have hbelow : 2 * (r.num % r.den) < r.den ↔ 2 * (s.num % s.den) < s.den := by
    rw [← Nat.mul_lt_mul_right hs, Nat.mul_assoc, hrest, ← Nat.mul_assoc, Nat.mul_comm r.den,
      Nat.mul_lt_mul_right hr]
  have habove : r.den < 2 * (r.num % r.den) ↔ s.den < 2 * (s.num % s.den) := by
    rw [← Nat.mul_lt_mul_right hs, Nat.mul_assoc, hrest, ← Nat.mul_assoc, Nat.mul_comm r.den,
      Nat.mul_lt_mul_right hr]
  simp only [toNearest, hlow, hbelow, habove]

theorem toNearest_natCast {n : Nat} (hr : 0 < r.den) (h : r.toRat = n) : r.toNearest tie = n := by
  have hone : (⟨n, 1⟩ : Ratio).toRat = n := by
    show (n : ℚ) / ((1 : ℕ) : ℚ) = n
    rw [Nat.cast_one, div_one]
  rw [toNearest_congr hr Nat.one_pos (h.trans hone.symm)]
  simp [toNearest, Nat.mod_one]

theorem low_le_toNearest : r.num / r.den ≤ r.toNearest tie := by
  unfold toNearest Tie.settle
  dsimp only
  split
  · exact Nat.le_refl _
  split
  · exact Nat.le_succ _
  · cases tie <;> dsimp only <;> omega

theorem toNearest_le_high : r.toNearest tie ≤ r.num / r.den + 1 := by
  unfold toNearest Tie.settle
  dsimp only
  split
  · exact Nat.le_succ _
  split
  · exact Nat.le_refl _
  · cases tie <;> dsimp only <;> omega

theorem le_toNearest {n : Nat} (hr : 0 < r.den) (h : n ≤ r.toRat) : n ≤ r.toNearest tie := by
  refine Nat.le_trans ?_ low_le_toNearest
  rw [toRat, le_div_iff₀ (Nat.cast_pos.mpr hr)] at h
  exact (Nat.le_div_iff_mul_le hr).mpr (by exact_mod_cast h)

theorem toNearest_le {n : Nat} (hr : 0 < r.den) (h : r.toRat < n) : r.toNearest tie ≤ n := by
  refine Nat.le_trans toNearest_le_high ?_
  rw [toRat, div_lt_iff₀ (Nat.cast_pos.mpr hr)] at h
  exact (Nat.div_lt_iff_lt_mul hr).mpr (by exact_mod_cast h)

theorem toNearest_eq_zero (hr : 0 < r.den) (h : r.toRat < 1 / 2) : r.toNearest tie = 0 := by
  rw [toRat, div_lt_iff₀ (Nat.cast_pos.mpr hr)] at h
  have htwice : 2 * r.num < r.den := by
    have : (2 : ℚ) * r.num < r.den := by linarith
    exact_mod_cast this
  have hlow : r.num / r.den = 0 := Nat.div_eq_of_lt (by omega)
  have hmod : r.num % r.den = r.num := Nat.mod_eq_of_lt (by omega)
  simp [toNearest, hlow, hmod, htwice]

/-! ## The power of two below -/

theorem toRat_lt_two_zpow {n : Nat} : (n : ℚ) < 2 ^ ((Nat.log2 n : ℤ) + 1) := by
  have h : n < 2 ^ (Nat.log2 n + 1) := Nat.lt_log2_self
  exact_mod_cast h

theorem two_zpow_le_natCast {n : Nat} (hn : n ≠ 0) : (2 : ℚ) ^ (Nat.log2 n : ℤ) ≤ n := by
  have h : 2 ^ Nat.log2 n ≤ n := Nat.log2_self_le hn
  exact_mod_cast h

/-- **`log2` is the exponent of the power of two below a fraction.** -/
theorem log2_spec (hnum : 0 < r.num) (hden : 0 < r.den) :
    (2 : ℚ) ^ r.log2 ≤ r.toRat ∧ r.toRat < 2 ^ (r.log2 + 1) := by
  have hn := two_zpow_le_natCast (Nat.ne_of_gt hnum)
  have hd := two_zpow_le_natCast (Nat.ne_of_gt hden)
  have hn' := toRat_lt_two_zpow (n := r.num)
  have hd' := toRat_lt_two_zpow (n := r.den)
  have hdpos : (0 : ℚ) < r.den := Nat.cast_pos.mpr hden
  have hunit : (scale 1 1 ((Nat.log2 r.num : ℤ) - Nat.log2 r.den)).toRat =
      2 ^ ((Nat.log2 r.num : ℤ) - Nat.log2 r.den) := by
    rw [toRat_scale, Nat.cast_one, div_one, one_mul]
  have hle := toRat_le (den_scale (n := 1) Nat.one_pos ((Nat.log2 r.num : ℤ) - Nat.log2 r.den)) hden
  rw [hunit] at hle
  unfold log2
  dsimp only
  generalize (Nat.log2 r.num : ℤ) = a at *
  generalize (Nat.log2 r.den : ℤ) = b at *
  have habove : r.toRat < 2 ^ (a - b + 1) := by
    rw [toRat, div_lt_iff₀ hdpos]
    calc (r.num : ℚ) < 2 ^ (a + 1) := hn'
      _ = 2 ^ (a - b + 1) * 2 ^ b := by rw [← two_zpow_add]; congr 1; omega
      _ ≤ 2 ^ (a - b + 1) * r.den := mul_le_mul_of_nonneg_left hd (two_zpow_pos _).le
  have hbelow : (2 : ℚ) ^ (a - b - 1) ≤ r.toRat := by
    rw [toRat, le_div_iff₀ hdpos]
    calc (2 : ℚ) ^ (a - b - 1) * r.den ≤ 2 ^ (a - b - 1) * 2 ^ (b + 1) :=
          mul_le_mul_of_nonneg_left hd'.le (two_zpow_pos _).le
      _ = 2 ^ a := by rw [← two_zpow_add]; congr 1; omega
      _ ≤ r.num := hn
  split
  · exact ⟨hle.mpr ‹_›, habove⟩
  · rw [sub_add_cancel]
    exact ⟨hbelow, lt_of_not_ge fun h => ‹¬_› (hle.mp h)⟩

end Ratio

end TreeDigest.Binary
