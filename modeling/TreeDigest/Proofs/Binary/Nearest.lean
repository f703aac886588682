import TreeDigest.Proofs.Binary.Ratio

/-!
# Rounding to a binary format

`Layout.nearest` depends on the number alone, takes the value of a magnitude to that
magnitude, and stays within the powers of two around a number. So a number beyond
all finite ones goes to infinity, and one far below the smallest goes to zero.
-/

namespace TreeDigest.Binary

namespace Ratio

variable {r s : Ratio}

theorem log2_eq {e : ℤ} (hnum : 0 < r.num) (hden : 0 < r.den) (hle : (2 : ℚ) ^ e ≤ r.toRat)
    (hlt : r.toRat < 2 ^ (e + 1)) : r.log2 = e := by
  obtain ⟨hle', hlt'⟩ := log2_spec hnum hden
  have h : e < r.log2 + 1 := two_zpow_lt.mp (lt_of_le_of_lt hle hlt')
  have h' : r.log2 < e + 1 := two_zpow_lt.mp (lt_of_le_of_lt hle' hlt)
  omega

theorem le_log2 {e : ℤ} (hnum : 0 < r.num) (hden : 0 < r.den) (h : (2 : ℚ) ^ e ≤ r.toRat) :
    e ≤ r.log2 := by
  have : e < r.log2 + 1 := two_zpow_lt.mp (lt_of_le_of_lt h (log2_spec hnum hden).2)
  omega

theorem log2_lt {e : ℤ} (hnum : 0 < r.num) (hden : 0 < r.den) (h : r.toRat < 2 ^ e) : r.log2 < e :=
  two_zpow_lt.mp (lt_of_le_of_lt (log2_spec hnum hden).1 h)

/-- A fraction in units of a power of two. -/
theorem toRat_scale_self (r : Ratio) (q : ℤ) : (scale r.num r.den q).toRat = r.toRat * 2 ^ q :=
  toRat_scale r.num r.den q

end Ratio

namespace Layout

variable (l : Layout) {r s : Ratio}

/-- The exponent of the last place to which a fraction is rounded. -/
def place (r : Ratio) : ℤ := max (r.log2 - l.fractionBits) l.leastExponent

theorem nearest_eq (hnum : 0 < r.num) : l.nearest r =
    min l.infinity ((l.place r - l.leastExponent).toNat * 2 ^ l.fractionBits +
      (Ratio.scale r.num r.den (-l.place r)).toNearest .even) := by
  rw [nearest, if_neg (Nat.ne_of_gt hnum)]
  rfl

theorem nearest_zero (h : r.num = 0) : l.nearest r = 0 := if_pos h

/-- Rounding depends on the number alone. -/
theorem nearest_congr (hr : 0 < r.den) (hs : 0 < s.den) (h : r.toRat = s.toRat) :
    l.nearest r = l.nearest s := by
  rcases Nat.eq_zero_or_pos r.num with hzero | hnum
  · have hzero' : s.num = 0 := by rwa [← Ratio.toRat_eq_zero hs, ← h, Ratio.toRat_eq_zero hr]
    rw [nearest_zero l hzero, nearest_zero l hzero']
  have hnum' : 0 < s.num := by
    refine Nat.pos_of_ne_zero fun hzero => Nat.ne_of_gt hnum ?_
    rwa [← Ratio.toRat_eq_zero hr, h, Ratio.toRat_eq_zero hs]
  have hlog : r.log2 = s.log2 := by
    obtain ⟨hle, hlt⟩ := Ratio.log2_spec hnum' hs
    exact Ratio.log2_eq hnum hr (h ▸ hle) (h ▸ hlt)
  have hplace : l.place r = l.place s := by rw [place, place, hlog]
  rw [nearest_eq l hnum, nearest_eq l hnum', hplace]
  congr 2
  apply Ratio.toNearest_congr (Ratio.den_scale hr _) (Ratio.den_scale hs _)
  rw [Ratio.toRat_scale_self, Ratio.toRat_scale_self, h]

/-! ## Magnitudes are kept -/

/-- The value of a magnitude: its integer is below that of the next place, and reaches it
unless the place is the least. -/
theorem parts_spec (k : Nat) : ∃ m j : ℕ, l.parts k = (m, l.leastExponent + j) ∧
    k = j * 2 ^ l.fractionBits + m ∧ m < 2 ^ (l.fractionBits + 1) ∧
    (2 ^ l.fractionBits ≤ m ∨ j = 0 ∧ m < 2 ^ l.fractionBits) := by
  have hpos : 0 < 2 ^ l.fractionBits := Nat.pow_pos (by decide)
  have hsplit := Nat.div_add_mod k (2 ^ l.fractionBits)
  have hrest := Nat.mod_lt k hpos
  -- the field is zero for the numbers below the least normal one, and they share its place
  by_cases hfield : k / 2 ^ l.fractionBits = 0
  · refine ⟨k % 2 ^ l.fractionBits, 0, ?_, ?_, by omega, .inr ⟨rfl, hrest⟩⟩
    · simp only [parts, Nat.pow_eq]
      rw [if_pos hfield, Nat.cast_zero, add_zero]
    · rw [hfield] at hsplit
      omega
  · obtain ⟨j, hj⟩ := Nat.exists_eq_succ_of_ne_zero hfield
    refine ⟨2 ^ l.fractionBits + k % 2 ^ l.fractionBits, j, ?_, ?_, by omega, .inl (by omega)⟩
    · simp only [parts, Nat.pow_eq]
      rw [if_neg hfield, hj]
      rfl
    · rw [hj, Nat.mul_succ, Nat.mul_comm] at hsplit
      omega

theorem value_eq {k m : Nat} {q : ℤ} (h : l.parts k = (m, q)) : l.value k = Ratio.scale m 1 q := by
  rw [value, h]

theorem den_value (k : Nat) : 0 < (l.value k).den := Ratio.den_scale Nat.one_pos _

theorem toRat_value {k m : Nat} {q : ℤ} (h : l.parts k = (m, q)) :
    (l.value k).toRat = m * 2 ^ q := by
  rw [value_eq l h, Ratio.toRat_scale, Nat.cast_one, div_one]

/-- **The value of a finite magnitude is nearest to that magnitude.** -/
theorem nearest_value {k : Nat} (hk : k ≤ l.infinity) : l.nearest (l.value k) = k := by
  obtain ⟨m, j, hparts, hsum, hbelow, hplace⟩ := l.parts_spec k
  have hvalue := l.toRat_value hparts
  rcases Nat.eq_zero_or_pos m with rfl | hm
  · have hzero : (l.value k).num = 0 := by
      rw [← Ratio.toRat_eq_zero (l.den_value k), hvalue, Nat.cast_zero, zero_mul]
    have hk0 : k = 0 := by
      have : 0 < 2 ^ l.fractionBits := Nat.pow_pos (by decide)
      rcases hplace with h | ⟨rfl, -⟩ <;> omega
    rw [nearest_zero l hzero, hk0]
  have hnum : 0 < (l.value k).num := by rw [value_eq l hparts]; exact Ratio.num_scale_pos hm _
  have hq : l.place (l.value k) = l.leastExponent + j := by
    have hlt : (l.value k).toRat < 2 ^ ((l.fractionBits : ℤ) + 1 + (l.leastExponent + j)) := by
      have hbelow' : (m : ℚ) < 2 ^ ((l.fractionBits : ℤ) + 1) := by exact_mod_cast hbelow
      rw [hvalue, two_zpow_add _ (l.leastExponent + j)]
      exact mul_lt_mul_of_pos_right hbelow' (two_zpow_pos _)
    have hlog := Ratio.log2_lt hnum (l.den_value k) hlt
    -- the leading digit says the place, unless the number is too small for its own
    rcases hplace with hreach | ⟨rfl, hsmall⟩
    · have hle : (2 : ℚ) ^ ((l.fractionBits : ℤ) + (l.leastExponent + j)) ≤ (l.value k).toRat := by
        rw [hvalue, two_zpow_add]
        exact mul_le_mul_of_nonneg_right (by exact_mod_cast hreach) (two_zpow_pos _).le
      have := Ratio.le_log2 hnum (l.den_value k) hle
      unfold place
      omega
    · have hlt : (l.value k).toRat < 2 ^ ((l.fractionBits : ℤ) + l.leastExponent) := by
        rw [hvalue, Nat.cast_zero, add_zero, two_zpow_add]
        exact mul_lt_mul_of_pos_right (by exact_mod_cast hsmall) (two_zpow_pos _)
      have := Ratio.log2_lt hnum (l.den_value k) hlt
      unfold place
      omega
  have hscaled : (Ratio.scale (l.value k).num (l.value k).den (-(l.leastExponent + j))).toRat = m := by
    rw [Ratio.toRat_scale_self, hvalue, mul_assoc, ← two_zpow_add, add_neg_cancel, zpow_zero, mul_one]
  rw [nearest_eq l hnum, hq, Ratio.toNearest_natCast (Ratio.den_scale (l.den_value k) _) hscaled]
  have : (l.leastExponent + j - l.leastExponent).toNat = j := by omega
  rw [this, ← hsum, Nat.min_eq_right hk]

/-! ## Bounds -/

/-- A number below a power of two goes at most to the magnitude of that power. -/
theorem nearest_le (j : ℕ) (hden : 0 < r.den)
    (h : r.toRat < 2 ^ (l.leastExponent + l.fractionBits + j)) :
    l.nearest r ≤ (j + 1) * 2 ^ l.fractionBits := by
  rcases Nat.eq_zero_or_pos r.num with hzero | hnum
  · rw [nearest_zero l hzero]
    exact Nat.zero_le _
  rw [nearest_eq l hnum]
  refine Nat.le_trans (Nat.min_le_right _ _) ?_
  have hlog := Ratio.log2_lt hnum hden h
  have hbelow := (Ratio.log2_spec hnum hden).2
  -- In units of the last place a number is below twice what its fraction holds.
  have hscaled (e : ℕ) (he : r.log2 + 1 ≤ l.place r + e) :
      (Ratio.scale r.num r.den (-l.place r)).toNearest .even ≤ 2 ^ e := by
    refine Ratio.toNearest_le (Ratio.den_scale hden _) ?_
    rw [Ratio.toRat_scale_self]
    calc r.toRat * 2 ^ (-l.place r)
        < 2 ^ (r.log2 + 1) * 2 ^ (-l.place r) := mul_lt_mul_of_pos_right hbelow (two_zpow_pos _)
      _ = 2 ^ (r.log2 + 1 - l.place r) := by rw [← two_zpow_add, sub_eq_add_neg]
      _ ≤ 2 ^ (e : ℤ) := two_zpow_le (by omega)
      _ = ((2 ^ e : ℕ) : ℚ) := by rw [zpow_natCast, Nat.cast_pow, Nat.cast_ofNat]
  by_cases hplace : r.log2 - l.fractionBits < l.leastExponent
  · have hle := hscaled l.fractionBits (by unfold place; omega)
    have hq : l.place r - l.leastExponent = 0 := by unfold place; omega
    rw [hq, Int.toNat_zero, Nat.zero_mul, Nat.zero_add, Nat.add_mul, Nat.one_mul]
    omega
  · have hle := hscaled (l.fractionBits + 1) (by unfold place; omega)
    have hq : (l.place r - l.leastExponent).toNat + 1 ≤ j := by unfold place; omega
    have := Nat.mul_le_mul_right (2 ^ l.fractionBits) hq
    rw [Nat.pow_succ] at hle
    rw [Nat.add_mul] at this ⊢
    omega

/-- A magnitude up to that of a power of two stands for at most that power. -/
theorem toRat_value_le (j : ℕ) {k : Nat} (h : k ≤ (j + 1) * 2 ^ l.fractionBits) :
    (l.value k).toRat ≤ 2 ^ (l.leastExponent + l.fractionBits + j) := by
  obtain ⟨m, i, hparts, hsum, hbelow, hplace⟩ := l.parts_spec k
  have hpos : 0 < 2 ^ l.fractionBits := Nat.pow_pos (by decide)
  rw [toRat_value l hparts]
  -- Either the place is a lower one, or the integer is that of the power at most.
  rcases Nat.lt_or_ge i j with hlower | hreach
  · calc (m : ℚ) * 2 ^ (l.leastExponent + i)
        ≤ 2 ^ ((l.fractionBits : ℤ) + 1) * 2 ^ (l.leastExponent + i) :=
          mul_le_mul_of_nonneg_right (by exact_mod_cast hbelow.le) (two_zpow_pos _).le
      _ = 2 ^ ((l.fractionBits : ℤ) + 1 + (l.leastExponent + i)) := (two_zpow_add _ _).symm
      _ ≤ 2 ^ (l.leastExponent + l.fractionBits + j) := two_zpow_le (by omega)
  · have hm : m ≤ 2 ^ l.fractionBits ∧ i = j := by
      have hsteps := Nat.mul_le_mul_right (2 ^ l.fractionBits) hreach
      rw [Nat.add_mul] at h
      refine ⟨by omega, Nat.le_antisymm (Nat.le_of_not_lt fun hgreater => ?_) hreach⟩
      have hmore := Nat.mul_le_mul_right (2 ^ l.fractionBits) (Nat.succ_le_of_lt hgreater)
      rw [Nat.succ_mul] at hmore
      omega
    obtain ⟨hm, rfl⟩ := hm
    calc (m : ℚ) * 2 ^ (l.leastExponent + i)
        ≤ 2 ^ (l.fractionBits : ℤ) * 2 ^ (l.leastExponent + i) :=
          mul_le_mul_of_nonneg_right (by exact_mod_cast hm) (two_zpow_pos _).le
      _ = 2 ^ (l.leastExponent + l.fractionBits + i) := by
          rw [← two_zpow_add]
          congr 1
          omega

/-- A number from a power of two on goes at least to the magnitude of that power. -/
theorem le_nearest (j : ℕ) (hden : 0 < r.den)
    (h : 2 ^ (l.leastExponent + l.fractionBits + j) ≤ r.toRat) :
    min l.infinity ((j + 1) * 2 ^ l.fractionBits) ≤ l.nearest r := by
  have hnum : 0 < r.num := by
    refine Nat.pos_of_ne_zero fun hzero => ?_
    rw [(Ratio.toRat_eq_zero hden).mpr hzero] at h
    exact absurd (two_zpow_pos _) (not_lt.mpr h)
  rw [nearest_eq l hnum]
  refine min_le_min_left _ ?_
  have hlog := Ratio.le_log2 hnum hden h
  have habove := (Ratio.log2_spec hnum hden).1
  have hq : l.place r = r.log2 - l.fractionBits := by unfold place; omega
  have hscaled : 2 ^ l.fractionBits ≤ (Ratio.scale r.num r.den (-l.place r)).toNearest .even := by
    refine Ratio.le_toNearest (Ratio.den_scale hden _) ?_
    rw [Ratio.toRat_scale_self]
    calc ((2 ^ l.fractionBits : ℕ) : ℚ) = 2 ^ (r.log2 + -l.place r) := by
          rw [hq, Nat.cast_pow, Nat.cast_ofNat, ← zpow_natCast]
          congr 1
          omega
      _ = 2 ^ r.log2 * 2 ^ (-l.place r) := two_zpow_add _ _
      _ ≤ r.toRat * 2 ^ (-l.place r) := mul_le_mul_of_nonneg_right habove (two_zpow_pos _).le
  have hsteps : j ≤ (l.place r - l.leastExponent).toNat := by omega
  have := Nat.mul_le_mul_right (2 ^ l.fractionBits) hsteps
  rw [Nat.add_mul]
  omega

/-- A number below half of the smallest goes to zero. -/
theorem nearest_eq_zero (hden : 0 < r.den) (h : r.toRat < 2 ^ (l.leastExponent - 1)) :
    l.nearest r = 0 := by
  rcases Nat.eq_zero_or_pos r.num with hzero | hnum
  · exact nearest_zero l hzero
  have hlog := Ratio.log2_lt hnum hden h
  have hq : l.place r = l.leastExponent := by unfold place; omega
  have hscaled : (Ratio.scale r.num r.den (-l.leastExponent)).toRat < 1 / 2 := by
    rw [Ratio.toRat_scale_self]
    calc r.toRat * 2 ^ (-l.leastExponent)
        < 2 ^ (l.leastExponent - 1) * 2 ^ (-l.leastExponent) :=
          mul_lt_mul_of_pos_right h (two_zpow_pos _)
      _ = 2 ^ (-1 : ℤ) := by rw [← two_zpow_add]; congr 1; omega
      _ = 1 / 2 := by norm_num
  rw [nearest_eq l hnum, hq, Ratio.toNearest_eq_zero (Ratio.den_scale hden _) hscaled]
  simp

end Layout

end TreeDigest.Binary
