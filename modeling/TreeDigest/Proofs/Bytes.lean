import TreeDigest.Bytes

/-!
# Numbers in octets

Bounds on numbers that were read: what a width of octets holds is less than its
capacity, and read as a signed number it is less than half of that. Before that,
two bounds on the lengths of entries that stand one after the other.
-/

namespace TreeDigest.Bytes

/-! ## Entries one after the other -/

section Entries

variable {α : Type} {xs : List α} {form : α → Bytes}

/-- Entries of at least so many octets each take as many times their number. -/
theorem length_entries {least : Nat} (h : ∀ x ∈ xs, least ≤ (form x).length) :
    xs.length * least ≤ (xs.flatMap form).length := by
  induction xs with
  | nil => exact Nat.le_of_eq (Nat.zero_mul _)
  | cons x xs ih =>
    rw [List.forall_mem_cons] at h
    have hxs := ih h.2
    rw [List.flatMap_cons, List.length_append, List.length_cons, Nat.add_mul, Nat.one_mul]
    omega

/-- An entry is no longer than all of them. -/
theorem length_entry_le (form : α → Bytes) {x : α} (h : x ∈ xs) :
    (form x).length ≤ (xs.flatMap form).length := by
  induction xs with
  | nil => cases h
  | cons y xs ih =>
    rw [List.flatMap_cons, List.length_append]
    rcases List.mem_cons.mp h with rfl | h
    · omega
    · have hxs := ih h
      omega

end Entries

/-! ## Bounds -/

theorem capacity_pos (width : Nat) : 0 < capacity width := by
  induction width with
  | zero => exact Nat.one_pos
  | succ width ih => rw [capacity]; omega

/-- What four octets hold is a word of 32 bits. -/
theorem toNat_word {width n : Nat} (hwidth : width ≤ 4) (h : n < capacity width) :
    n.toUInt32.toNat = n := by
  have hle : ∀ w ≤ 4, capacity w ≤ 0x100000000 := by decide
  exact UInt32.toNat_ofNat_of_lt' (Nat.lt_of_lt_of_le h (hle width hwidth))

/-- What eight octets hold is a word of 64 bits. -/
theorem toNat_wide {width n : Nat} (hwidth : width ≤ 8) (h : n < capacity width) :
    n.toUInt64.toNat = n := by
  have hle : ∀ w ≤ 8, capacity w ≤ 0x10000000000000000 := by decide
  exact UInt64.toNat_ofNat_of_lt' (Nat.lt_of_lt_of_le h (hle width hwidth))

theorem ofLittle_lt (bytes : Bytes) : ofLittle bytes < capacity bytes.length := by
  induction bytes with
  | nil => exact Nat.one_pos
  | cons b bytes ih =>
    have hb : b.toNat < 256 := b.toNat_lt
    rw [ofLittle, List.length_cons, capacity]
    omega

theorem signed_lt {width n : Nat} (h : n < capacity width) :
    2 * signed width n < capacity width := by
  unfold signed
  have := capacity_pos width
  split <;> omega

/-! ## Octets of the number they are -/

theorem little_ofLittle (bytes : Bytes) : little bytes.length (ofLittle bytes) = bytes := by
  induction bytes with
  | nil => rfl
  | cons b bytes ih =>
    have hb : b.toNat < 256 := b.toNat_lt
    have hlow : (ofLittle (b :: bytes)).toUInt8 = b := by
      apply UInt8.toNat_inj.mp
      rw [ofLittle, Nat.toUInt8_eq, UInt8.toNat_ofNat']
      omega
    have hhigh : ofLittle (b :: bytes) / 256 = ofLittle bytes := by
      rw [ofLittle]
      omega
    rw [List.length_cons, little, hlow, hhigh, ih]

theorem big_ofBig (bytes : Bytes) : big bytes.length (ofBig bytes) = bytes := by
  have h := little_ofLittle bytes.reverse
  rw [List.length_reverse] at h
  rw [big, ofBig, h, List.reverse_reverse]

theorem ofBig_lt (bytes : Bytes) : ofBig bytes < capacity bytes.length := by
  have h := ofLittle_lt bytes.reverse
  rwa [List.length_reverse] at h

/-- More than a width holds makes no difference to its octets. -/
theorem little_mod (width n : Nat) : little width (n % capacity width) = little width n := by
  induction width generalizing n with
  | zero => rfl
  | succ width ih =>
    have hlow : (n % capacity (width + 1)).toUInt8 = n.toUInt8 := by
      apply UInt8.toNat_inj.mp
      rw [Nat.toUInt8_eq, Nat.toUInt8_eq, UInt8.toNat_ofNat', UInt8.toNat_ofNat', capacity,
        Nat.mod_mul_right_mod]
    have hhigh : n % capacity (width + 1) / 256 = n / 256 % capacity width :=
      Nat.mod_mul_right_div_self n 256 (capacity width)
    rw [little, hlow, hhigh, ih, little]

theorem big_mod (width n : Nat) : big width (n % capacity width) = big width n := by
  rw [big, little_mod, big]

/-! ## Signed integers in a width -/

/-- The unsigned pattern of a signed integer, as a number. -/
theorem toNat_toUInt64 (i : Int64) :
    (i.toUInt64.toNat : Int) = if 0 ≤ i.toInt then i.toInt else i.toInt + 0x10000000000000000 := by
  show (i.toBitVec.toNat : Int) = if 0 ≤ i.toBitVec.toInt then i.toBitVec.toInt else
    i.toBitVec.toInt + 0x10000000000000000
  have hlt := i.toBitVec.isLt
  rw [BitVec.toInt_eq_toNat_cond]
  split <;> split <;> omega

/-- A width of at most eight octets holds a signed integer. -/
structure FitsSigned (width : Nat) (i : Int64) : Prop where
  dvd : capacity width ∣ 0x10000000000000000
  least : -(capacity width : Int) ≤ 2 * i.toInt
  greatest : 2 * i.toInt < capacity width

namespace FitsSigned

variable {i : Int64}

theorem one (h : -0x80 ≤ i.toInt ∧ i.toInt < 0x80) : FitsSigned 1 i where
  dvd := by decide
  least := by
    have hcapacity : capacity 1 = 0x100 := rfl
    omega
  greatest := by
    have hcapacity : capacity 1 = 0x100 := rfl
    omega

theorem two (h : -0x8000 ≤ i.toInt ∧ i.toInt < 0x8000) : FitsSigned 2 i where
  dvd := by decide
  least := by
    have hcapacity : capacity 2 = 0x10000 := rfl
    omega
  greatest := by
    have hcapacity : capacity 2 = 0x10000 := rfl
    omega

theorem four (h : -0x80000000 ≤ i.toInt ∧ i.toInt < 0x80000000) : FitsSigned 4 i where
  dvd := by decide
  least := by
    have hcapacity : capacity 4 = 0x100000000 := rfl
    omega
  greatest := by
    have hcapacity : capacity 4 = 0x100000000 := rfl
    omega

/-- Eight octets hold any of them. -/
theorem eight (i : Int64) : FitsSigned 8 i where
  dvd := Nat.dvd_refl _
  least := by
    have := i.le_toInt
    have hcapacity : capacity 8 = 0x10000000000000000 := rfl
    omega
  greatest := by
    have := i.toInt_lt
    have hcapacity : capacity 8 = 0x10000000000000000 := rfl
    omega

end FitsSigned

/-- What is left of the pattern of an integer in a width that holds it gives it back. -/
theorem signed_toNat {width : Nat} {i : Int64} (h : FitsSigned width i) :
    signed width (i.toUInt64.toNat % capacity width) = i.toInt := by
  obtain ⟨⟨k, hk⟩, hleast, hgreatest⟩ := h
  have hpattern := toNat_toUInt64 i
  by_cases hi : 0 ≤ i.toInt
  · rw [if_pos hi] at hpattern
    have hmod : i.toUInt64.toNat % capacity width = i.toUInt64.toNat := Nat.mod_eq_of_lt (by omega)
    rw [hmod, signed, if_pos (by omega), hpattern]
  · rw [if_neg hi] at hpattern
    -- The pattern is as far below 2 ^ 64, a multiple of the capacity, as the integer is below zero.
    have hmod : ((i.toUInt64.toNat % capacity width : Nat) : Int) = i.toInt + capacity width := by
      have hsplit : i.toInt + 0x10000000000000000 =
          (i.toInt + capacity width) + capacity width * ((k : Int) - 1) := by
        have hk' : (0x10000000000000000 : Int) = (capacity width : Int) * k := by
          rw [← Int.natCast_mul, ← hk]
          rfl
        rw [hk', Int.mul_sub]
        omega
      rw [Int.natCast_emod, hpattern, hsplit, Int.add_mul_emod_self_left,
        Int.emod_eq_of_lt (by omega) (by omega)]
    rw [signed, if_neg (by omega), hmod]
    omega

theorem neg_capacity_le_signed (width n : Nat) :
    -(capacity width : Int) ≤ 2 * signed width n := by
  unfold signed
  split <;> omega

/-- Numbers below the capacity that are the same signed number are the same. -/
theorem signed_inj {width m n : Nat} (hm : m < capacity width) (hn : n < capacity width)
    (h : signed width m = signed width n) : m = n := by
  unfold signed at h
  split at h <;> split at h <;> omega

/-- What a width of octets says when it is read as signed is an integer of that width. -/
theorem exists_signed {width n : Nat} (hwidth : capacity width ∣ 0x10000000000000000)
    (hn : n < capacity width) : ∃ i : Int64, i.toInt = signed width n ∧ FitsSigned width i ∧
      i.toUInt64.toNat % capacity width = n := by
  have hle : capacity width ≤ 0x10000000000000000 := Nat.le_of_dvd (by decide) hwidth
  have hleast := neg_capacity_le_signed width n
  have hgreatest := signed_lt hn
  have hback : (Int64.ofInt (signed width n)).toInt = signed width n :=
    Int64.toInt_ofInt_of_le (by omega) (by omega)
  have hfits : FitsSigned width (Int64.ofInt (signed width n)) :=
    ⟨hwidth, by rw [hback]; exact hleast, by rw [hback]; exact hgreatest⟩
  exact ⟨_, hback, hfits, signed_inj (Nat.mod_lt _ (capacity_pos width)) hn
    ((signed_toNat hfits).trans hback)⟩

end TreeDigest.Bytes
