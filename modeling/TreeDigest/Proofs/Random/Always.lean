import TreeDigest.Proofs.Binary.Nearest
import TreeDigest.Random.Draw

/-!
# What every draw gives

A draw `Always` gives a result of some kind if it does so from any source, whatever
the words are. So what is proved here holds of every seed and says nothing about the
cipher.
-/

namespace TreeDigest.Random

/-- From any source, a draw gives a result with a property. -/
structure Draw.Always {α : Type} (draw : Draw α) (p : α → Prop) : Prop where
  apply : ∀ s, p (draw s).1

namespace Draw.Always

variable {α β : Type} {draw : Draw α} {next : α → Draw β} {p q : α → Prop} {r : β → Prop} {a : α}

theorem pure (h : p a) : Always (pure a : Draw α) p := ⟨fun _ => h⟩

theorem bind (h : draw.Always p) (hnext : ∀ a, p a → (next a).Always r) : (draw >>= next).Always r :=
  ⟨fun s => (hnext _ (h.apply s)).apply _⟩

theorem mono (h : draw.Always p) (hpq : ∀ a, p a → q a) : draw.Always q :=
  ⟨fun s => hpq _ (h.apply s)⟩

theorem any : draw.Always fun _ => True := ⟨fun _ => trivial⟩

end Draw.Always

open Draw (Always)

/-! ## Words and numbers -/

theorem word_lt : word.Always (· < 0x100000000) := ⟨fun s => s.next.1.toNat_lt⟩

theorem wide_lt : wide.Always (· < 0x10000000000000000) :=
  .bind word_lt fun low hlow => .bind word_lt fun high hhigh => .pure (by omega)

/-- The high half of a product is below the factor. -/
theorem scaled_lt {draw : Draw Nat} {bits zone n : Nat} (hn : 0 < n)
    (hdraw : draw.Always (· < 2 ^ bits)) (attempts : Nat) :
    (scaled draw bits zone n attempts).Always (· < n) := by
  induction attempts with
  | zero => exact .pure hn
  | succ attempts ih =>
    refine .bind hdraw fun w hw => ?_
    dsimp only
    split
    · refine .pure ?_
      rw [Nat.pow_eq, Nat.div_lt_iff_lt_mul (Nat.pow_pos (by decide)), Nat.mul_comm n]
      exact Nat.mul_lt_mul_of_pos_right hw hn
    · exact ih

theorem below_lt {n : Nat} (hn : 0 < n) : (below n).Always (· < n) := scaled_lt hn wide_lt _

/-- One of so many words has a low half that is kept. -/
def Kept (draw : Draw Nat) (bits zone n : Nat) : (attempts : Nat) → Source → Prop
  | 0, _ => False
  | attempts + 1, s =>
    (draw s).1 * n % Nat.pow 2 bits ≤ zone ∨ Kept draw bits zone n attempts (draw s).2

theorem scaled_succ (draw : Draw Nat) (bits zone n attempts : Nat) (s : Source) :
    scaled draw bits zone n (attempts + 1) s =
      if (draw s).1 * n % Nat.pow 2 bits ≤ zone then
        ((draw s).1 * n / Nat.pow 2 bits, (draw s).2)
      else scaled draw bits zone n attempts (draw s).2 := by
  show (if (draw s).1 * n % Nat.pow 2 bits ≤ zone then
    (pure ((draw s).1 * n / Nat.pow 2 bits) : Draw Nat) else scaled draw bits zone n attempts)
      (draw s).2 = _
  split <;> rfl

/-- **Where one of the words is kept, it makes no difference how many more could be tried.** -/
theorem scaled_of_kept {draw : Draw Nat} {bits zone n attempts : Nat} {s : Source} (more : Nat)
    (h : Kept draw bits zone n attempts s) :
    scaled draw bits zone n (attempts + more) s = scaled draw bits zone n attempts s := by
  induction attempts generalizing s with
  | zero => exact h.elim
  | succ attempts ih =>
    rw [Nat.add_right_comm, scaled_succ, scaled_succ]
    by_cases hkept : (draw s).1 * n % Nat.pow 2 bits ≤ zone
    · rw [if_pos hkept, if_pos hkept]
    · rw [if_neg hkept, if_neg hkept, ih (h.resolve_left hkept)]

/-! ## Octets -/

/-- An octet from `low` on, one of `n`. -/
def Among (low n : Nat) (b : UInt8) : Prop := low ≤ b.toNat ∧ b.toNat < low + n

theorem octet_among {low n : Nat} (hn : 0 < n) (h : low + n ≤ 0x100) :
    (octet low n).Always (Among low n) := by
  refine .bind (scaled_lt hn word_lt _) fun k hk => .pure ?_
  have hvalue : (low + k).toUInt8.toNat = low + k := by
    rw [show (low + k).toUInt8.toNat = (low + k) % 0x100 from UInt8.toNat_ofNat']
    exact Nat.mod_eq_of_lt (by omega)
  rw [Among, hvalue]
  omega

theorem octetsOnto_among {low n : Nat} (hn : 0 < n) (h : low + n ≤ 0x100) (length : Nat)
    {drawn : Bytes} (hdrawn : ∀ b ∈ drawn, Among low n b) :
    (octetsOnto low n drawn length).Always fun octets =>
      octets.length = drawn.length + length ∧ ∀ b ∈ octets, Among low n b := by
  induction length generalizing drawn with
  | zero => exact .pure ⟨List.length_reverse, fun b hb => hdrawn b (List.mem_reverse.mp hb)⟩
  | succ length ih =>
    refine .bind (octet_among hn h) fun b hb => ?_
    refine (ih (List.forall_mem_cons.mpr ⟨hb, hdrawn⟩)).mono fun octets hoctets => ?_
    rw [List.length_cons] at hoctets
    exact ⟨by omega, hoctets.2⟩

theorem octets_among {low n : Nat} (hn : 0 < n) (h : low + n ≤ 0x100) (length : Nat) :
    (octets low n length).Always fun octets =>
      octets.length = length ∧ ∀ b ∈ octets, Among low n b :=
  (octetsOnto_among hn h length (List.forall_mem_nil _)).mono fun _ h =>
    ⟨h.1.trans (Nat.zero_add _), h.2⟩

/-! ## Doubles -/

section Doubles

open Binary

theorem withSign_false (k : Nat) : double.withSign false k = k := rfl

theorem isFinite_withSign (negative : Bool) {k : Nat} (h : k < double.infinity) :
    double.isFinite (double.withSign negative k).toUInt64.toNat = true := by
  have hinfinity : double.infinity < double.signBit := by decide
  have hword : 2 ^ 64 = 2 * double.signBit := by decide
  have hmagnitude : double.magnitude (double.withSign negative k % 2 ^ 64) = k := by
    cases negative with
    | true =>
      show (double.signBit + k) % 2 ^ 64 % double.signBit = k
      have hpattern : (double.signBit + k) % 2 ^ 64 = double.signBit + k := Nat.mod_eq_of_lt (by omega)
      rw [hpattern, Nat.add_mod_left, Nat.mod_eq_of_lt (by omega)]
    | false =>
      show k % 2 ^ 64 % double.signBit = k
      have hpattern : k % 2 ^ 64 = k := Nat.mod_eq_of_lt (by omega)
      rw [hpattern, Nat.mod_eq_of_lt (by omega)]
  rw [show (double.withSign negative k).toUInt64.toNat = double.withSign negative k % 2 ^ 64 from
    UInt64.toNat_ofNat', Layout.isFinite, hmagnitude]
  exact decide_eq_true h

/-- The magnitude nearest to a number that is not great. -/
theorem nearest_lt_infinity {r : Ratio} (h : r.toRat < 2 ^ (22 : ℤ)) (hden : 0 < r.den) :
    double.nearest r < double.infinity :=
  Nat.lt_of_le_of_lt (double.nearest_le 1044 hden h) (by decide)

/-- A number taken from another one, as a fraction with the same denominator. -/
theorem toRat_sub_le {r : Ratio} (n : Nat) : (⟨r.num - n * r.den, r.den⟩ : Ratio).toRat ≤ r.toRat :=
  div_le_div_of_nonneg_right (by exact_mod_cast Nat.sub_le _ _) (Nat.cast_nonneg _)

theorem toRat_sub_le' {r : Ratio} (n : Nat) (hden : 0 < r.den) :
    (⟨n * r.den - r.num, r.den⟩ : Ratio).toRat ≤ n := by
  rw [Ratio.toRat, div_le_iff₀ (Nat.cast_pos.mpr hden)]
  exact_mod_cast Nat.sub_le _ _

/-- A fraction of 52 bits, times twice a bound, is rounded to a number that is not great. -/
theorem stretched_le {bound fraction : Nat} (hbound : bound ≤ 2 ^ 20) (hfraction : fraction < 2 ^ 52) :
    (double.value (double.nearest ⟨fraction * (2 * bound), 0x10000000000000⟩)).toRat ≤ 2 ^ (21 : ℤ) := by
  have hunit : 0 < (0x10000000000000 : Nat) := by decide
  have hproduct : fraction * (2 * bound) < 2 ^ 52 * 2 ^ 21 :=
    Nat.mul_lt_mul_of_lt_of_le hfraction (by omega) (by decide)
  have hcast : ((fraction * (2 * bound) : ℕ) : ℚ) < 2 ^ 52 * 2 ^ 21 := by exact_mod_cast hproduct
  have hdrawn : (⟨fraction * (2 * bound), 0x10000000000000⟩ : Ratio).toRat < 2 ^ (21 : ℤ) := by
    rw [Ratio.toRat, div_lt_iff₀ (Nat.cast_pos.mpr hunit)]
    refine lt_of_lt_of_eq hcast ?_
    norm_num
  exact double.toRat_value_le 1043 (double.nearest_le 1043 hunit hdrawn)

/-- **A double drawn within a bound is finite.** -/
theorem doubleWithin_finite {bound : Nat} (hbound : bound ≤ 2 ^ 20) :
    (doubleWithin bound).Always fun bits => double.isFinite bits.toNat = true := by
  refine .bind wide_lt fun w hw => .pure ?_
  have hstretched := stretched_le hbound (by omega : w / 0x1000 < 2 ^ 52)
  have hden := double.den_value (double.nearest ⟨w / 0x1000 * (2 * bound), 0x10000000000000⟩)
  have hgreatest : (2 : ℚ) ^ (21 : ℤ) < 2 ^ (22 : ℤ) := two_zpow_lt.mpr (by decide)
  generalize double.value (double.nearest ⟨w / 0x1000 * (2 * bound), 0x10000000000000⟩) = stretched
    at hstretched hden ⊢
  split
  · have hbelow : (⟨stretched.num - bound * stretched.den, stretched.den⟩ : Ratio).toRat < 2 ^ (22 : ℤ) :=
      lt_of_le_of_lt (toRat_sub_le bound) (lt_of_le_of_lt hstretched hgreatest)
    have hfinite := isFinite_withSign false (nearest_lt_infinity hbelow hden)
    rwa [withSign_false] at hfinite
  · have hlt : (bound : ℚ) ≤ 2 ^ 20 := by exact_mod_cast hbound
    have hbelow : (⟨bound * stretched.den - stretched.num, stretched.den⟩ : Ratio).toRat < 2 ^ (22 : ℤ) := by
      refine lt_of_le_of_lt (toRat_sub_le' bound hden) (lt_of_le_of_lt hlt ?_)
      norm_num
    exact isFinite_withSign true (nearest_lt_infinity hbelow hden)

end Doubles

end TreeDigest.Random
