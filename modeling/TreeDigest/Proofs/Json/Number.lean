import TreeDigest.Json.Number
import TreeDigest.Proofs.Bytes
import TreeDigest.Proofs.Decimal.Shortest
import TreeDigest.Proofs.Json.Leads

/-!
# Numbers read as they were written

A number that stands in front of a separator or at the end of the text reads back:
an integer as the integer of its value, a double bit for bit. How a decimal is laid
out does not matter. Wherever the point is put and whatever exponent is marked, what
is read is a decimal of the same number, and that is read as the same double.
-/

namespace TreeDigest.Json

open TreeDigest.Json.Parser (Leads)

variable {rest : Bytes}

/-- What can stand after a value: nothing, a comma or the end of a container. -/
def Follows (rest : Bytes) : Prop := ∀ b ∈ rest.head?, b = 0x2C ∨ b = 0x5D ∨ b = 0x7D

theorem Follows.nil : Follows [] := fun _ h => nomatch h

theorem Follows.isDigit (h : Follows rest) : ∀ b ∈ rest.head?, Bytes.isDigit b = false := by
  intro b hb
  rcases h b hb with rfl | rfl | rfl <;> rfl

/-! ## Parts of a number -/

variable {all input middle : Bytes}

theorem digits_leads (hne : all ≠ []) (hall : ∀ b ∈ all, Bytes.isDigit b = true)
    (hrest : ∀ b ∈ rest.head?, Bytes.isDigit b = false) : digits.Leads (all ++ rest) all rest := by
  refine .bind (.takeWhile hall hrest) ?_
  cases all with
  | nil => exact absurd rfl hne
  | cons b all => exact .pure

/-- Digits of which the first is a zero only if there is no other. -/
theorem whole_leads (hne : all ≠ []) (hall : ∀ b ∈ all, Bytes.isDigit b = true)
    (hzero : all.head? = some 0x30 → all = [0x30])
    (hrest : ∀ b ∈ rest.head?, Bytes.isDigit b = false) : whole.Leads (all ++ rest) all rest := by
  refine .get_bind fun place => .bind (digits_leads hne hall hrest) ?_
  split
  · rename_i b more
    cases hzero rfl
  · exact .pure

theorem fraction_none (h : ∀ b ∈ rest.head?, b ≠ 0x2E) : fraction.Leads rest [] rest := by
  refine .bind .peek? ?_
  split
  · rename_i hpoint
    exact absurd rfl (h _ hpoint)
  · exact .pure

theorem fraction_leads (hne : all ≠ []) (hall : ∀ b ∈ all, Bytes.isDigit b = true)
    (hrest : ∀ b ∈ rest.head?, Bytes.isDigit b = false) :
    fraction.Leads (0x2E :: (all ++ rest)) all rest :=
  .bind .peek? (.bind .skip (digits_leads hne hall hrest))

theorem exponent_none {isZero : Bool} (h : ∀ b ∈ rest.head?, b ≠ 0x65 ∧ b ≠ 0x45) :
    (exponent isZero).Leads rest none rest := by
  refine .bind .peek? ?_
  split
  · rename_i hmark
    exact absurd rfl (h _ hmark).1
  · rename_i hmark
    exact absurd rfl (h _ hmark).2
  · exact .pure

/-- An exponent is not too great if the number of all its digits is not. -/
theorem excess?_eq_none (n seen : Nat)
    (h : all.foldl (fun n b => 10 * n + (b.toNat - 0x30)) n ≤ greatestExponent) :
    excess? n seen all = none := by
  induction all generalizing n seen with
  | nil => rfl
  | cons b all ih =>
    -- a number only grows with more digits, so no beginning of it is too great either
    have hgrows : ∀ (all : Bytes) (n : Nat),
        n ≤ all.foldl (fun n b => 10 * n + (b.toNat - 0x30)) n := by
      intro all
      induction all with
      | nil => exact fun n => Nat.le_refl n
      | cons b all ih =>
        intro n
        have := ih (10 * n + (b.toNat - 0x30))
        rw [List.foldl_cons]
        omega
    rw [List.foldl_cons] at h
    rw [excess?, if_neg (Nat.not_lt.mpr (Nat.le_trans (hgrows all _) h)), ih _ _ h]

/-- A marked exponent that is not too great. -/
theorem exponent_leads {isZero : Bool} {e : ℤ} (he : e ≤ greatestExponent)
    (hrest : ∀ b ∈ rest.head?, Bytes.isDigit b = false) :
    (exponent isZero).Leads
      (0x65 :: (if e < 0 then 0x2D else 0x2B) :: (Bytes.decimal e.natAbs ++ rest)) (some e) rest := by
  have hdigits : digits.Leads (Bytes.decimal e.natAbs ++ rest) (Bytes.decimal e.natAbs) rest :=
    digits_leads (Bytes.decimal_ne_nil _) (fun _ => Bytes.isDigit_of_mem_decimal) hrest
  by_cases hneg : e < 0
  · rw [if_pos hneg]
    refine .bind .peek? (.bind .skip (.bind (.bind .peek? (.bind .skip .pure)) ?_))
    refine .get_bind fun place => .bind hdigits ?_
    have hvalue : -(Bytes.ofDecimal (Bytes.decimal e.natAbs) : ℤ) = e := by
      rw [Bytes.ofDecimal_decimal]
      omega
    rw [hvalue]
    exact .pure
  · rw [if_neg hneg]
    refine .bind .peek? (.bind .skip (.bind (.bind .peek? (.bind .skip .pure)) ?_))
    refine .get_bind fun place => .bind hdigits ?_
    have hvalue : (Bytes.ofDecimal (Bytes.decimal e.natAbs) : ℤ) = e := by
      rw [Bytes.ofDecimal_decimal]
      omega
    have hexcess : excess? 0 0 (Bytes.decimal e.natAbs) = none := by
      refine excess?_eq_none 0 0 ?_
      show Bytes.ofDecimal (Bytes.decimal e.natAbs) ≤ greatestExponent
      omega
    rw [hexcess]
    dsimp only
    rw [hvalue]
    exact .pure

/-! ## Integers -/

theorem head?_decimal_zero (n : Nat) :
    (Bytes.decimal n).head? = some 0x30 → Bytes.decimal n = [0x30] := by
  intro h
  rcases Nat.eq_zero_or_pos n with rfl | hn
  · rfl
  · exact absurd h (Bytes.head?_decimal hn)

theorem number_of_decimal {negative : Bool} {n : Nat} {m : Number} (hrest : Follows rest)
    (h : (integer negative n).Leads rest m rest) :
    (number negative).Leads (Bytes.decimal n ++ rest) m rest := by
  have hpoint : ∀ b ∈ rest.head?, b ≠ 0x2E := by
    intro b hb
    rcases hrest b hb with rfl | rfl | rfl <;> decide
  have hmark : ∀ b ∈ rest.head?, b ≠ 0x65 ∧ b ≠ 0x45 := by
    intro b hb
    rcases hrest b hb with rfl | rfl | rfl <;> decide
  refine .bind (whole_leads (Bytes.decimal_ne_nil n) (fun _ => Bytes.isDigit_of_mem_decimal)
    (head?_decimal_zero n) hrest.isDigit) (.bind (fraction_none hpoint) ?_)
  refine .bind (exponent_none hmark) ?_
  dsimp only
  rw [List.append_nil, Bytes.ofDecimal_decimal]
  exact h

/-- A signed integer that is not negative reads as an unsigned one. -/
theorem int_leads (i : Int64) (hrest : Follows rest) :
    (number (decide (i.toInt < 0))).Leads (Bytes.decimal i.toInt.natAbs ++ rest)
      (if i.toInt < 0 then .negative i else .unsigned i.toUInt64) rest := by
  refine number_of_decimal hrest ?_
  have hle := i.le_toInt
  have hlt := i.toInt_lt
  unfold integer
  by_cases hneg : i.toInt < 0
  · -- the least integer has a magnitude of 2^63, which is still read as an integer
    have hbound : 0 < i.toInt.natAbs ∧ i.toInt.natAbs ≤ 0x8000000000000000 := by omega
    have hvalue : (-(i.toInt.natAbs : ℤ)) = i.toInt := by omega
    rw [if_pos (decide_eq_true hneg), if_pos hbound, if_pos hneg, hvalue, Int64.ofInt_toInt]
    exact .pure
  · have hbound : i.toInt.natAbs < 0x10000000000000000 := by omega
    have hvalue : i.toInt.natAbs.toUInt64 = i.toUInt64 := by
      refine UInt64.toNat_inj.mp ?_
      have hword := Bytes.toNat_toUInt64 i
      rw [if_pos (by omega)] at hword
      rw [show i.toInt.natAbs.toUInt64.toNat = i.toInt.natAbs % 2 ^ 64 from UInt64.toNat_ofNat']
      omega
    rw [if_neg (by simpa using hneg), if_pos hbound, if_neg hneg, hvalue]
    exact .pure

theorem uint_leads (u : UInt64) (hrest : Follows rest) :
    (number false).Leads (Bytes.decimal u.toNat ++ rest) (.unsigned u) rest := by
  refine number_of_decimal hrest ?_
  have hlt : u.toNat < 0x10000000000000000 := u.toNat_lt
  have hvalue : u.toNat.toUInt64 = u := UInt64.ofNat_toNat
  unfold integer
  rw [if_neg Bool.false_ne_true, if_pos hlt, hvalue]
  exact .pure

/-! ## Doubles -/

open Binary

/-- What reads as a decimal of the same number reads as the double nearest to it. -/
theorem number_of_parts {negative : Bool} {first last : Bytes} {more : Bytes} {e : Option ℤ}
    {d : Decimal} (hwhole : whole.Leads input first middle)
    (hfraction : fraction.Leads middle more last)
    (hexponent : ∀ isZero, (exponent isZero).Leads last e rest) (hdouble : more ≠ [] ∨ e ≠ none)
    (hvalue : (⟨Bytes.ofDecimal (first ++ more), e.getD 0 - more.length⟩ : Decimal).toRat = d.toRat)
    (hfinite : Decimal.nearest double d < double.infinity) :
    (number negative).Leads input
      (.double (double.withSign negative (Decimal.nearest double d)).toUInt64) rest := by
  refine .bind hwhole (.bind hfraction (.bind (hexponent _) ?_))
  have hrounded : (rounded negative
      ⟨Bytes.ofDecimal (first ++ more), e.getD 0 - more.length⟩).Leads rest
      (.double (double.withSign negative (Decimal.nearest double d)).toUInt64) rest := by
    have hisFinite : double.isFinite (Decimal.nearest double d) = true :=
      decide_eq_true (Nat.lt_of_le_of_lt (Nat.mod_le _ _) hfinite)
    unfold rounded
    dsimp only
    rw [Decimal.nearest_congr hvalue, if_pos hisFinite]
    exact .pure
  cases more with
  | cons b more => exact hrounded
  | nil =>
    cases e with
    -- neither a point nor an exponent: that would be an integer
    | none => exact absurd rfl (hdouble.resolve_left fun h => h rfl)
    | some e => exact hrounded

theorem isDigit_zeros {k : ℕ} {b : UInt8} (h : b ∈ Decimal.Style.zeros k) :
    Bytes.isDigit b = true := by
  rw [List.eq_of_mem_replicate h]
  rfl

theorem isDigit_point (tail : Bytes) :
    ∀ b ∈ (0x2E :: tail : Bytes).head?, Bytes.isDigit b = false := by
  rintro _ ⟨⟩
  rfl

variable {negative : Bool} {first more : Bytes} {d : Decimal}

/-- A number with a point and no exponent. -/
theorem pointed_leads (hfirst : first ≠ []) (hmore : more ≠ [])
    (hall : ∀ b ∈ first ++ more, Bytes.isDigit b = true)
    (hzero : first.head? = some 0x30 → first = [0x30])
    (hvalue : (⟨Bytes.ofDecimal (first ++ more), 0 - more.length⟩ : Decimal).toRat = d.toRat)
    (hfinite : Decimal.nearest double d < double.infinity) (hrest : Follows rest) :
    (number negative).Leads (first ++ 0x2E :: (more ++ rest))
      (.double (double.withSign negative (Decimal.nearest double d)).toUInt64) rest := by
  have hmark : ∀ b ∈ rest.head?, b ≠ 0x65 ∧ b ≠ 0x45 := by
    intro b hb
    rcases hrest b hb with rfl | rfl | rfl <;> decide
  have hall' := List.forall_mem_append.mp hall
  exact number_of_parts (whole_leads hfirst hall'.1 hzero (isDigit_point _))
    (fraction_leads hmore hall'.2 hrest.isDigit) (fun _ => exponent_none hmark) (.inl hmore) hvalue
    hfinite

/-- Octets that are the digits of a positive number. -/
structure Numeral (n : ℕ) (all : Bytes) : Prop where
  nonempty : all ≠ []
  leading : all.head? ≠ some 0x30
  digits : ∀ b ∈ all, Bytes.isDigit b = true
  value : Bytes.ofDecimal all = n

theorem numeral_decimal {n : ℕ} (h : n ≠ 0) : Numeral n (Bytes.decimal n) where
  nonempty := Bytes.decimal_ne_nil n
  leading := Bytes.head?_decimal (Nat.pos_of_ne_zero h)
  digits _ := Bytes.isDigit_of_mem_decimal
  value := Bytes.ofDecimal_decimal n

section Positional

variable {all : Bytes} {k : ℕ}

/-- The point comes after all digits and perhaps zeros, and one more zero comes after it. -/
theorem whole_positional (h : Numeral d.digits all) (hexponent : d.exponent = .ofNat k)
    (hfinite : Decimal.nearest double d < double.infinity) (hrest : Follows rest) :
    (number negative).Leads (all ++ Decimal.Style.zeros k ++ Bytes.ofAscii ".0" ++ rest)
      (.double (double.withSign negative (Decimal.nearest double d)).toUInt64) rest := by
  have hzeros : Decimal.Style.zeros k ++ [0x30] = Decimal.Style.zeros (k + 1) :=
    List.replicate_succ'.symm
  have hform : all ++ Decimal.Style.zeros k ++ Bytes.ofAscii ".0" ++ rest =
      (all ++ Decimal.Style.zeros k) ++ 0x2E :: ([0x30] ++ rest) := List.append_assoc _ _ _
  rw [hform]
  refine pointed_leads (List.append_ne_nil_of_left_ne_nil h.nonempty _) (List.cons_ne_nil _ _) ?_ ?_
    ?_ hfinite hrest
  · rw [List.append_assoc, hzeros]
    intro b hb
    exact (List.mem_append.mp hb).elim (h.digits b) isDigit_zeros
  · rw [List.head?_append_of_ne_nil _ h.nonempty]
    exact fun hzero => absurd hzero h.leading
  · -- The digit after the point makes the number ten times what it is.
    have hdigits : Bytes.ofDecimal (all ++ Decimal.Style.zeros (k + 1)) = d.digits * 10 ^ (k + 1) :=
      h.value ▸ Bytes.ofDecimal_append_zeros all (k + 1)
    rw [List.append_assoc, hzeros, hdigits, Decimal.toRat, Decimal.toRat, hexponent]
    show ((d.digits * 10 ^ (k + 1) : ℕ) : ℚ) * 10 ^ (-1 : ℤ) = d.digits * 10 ^ (k : ℤ)
    rw [zpow_natCast, zpow_neg_one]
    push_cast
    ring

theorem toRat_negSucc (hexponent : d.exponent = .negSucc k) {places : ℕ} (h : places = k + 1) :
    (⟨d.digits, 0 - places⟩ : Decimal).toRat = d.toRat := by
  rw [Decimal.toRat, Decimal.toRat, hexponent, h]
  congr 2

/-- The point comes between two digits. -/
theorem inside_positional (h : Numeral d.digits all) (hexponent : d.exponent = .negSucc k)
    (hinside : k + 1 < all.length) (hfinite : Decimal.nearest double d < double.infinity)
    (hrest : Follows rest) :
    (number negative).Leads (all.take (all.length - (k + 1)) ++ Bytes.ofAscii "." ++
        all.drop (all.length - (k + 1)) ++ rest)
      (.double (double.withSign negative (Decimal.nearest double d)).toUInt64) rest := by
  have hsplit := List.take_append_drop (all.length - (k + 1)) all
  have htake : all.take (all.length - (k + 1)) ≠ [] := by
    intro hnil
    rcases List.take_eq_nil_iff.mp hnil with hnil | hnil
    · omega
    · exact h.nonempty hnil
  have hdrop : all.drop (all.length - (k + 1)) ≠ [] := by
    rw [Ne, List.drop_eq_nil_iff]
    omega
  rw [List.append_assoc, List.append_assoc]
  refine pointed_leads htake hdrop (by rw [hsplit]; exact h.digits) ?_ ?_ hfinite hrest
  · rw [← List.head?_append_of_ne_nil _ htake, hsplit]
    exact fun hzero => absurd hzero h.leading
  · rw [hsplit, h.value]
    refine toRat_negSucc hexponent ?_
    rw [List.length_drop]
    omega

/-- The point comes before all digits and perhaps zeros, and one more zero comes before it. -/
theorem before_positional (h : Numeral d.digits all) (hexponent : d.exponent = .negSucc k)
    (hbefore : ¬ k + 1 < all.length) (hfinite : Decimal.nearest double d < double.infinity)
    (hrest : Follows rest) :
    (number negative).Leads
      (Bytes.ofAscii "0." ++ Decimal.Style.zeros (k + 1 - all.length) ++ all ++ rest)
      (.double (double.withSign negative (Decimal.nearest double d)).toUInt64) rest := by
  have hform : Bytes.ofAscii "0." ++ Decimal.Style.zeros (k + 1 - all.length) ++ all ++ rest =
      [0x30] ++ 0x2E :: (Decimal.Style.zeros (k + 1 - all.length) ++ all ++ rest) := by
    rw [List.append_assoc, List.append_assoc, List.append_assoc]
    rfl
  rw [hform]
  refine pointed_leads (List.cons_ne_nil _ _) (List.append_ne_nil_of_right_ne_nil _ h.nonempty) ?_
    (fun _ => rfl) ?_ hfinite hrest
  · intro b hb
    rcases List.mem_append.mp hb with hb | hb
    · rw [List.mem_singleton.mp hb]
      rfl
    · exact (List.mem_append.mp hb).elim isDigit_zeros (h.digits b)
  · have hdigits : Bytes.ofDecimal ([0x30] ++ (Decimal.Style.zeros (k + 1 - all.length) ++ all)) =
        d.digits := h.value ▸ Bytes.ofDecimal_zeros (k + 1 - all.length + 1) all
    rw [hdigits]
    refine toRat_negSucc hexponent ?_
    rw [List.length_append, Decimal.Style.zeros, List.length_replicate]
    omega

end Positional

/-- **A decimal reads as the double nearest to it, wherever its point stands.** -/
theorem positional_leads (hdigits : d.digits ≠ 0)
    (hfinite : Decimal.nearest double d < double.infinity) (hrest : Follows rest) :
    (number negative).Leads (Decimal.Style.positional d ++ rest)
      (.double (double.withSign negative (Decimal.nearest double d)).toUInt64) rest := by
  have hnumeral := numeral_decimal hdigits
  unfold Decimal.Style.positional
  dsimp only
  split
  · rename_i k hexponent
    exact whole_positional hnumeral hexponent hfinite hrest
  · rename_i k hexponent
    split
    · rename_i hinside
      exact inside_positional hnumeral hexponent hinside hfinite hrest
    · rename_i hbefore
      exact before_positional hnumeral hexponent hbefore hfinite hrest

/-- The digits after the first, with a point before them if there are any. -/
def afterPoint : Bytes → Bytes
  | [] => []
  | more => 0x2E :: more

theorem scientific_eq {style : Decimal.Style} (hstyle : style.plus = true) {b : UInt8}
    (h : Bytes.decimal d.digits = b :: more) (lead : ℤ) :
    style.scientific d lead = [b] ++ (afterPoint more ++
      0x65 :: (if lead < 0 then 0x2D else 0x2B) :: Bytes.decimal lead.natAbs) := by
  have hsign : (if lead < 0 then Bytes.ofAscii "-" else
      if style.plus then Bytes.ofAscii "+" else []) = [if lead < 0 then 0x2D else 0x2B] := by
    rw [if_pos hstyle]
    split <;> rfl
  rw [Decimal.Style.scientific]
  rw [hsign, h]
  cases more with
  | nil => rfl
  | cons c more =>
    rw [List.append_assoc, List.append_assoc, List.append_assoc]
    rfl

/-- A decimal with an exponent reads as the double nearest to it. -/
theorem scientific_leads {style : Decimal.Style} (hstyle : style.plus = true)
    (hdigits : d.digits ≠ 0) (hfinite : Decimal.nearest double d < double.infinity)
    (hrest : Follows rest) :
    (number negative).Leads
      (style.scientific d (d.exponent + (Bytes.decimal d.digits).length - 1) ++ rest)
      (.double (double.withSign negative (Decimal.nearest double d)).toUInt64) rest := by
  cases hall : Bytes.decimal d.digits with
  | nil => exact absurd hall (Bytes.decimal_ne_nil _)
  | cons b more =>
    have hdigit : ∀ c ∈ b :: more, Bytes.isDigit c = true :=
      fun _ hc => Bytes.isDigit_of_mem_decimal (hall ▸ hc)
    have hread : Bytes.ofDecimal (b :: more) = d.digits := hall ▸ Bytes.ofDecimal_decimal d.digits
    have hlead := Decimal.lead_le hdigits hfinite
    rw [hall] at hlead
    generalize hexponent : d.exponent + (b :: more).length - 1 = lead at hlead ⊢
    have hvalue : (⟨Bytes.ofDecimal ([b] ++ more), (some lead).getD 0 - more.length⟩ : Decimal).toRat =
        d.toRat := by
      show (⟨Bytes.ofDecimal (b :: more), lead - more.length⟩ : Decimal).toRat = d.toRat
      rw [List.length_cons] at hexponent
      have hlength : lead - more.length = d.exponent := by omega
      rw [hread, hlength]
    have hgreatest : (400 : ℤ) ≤ greatestExponent := by decide
    rw [scientific_eq hstyle hall, List.append_assoc, List.append_assoc]
    refine number_of_parts (whole_leads (List.cons_ne_nil _ _) ?_ (fun h => ?_) ?_) ?_
      (fun _ => exponent_leads (le_trans hlead hgreatest) hrest.isDigit)
      (.inr (Option.some_ne_none _)) hvalue hfinite
    · intro c hc
      exact hdigit c (List.mem_cons.mpr (.inl (List.mem_singleton.mp hc)))
    · rw [Option.some.inj h]
    · cases more with
      | nil => rintro _ ⟨⟩; rfl
      | cons c more => exact isDigit_point _
    · cases more with
      | nil =>
        refine fraction_none ?_
        rintro _ ⟨⟩
        decide
      | cons c more =>
        refine fraction_leads (List.cons_ne_nil _ _) (fun a ha => hdigit a (List.mem_cons_of_mem _ ha)) ?_
        rintro _ ⟨⟩
        rfl

/-- **A decimal reads as the double nearest to it.** -/
theorem write_leads {style : Decimal.Style} (hstyle : style.plus = true) (hdigits : d.digits ≠ 0)
    (hfinite : Decimal.nearest double d < double.infinity) (hrest : Follows rest) :
    (number negative).Leads (style.write d ++ rest)
      (.double (double.withSign negative (Decimal.nearest double d)).toUInt64) rest := by
  rw [Decimal.Style.write]
  split
  · exact positional_leads hdigits hfinite hrest
  · exact scientific_leads hstyle hdigits hfinite hrest

/-- The sign and the magnitude of a pattern make the pattern. -/
theorem withSign_magnitude (bits : UInt64) :
    (double.withSign (double.isNegative bits.toNat) (double.magnitude bits.toNat)).toUInt64 = bits := by
  have hlt : bits.toNat < 2 * double.signBit := bits.toNat_lt
  have hvalue : double.withSign (double.isNegative bits.toNat) (double.magnitude bits.toNat) =
      bits.toNat := by
    unfold Layout.withSign Layout.isNegative Layout.magnitude
    by_cases hneg : double.signBit ≤ bits.toNat
    · rw [if_pos (decide_eq_true hneg), Nat.mod_eq_sub_mod hneg, Nat.mod_eq_of_lt (by omega)]
      omega
    · rw [if_neg (by simpa using hneg), Nat.mod_eq_of_lt (by omega)]
  rw [hvalue]
  exact UInt64.ofNat_toNat

/-- The magnitude of a pattern as it is written. -/
def magnitudeForm (bits : UInt64) : Bytes :=
  if double.magnitude bits.toNat = 0 then Bytes.ofAscii "0.0"
  else Decimal.Style.document.write (Decimal.shortest double .even (double.magnitude bits.toNat))

theorem doubleForm_eq (bits : UInt64) :
    doubleForm bits = (if double.isNegative bits.toNat then [0x2D] else []) ++ magnitudeForm bits := by
  rw [doubleForm, Decimal.Style.writeFinite, magnitudeForm]
  split <;> rfl

/-- **A finite double reads as the double that was written.** -/
theorem double_leads {bits : UInt64} (h : double.isFinite bits.toNat = true) (hrest : Follows rest) :
    (number (double.isNegative bits.toNat)).Leads (magnitudeForm bits ++ rest) (.double bits) rest := by
  have hlt : double.magnitude bits.toNat < double.infinity := of_decide_eq_true h
  rw [magnitudeForm, ← congrArg Number.double (withSign_magnitude bits)]
  split
  · rename_i hzero
    have hread : Decimal.nearest double ⟨0, 0⟩ = double.magnitude bits.toNat := hzero.symm
    rw [← hread]
    refine pointed_leads (List.cons_ne_nil 0x30 []) (List.cons_ne_nil 0x30 []) ?_ (fun _ => rfl) ?_ ?_
      hrest
    · exact List.all_eq_true.mp rfl
    · rw [Decimal.toRat_eq_zero.mpr rfl, Decimal.toRat_eq_zero.mpr rfl]
    · decide
  · rename_i hzero
    have hread : Decimal.nearest double (Decimal.shortest double .even (double.magnitude bits.toNat)) =
        double.magnitude bits.toNat := Decimal.nearest_shortest hlt.le
    have hdigits : (Decimal.shortest double .even (double.magnitude bits.toNat)).digits ≠ 0 := by
      intro hdigits
      rw [Decimal.nearest, if_pos hdigits] at hread
      exact hzero hread.symm
    rw [← congrArg (double.withSign (double.isNegative bits.toNat)) hread]
    exact write_leads rfl hdigits (lt_of_eq_of_lt hread hlt) hrest

/-- What is read as a number begins with a digit. -/
theorem number_head {n : Number} (h : (number negative).Leads input n rest) :
    ∃ b tail, input = b :: tail ∧ Bytes.isDigit b = true := by
  obtain ⟨_, hnumber⟩ := h.apply ⟨1, 0⟩
  obtain ⟨_, _, hwhole, -⟩ := Steps.bind_eq_ok_iff.mp hnumber
  obtain ⟨_, _, hget, hwhole⟩ := Steps.bind_eq_ok_iff.mp hwhole
  obtain ⟨_, _, hdigits, -⟩ := Steps.bind_eq_ok_iff.mp hwhole
  cases hget
  cases input with
  | nil => cases hdigits
  | cons b tail =>
    refine ⟨b, tail, rfl, ?_⟩
    by_contra hdigit
    have htake : Parser.takeWhile Bytes.isDigit ⟨⟨1, 0⟩, b :: tail⟩ = .ok [] ⟨⟨1, 0⟩, b :: tail⟩ := by
      rw [Parser.takeWhile]
      dsimp only
      rw [List.takeWhile_cons, if_neg hdigit]
      rfl
    rw [digits, Steps.bind_ok htake] at hdigits
    cases hdigits

end TreeDigest.Json
