import Mathlib.Data.Nat.Bitwise
import TreeDigest.Digest
import TreeDigest.Proofs.Bytes

/-!
# Mixing loses nothing

A word is scattered, met with the digest, and the digest is stirred. Each of these can be
undone: a rotation moves bits, and a product with an odd number has an inverse. So of two
digests that mix in one word, and of two words that are mixed into one digest, no two
give the same.

This goes on to all that is absorbed. What is absorbed keeps two digests apart. And two
primitives that differ in one word are told apart by every digest, since the words before
are the same and those behind lose nothing.
-/

namespace TreeDigest.Digest

variable {d d' : Digest} {x y : UInt32} {v w : UInt64}

/-! ## One word -/

/-- What a word is before it meets the digest. -/
def scatter (x : UInt32) : UInt32 := rotate (x * 0xCC9E2D51) 15 * 0x1B873593

/-- What becomes of the digest when a word has met it. -/
def stir (x : UInt32) : UInt32 := rotate x 13 * 5 + 0xE6546B64

/-- A digest meets the scattered word, and what becomes of that is stirred. -/
theorem mix_eq (d : Digest) (x : UInt32) : d.mix x = ⟨stir (d.word ^^^ scatter x)⟩ := rfl

/-- The part of a word that a rotation moves behind the rest. -/
theorem high_lt {k : Nat} (h : k ≤ 32) (x : UInt32) : x.toNat / 2 ^ (32 - k) < 2 ^ k := by
  rw [Nat.div_lt_iff_lt_mul (Nat.two_pow_pos _), ← Nat.pow_add, Nat.add_sub_cancel' h]
  exact x.toNat_lt

/-- A rotation puts the low part of a word in front of the high part. -/
theorem toNat_rotate {k : UInt32} (hpos : 0 < k.toNat) (hlt : k.toNat < 32) (x : UInt32) :
    (rotate x k).toNat =
      x.toNat % 2 ^ (32 - k.toNat) * 2 ^ k.toNat + x.toNat / 2 ^ (32 - k.toNat) := by
  have hback : (32 - k).toNat = 32 - k.toNat :=
    UInt32.toNat_sub_of_le _ _ (UInt32.le_iff_toNat_le.mpr (Nat.le_of_lt hlt))
  have hsplit : 2 ^ 32 = 2 ^ (32 - k.toNat) * 2 ^ k.toNat := by
    rw [← Nat.pow_add, Nat.sub_add_cancel (Nat.le_of_lt hlt)]
  rw [rotate, UInt32.toNat_or, UInt32.toNat_shiftLeft, UInt32.toNat_shiftRight, hback,
    Nat.mod_eq_of_lt hlt, Nat.mod_eq_of_lt (by omega : 32 - k.toNat < 32), Nat.shiftLeft_eq,
    Nat.shiftRight_eq_div_pow, hsplit, Nat.mul_mod_mul_right, ← Nat.shiftLeft_eq,
    ← Nat.shiftLeft_add_eq_or_of_lt (high_lt (Nat.le_of_lt hlt) x), Nat.shiftLeft_eq]

theorem rotate_inj {k : UInt32} (hpos : 0 < k.toNat) (hlt : k.toNat < 32)
    (h : rotate x k = rotate y k) : x = y := by
  -- both parts of a word can be read off the rotated one
  have hparts : ∀ z : UInt32, z.toNat / 2 ^ (32 - k.toNat) = (rotate z k).toNat % 2 ^ k.toNat ∧
      z.toNat % 2 ^ (32 - k.toNat) = (rotate z k).toNat / 2 ^ k.toNat := by
    intro z
    have hhigh := high_lt (Nat.le_of_lt hlt) z
    rw [toNat_rotate hpos hlt, Nat.add_comm, Nat.add_mul_mod_self_right, Nat.mod_eq_of_lt hhigh,
      Nat.add_mul_div_right _ _ (Nat.two_pow_pos _), Nat.div_eq_of_lt hhigh, Nat.zero_add]
    exact ⟨rfl, rfl⟩
  apply UInt32.toNat_inj.mp
  rw [← Nat.div_add_mod x.toNat (2 ^ (32 - k.toNat)),
    ← Nat.div_add_mod y.toNat (2 ^ (32 - k.toNat)), (hparts x).1, (hparts x).2,
    (hparts y).1, (hparts y).2, h]

/-- A product can be undone if the factor has an inverse. -/
theorem mul_inj {factor : UInt32} (inverse : UInt32) (hinverse : factor * inverse = 1)
    (h : x * factor = y * factor) : x = y := by
  have hback : ∀ z : UInt32, z * factor * inverse = z := fun z => by
    rw [UInt32.mul_assoc, hinverse, UInt32.mul_one]
  rw [← hback x, h, hback]

theorem scatter_inj (h : scatter x = scatter y) : x = y := by
  have hrotated := mul_inj 0x56ED309B (by decide) h
  have hproduct := rotate_inj (by decide) (by decide) hrotated
  exact mul_inj 0xDEE13BB1 (by decide) hproduct

theorem stir_inj (h : stir x = stir y) : x = y := by
  have hproduct := (UInt32.add_left_inj _).mp h
  have hrotated := mul_inj 0xCCCCCCCD (by decide) hproduct
  exact rotate_inj (by decide) (by decide) hrotated

/-- **A word keeps digests apart.** -/
theorem mix_inj (h : d.mix x = d'.mix x) : d = d' := by
  rw [mix_eq, mix_eq] at h
  have hmet := stir_inj (Digest.mk.inj h)
  have hword := (UInt32.xor_left_inj _).mp hmet
  cases d
  cases d'
  exact congrArg Digest.mk hword

/-- **A digest tells words apart.** -/
theorem mix_word_inj (h : d.mix x = d.mix y) : x = y := by
  rw [mix_eq, mix_eq] at h
  have hmet := stir_inj (Digest.mk.inj h)
  exact scatter_inj ((UInt32.xor_right_inj _).mp hmet)

/-! ## Two words -/

/-- Of the two halves of two numbers, exactly one is not the same. -/
def OneHalf (v w : UInt64) : Prop :=
  v ≠ w ∧ (v.toUInt32 = w.toUInt32 ∨ v >>> 32 = w >>> 32)

theorem mixWide_inj (h : d.mixWide v = d'.mixWide v) : d = d' := mix_inj (mix_inj h)

/-- The high half of a number, as the word that is mixed. -/
theorem toNat_high (v : UInt64) : (v >>> 32).toUInt32.toNat = v.toNat / 0x100000000 := by
  have hlt := v.toNat_lt
  rw [UInt64.toNat_toUInt32, UInt64.toNat_shiftRight, show (32 : UInt64).toNat % 64 = 32 from rfl,
    Nat.shiftRight_eq_div_pow]
  omega

/-- A number is what its halves are. -/
theorem eq_of_halves (hlow : v.toUInt32 = w.toUInt32)
    (hhigh : (v >>> 32).toUInt32 = (w >>> 32).toUInt32) : v = w := by
  have hlow := congrArg UInt32.toNat hlow
  have hhigh := congrArg UInt32.toNat hhigh
  rw [UInt64.toNat_toUInt32, UInt64.toNat_toUInt32] at hlow
  rw [toNat_high, toNat_high] at hhigh
  apply UInt64.toNat_inj.mp
  omega

theorem mixWide_ne (h : OneHalf v w) : d.mixWide v ≠ d.mixWide w := by
  obtain ⟨hne, hlow | hhigh⟩ := h
  · intro heq
    rw [mixWide, mixWide, hlow] at heq
    exact hne (eq_of_halves hlow (mix_word_inj heq))
  · intro heq
    rw [mixWide, mixWide, hhigh] at heq
    exact hne (eq_of_halves (mix_word_inj (mix_inj heq)) (congrArg UInt64.toUInt32 hhigh))

/-! ## Octets -/

/-- The first word of octets: four of them, or as many as there are. -/
def firstWord (octets : Bytes) : UInt32 := (Bytes.ofLittle (octets.take 4)).toUInt32

/-- Octets are absorbed word by word. -/
theorem mixOctets_step {octets : Bytes} (h : octets ≠ []) (d : Digest) :
    d.mixOctets octets = (d.mix (firstWord octets)).mixOctets (octets.drop 4) := by
  match octets with
  | [] => exact absurd rfl h
  | [_] => rw [mixOctets.eq_def, mixOctets.eq_def]; rfl
  | [_, _] => rw [mixOctets.eq_def, mixOctets.eq_def]; rfl
  | [_, _, _] => rw [mixOctets.eq_def, mixOctets.eq_def]; rfl
  | _ :: _ :: _ :: _ :: rest => rw [mixOctets.eq_def]; rfl

/-- What holds of no octets, and of octets if it holds behind their first word, holds of all. -/
theorem words_induct {motive : Bytes → Prop} (nil : motive [])
    (word : ∀ octets, octets ≠ [] → motive (octets.drop 4) → motive octets) (octets : Bytes) :
    motive octets := by
  induction hlen : octets.length using Nat.strong_induction_on generalizing octets with
  | _ n ih =>
    by_cases h : octets = []
    · exact h ▸ nil
    · have hpos := List.length_pos_iff.mpr h
      exact word octets h (ih _ (by rw [List.length_drop]; omega) _ rfl)

theorem mixOctets_inj {octets : Bytes} (h : d.mixOctets octets = d'.mixOctets octets) : d = d' := by
  induction octets using words_induct generalizing d d' with
  | nil => exact h
  | word octets hne ih =>
    rw [mixOctets_step hne, mixOctets_step hne] at h
    exact mix_inj (ih h)

/-- Whole words in front are absorbed by themselves. -/
theorem mixOctets_append {before octets : Bytes} (h : before.length % 4 = 0) (d : Digest) :
    d.mixOctets (before ++ octets) = (d.mixOctets before).mixOctets octets := by
  induction before using words_induct generalizing d with
  | nil => rfl
  | word before hne ih =>
    have hpos := List.length_pos_iff.mpr hne
    have hfour : 4 ≤ before.length := by omega
    have hne' : before ++ octets ≠ [] := fun hnil => hne (List.append_eq_nil_iff.mp hnil).1
    have hrest : (before.drop 4).length % 4 = 0 := by rw [List.length_drop]; omega
    rw [mixOctets_step hne, mixOctets_step hne', List.drop_append_of_le_length hfour, ih hrest,
      firstWord, firstWord, List.take_append_of_le_length hfour]

theorem firstWord_inj {octets octets' : Bytes} (hlen : octets.length = octets'.length)
    (h : firstWord octets = firstWord octets') : octets.take 4 = octets'.take 4 := by
  have hnat (bytes : Bytes) : (firstWord bytes).toNat = Bytes.ofLittle (bytes.take 4) :=
    Bytes.toNat_word (List.length_take_le 4 bytes) (Bytes.ofLittle_lt _)
  have hvalue : Bytes.ofLittle (octets.take 4) = Bytes.ofLittle (octets'.take 4) := by
    rw [← hnat, h, hnat]
  have hlength : (octets.take 4).length = (octets'.take 4).length := by
    rw [List.length_take, List.length_take, hlen]
  rw [← Bytes.little_ofLittle (octets.take 4), hlength, hvalue, Bytes.little_ofLittle]

/-- **Octets that differ within one word are told apart.** -/
theorem mixOctets_ne {before word word' after : Bytes} (hbefore : before.length % 4 = 0)
    (hlen : word.length = word'.length) (hle : word.length ≤ 4) (hne : word ≠ word') (d : Digest) :
    d.mixOctets (before ++ word ++ after) ≠ d.mixOctets (before ++ word' ++ after) := by
  have hnonempty : ∀ w : Bytes, w.length = word.length → w ++ after ≠ [] := by
    rintro w hw hnil
    obtain ⟨rfl, -⟩ := List.append_eq_nil_iff.mp hnil
    rw [List.eq_nil_of_length_eq_zero hw.symm] at hlen hne
    exact hne (List.eq_nil_of_length_eq_zero hlen.symm).symm
  -- behind the word both go on alike
  have hsplit : ∀ w : Bytes, w.length = word.length →
      (w ++ after).take 4 = w ++ after.take (4 - word.length) ∧
        (w ++ after).drop 4 = after.drop (4 - word.length) := by
    intro w hw
    rw [List.take_append, List.drop_append, List.take_of_length_le (hw ▸ hle),
      List.drop_of_length_le (hw ▸ hle), hw, List.nil_append]
    exact ⟨rfl, rfl⟩
  obtain ⟨htake, hdrop⟩ := hsplit word rfl
  obtain ⟨htake', hdrop'⟩ := hsplit word' hlen.symm
  intro heq
  rw [List.append_assoc, List.append_assoc, mixOctets_append hbefore, mixOctets_append hbefore,
    mixOctets_step (hnonempty word rfl), mixOctets_step (hnonempty word' hlen.symm), hdrop,
    hdrop'] at heq
  have hfirst := firstWord_inj (by rw [List.length_append, List.length_append, hlen])
    (mix_word_inj (mixOctets_inj heq))
  rw [htake, htake'] at hfirst
  exact hne (List.append_cancel_right hfirst)

theorem ofLittle_zeros (k : Nat) : Bytes.ofLittle (List.replicate k 0) = 0 := by
  induction k with
  | zero => rfl
  | succ k ih => rw [List.replicate_succ, Bytes.ofLittle, ih]; rfl

theorem ofLittle_append_zeros (octets : Bytes) (k : Nat) :
    Bytes.ofLittle (octets ++ List.replicate k 0) = Bytes.ofLittle octets := by
  induction octets with
  | nil => exact ofLittle_zeros k
  | cons b octets ih => rw [List.cons_append, Bytes.ofLittle, Bytes.ofLittle, ih]

/-- Zeros in the room that the last word has are absorbed like no octets. -/
theorem mixOctets_padded {octets : Bytes} {k : Nat} (hpart : 0 < octets.length % 4)
    (hroom : octets.length % 4 + k ≤ 4) (d : Digest) :
    d.mixOctets (octets ++ List.replicate k 0) = d.mixOctets octets := by
  induction octets using words_induct generalizing d with
  | nil => cases hpart
  | word octets hne ih =>
    rw [mixOctets_step hne, mixOctets_step (List.append_ne_nil_of_left_ne_nil hne _)]
    by_cases hfour : 4 ≤ octets.length
    · have hrest : (octets.drop 4).length % 4 = octets.length % 4 := by
        rw [List.length_drop]
        omega
      rw [List.drop_append_of_le_length hfour, ih (hrest ▸ hpart) (hrest ▸ hroom), firstWord,
        firstWord, List.take_append_of_le_length hfour]
    · have hle : octets.length ≤ 4 := by omega
      have hle' : (octets ++ List.replicate k 0).length ≤ 4 := by
        rw [List.length_append, List.length_replicate]
        omega
      rw [firstWord, firstWord, List.take_of_length_le hle, List.take_of_length_le hle',
        List.drop_of_length_le hle, List.drop_of_length_le hle', ofLittle_append_zeros]

/-! ## A length that carries

An extension can take the length of octets from below `2 ^ 32` to `2 ^ 32`, where both
halves of the length change at once. Then the two words of the length are looked at
through the lowest three bits of what they are stirred into.
-/

/-- The lowest bits of what is stirred come from the middle of the word. -/
theorem stir_low (x : UInt32) : (stir x).toNat % 8 = (x.toNat / 2 ^ 19 % 8 * 5 + 4) % 8 := by
  have hrotate : (rotate x 13).toNat = x.toNat % 2 ^ 19 * 2 ^ 13 + x.toNat / 2 ^ 19 :=
    toNat_rotate (by decide) (by decide) x
  rw [stir, UInt32.toNat_add, UInt32.toNat_mul, hrotate, show (5 : UInt32).toNat = 5 from rfl,
    show (0xE6546B64 : UInt32).toNat = 0xE6546B64 from rfl]
  omega

/-- The bits that a word meets in the middle of a digest. -/
def middle (x : UInt32) : Nat := (scatter x).toNat / 2 ^ 19 % 8

/-- No bits of a digest are stirred by these bits of a word as the word 1 would change them. -/
def Unlike (x : UInt32) : Prop :=
  ∀ bits < 8, ((bits ^^^ middle x) * 5 + 4) % 8 ≠ (bits * 5 + 4) % 8 ^^^ (scatter 1).toNat % 8

theorem mix_carry_ne (h : Unlike x) (d : Digest) : (d.mix x).mix 0 ≠ (d.mix 0).mix 1 := by
  intro heq
  have hzero : scatter 0 = 0 := by decide
  have hmet :
      stir (d.word ^^^ scatter x) ^^^ scatter 0 = stir (d.word ^^^ scatter 0) ^^^ scatter 1 :=
    stir_inj (Digest.mk.inj heq)
  rw [hzero, UInt32.xor_zero, UInt32.xor_zero] at hmet
  -- three bits of both sides
  have hbits : (stir (d.word ^^^ scatter x)).toNat % 2 ^ 3 =
      (stir d.word ^^^ scatter 1).toNat % 2 ^ 3 := by rw [hmet]
  rw [UInt32.toNat_xor, Nat.xor_mod_two_pow, show 2 ^ 3 = 8 from rfl, stir_low, stir_low,
    UInt32.toNat_xor, Nat.xor_div_two_pow, show 8 = 2 ^ 3 from rfl, Nat.xor_mod_two_pow] at hbits
  exact h _ (Nat.mod_lt _ (by decide)) hbits

/-- The lengths from which an extension carries. -/
theorem unlike_carry {k : Nat} (hk : 0 < k) (hlt : k < 4) : Unlike (0x100000000 - k).toUInt32 := by
  have hall : ∀ k < 4, 0 < k → ∀ bits < 8,
      ((bits ^^^ middle (0x100000000 - k).toUInt32) * 5 + 4) % 8 ≠
        (bits * 5 + 4) % 8 ^^^ (scatter 1).toNat % 8 := by decide
  exact hall k hlt hk

/-- A length that is a word is mixed as that word and a zero. -/
theorem mixWide_short {n : Nat} (h : n < 0x100000000) (d : Digest) :
    d.mixWide n.toUInt64 = (d.mix n.toUInt32).mix 0 := by
  have hnat : n.toUInt64.toNat = n :=
    UInt64.toNat_ofNat_of_lt' (Nat.lt_of_lt_of_le h (by decide))
  have hlow : n.toUInt64.toUInt32 = n.toUInt32 := by
    apply UInt32.toNat_inj.mp
    rw [UInt64.toNat_toUInt32, hnat]
    rfl
  have hhigh : (n.toUInt64 >>> 32).toUInt32 = 0 := by
    apply UInt32.toNat_inj.mp
    rw [toNat_high, hnat, Nat.div_eq_of_lt h]
    rfl
  rw [mixWide, hlow, hhigh]

/-- **An extension within the last word is told apart by its length.** -/
theorem mixWide_extended_ne {n k : Nat} (hn : n < 0x100000000) (hpart : 0 < n % 4) (hk : 0 < k)
    (hroom : n % 4 + k ≤ 4) (d : Digest) : d.mixWide n.toUInt64 ≠ d.mixWide (n + k).toUInt64 := by
  rw [mixWide_short hn]
  by_cases hcarry : n + k < 0x100000000
  · intro heq
    rw [mixWide_short hcarry] at heq
    have hsame := congrArg UInt32.toNat (mix_word_inj (mix_inj heq))
    rw [Nat.toUInt32_eq, Nat.toUInt32_eq, UInt32.toNat_ofNat_of_lt' hn,
      UInt32.toNat_ofNat_of_lt' hcarry] at hsame
    omega
  · -- the last word ends where the lengths of 32 bits do
    obtain rfl : n = 0x100000000 - k := by omega
    have hsum : 0x100000000 - k + k = 0x100000000 := by omega
    rw [hsum]
    exact mix_carry_ne (unlike_carry hk (by omega)) d

end TreeDigest.Digest
