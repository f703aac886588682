import TreeDigest.Json.Text
import TreeDigest.Proofs.Bytes
import TreeDigest.Proofs.Json.Leads

/-!
# Strings read as they were written

Every octet is written as a piece of its own, whether it means itself or is escaped,
and every piece reads as its octet. So a string reads as its octets, and these are
accepted if they are UTF-8.
-/

namespace TreeDigest.Json

open TreeDigest.Json.Parser (Leads)

variable {b : UInt8} {rest : Bytes}

/-! ## Escapes -/

/-- An escape of one letter. -/
theorem escape_leads {letter meant : UInt8}
    (h : ∀ c, escape ⟨c, letter :: rest⟩ = .ok [meant] ⟨c.after letter, rest⟩) :
    piece.Leads (0x5C :: letter :: rest) (some [meant]) rest :=
  .bind .next? (.map ⟨fun place => ⟨_, h place⟩⟩)

/-- The two hexadecimal digits of an octet. -/
def hexDigits (n : Nat) : Bytes :=
  [(Nat.digitChar (n / 16)).toNat.toUInt8, (Nat.digitChar (n % 16)).toNat.toUInt8]

theorem ofHex?_hexDigits : ∀ n < 0x20, Bytes.ofHex? (0x30 :: 0x30 :: hexDigits n) = some n := by
  decide

theorem character_control : ∀ n < 0x20, character n = [n.toUInt8] := by
  decide

/-- A control character that no letter stands for, by its code. -/
theorem piece_code {n : Nat} (h : n < 0x20) (rest : Bytes) :
    piece.Leads (0x5C :: 0x75 :: 0x30 :: 0x30 :: (hexDigits n ++ rest)) (some [n.toUInt8]) rest := by
  have hunit : codeUnit.Leads (0x30 :: 0x30 :: (hexDigits n ++ rest)) n rest := by
    refine .get_bind fun place => ⟨fun place' => ?_⟩
    have htake : (0x30 :: 0x30 :: (hexDigits n ++ rest)).take 4 = 0x30 :: 0x30 :: hexDigits n := rfl
    have hdrop : (0x30 :: 0x30 :: (hexDigits n ++ rest)).drop 4 = rest := rfl
    -- a code unit is taken four octets at a time, so the place has moved past all of them
    refine ⟨(0x30 :: 0x30 :: hexDigits n).foldl Place.after place, ?_⟩
    have hlength : ¬ (0x30 :: 0x30 :: hexDigits n).length < 4 := by
      show ¬ 4 < 4
      decide
    dsimp only
    rw [htake, hdrop, Steps.bind_ok (Steps.set_apply _ _), if_neg hlength, ofHex?_hexDigits n h]
    rfl
  have hhigh : isHigh n = false := by
    have : ¬ 0xD800 ≤ n := by omega
    simp [isHigh, this]
  have hlow : isLow n = false := by
    have : ¬ 0xDC00 ≤ n := by omega
    simp [isLow, this]
  have hescape : unicodeEscape.Leads (0x30 :: 0x30 :: (hexDigits n ++ rest)) [n.toUInt8] rest := by
    refine .bind hunit ?_
    rw [hlow, hhigh, ← character_control n h]
    exact .pure
  exact .bind .next? (.map (.bind .next? hescape))

/-- An octet that means itself. -/
theorem piece_plain (hquote : b ≠ 0x22) (hbackslash : b ≠ 0x5C) (hcontrol : ¬ b < 0x20) :
    piece.Leads (b :: rest) (some [b]) rest := by
  refine .bind .next? ?_
  split
  · rename_i h
    cases h
  · rename_i h
    exact absurd (Option.some.inj h) hquote
  · rename_i h
    exact absurd (Option.some.inj h) hbackslash
  · rename_i h
    cases h
    rw [if_neg hcontrol]
    exact .pure

/-- **Every octet reads as it was written.** -/
theorem piece_leads (b : UInt8) : piece.Leads (escaped b ++ rest) (some [b]) rest := by
  rw [escaped]
  -- The first seven are the octets that a letter stands for.
  iterate 7
    split
    · rename_i h
      subst h
      exact escape_leads fun _ => rfl
    rename_i h
  split
  · rename_i h
    have hform : Bytes.ofAscii ("\\u00" ++ Bytes.hexOctet b) =
        0x5C :: 0x75 :: 0x30 :: 0x30 :: hexDigits b.toNat := by
      simp [Bytes.ofAscii, Bytes.hexOctet, hexDigits]
    have hread := piece_code (UInt8.lt_iff_toNat_lt.mp h) rest
    rw [show b.toNat.toUInt8 = b from UInt8.ofNat_toNat] at hread
    rw [hform]
    exact hread
  · -- not a letter's, not a control character: the octet itself
    rename_i hcontrol
    exact piece_plain (by assumption) (by assumption) hcontrol

/-! ## Strings -/

theorem escaped_pos (b : UInt8) : 1 ≤ (escaped b).length := by
  cases h : escaped b with
  | cons => exact Nat.succ_pos _
  | nil =>
    -- A piece takes something, since it fails at the end of the text.
    have hpiece : piece.Leads [] (some [b]) [] := by
      have hread : piece.Leads (escaped b ++ []) (some [b]) [] := piece_leads b
      rwa [h] at hread
    obtain ⟨_, hplace⟩ := hpiece.apply ⟨1, 0⟩
    cases hplace

theorem text_leads {octets : Bytes} (h : Utf8.isValid octets = true) :
    text.Leads (octets.flatMap escaped ++ 0x22 :: rest) octets rest := by
  have hvalid : Utf8.fault? octets = none := Option.isNone_iff_eq_none.mp h
  have hflatten : (octets.map fun b => [b]).flatten = octets := by
    rw [← List.flatMap_def, List.flatMap_singleton']
  refine .get_bind fun place => ?_
  have hloop : Parser.Leads (Loop.gather (fun _ => piece) (octets.flatMap escaped ++ 0x22 :: rest))
      (octets.flatMap escaped ++ 0x22 :: rest) (octets.map fun b => [b]) rest := by
    refine Parser.Leads.gather (fun _ left => left.flatMap escaped ++ 0x22 :: rest)
      (fun seen b left _ => ?_) ?_ ?_
    · rw [List.flatMap_cons, List.append_assoc]
      exact piece_leads b
    · exact .bind .next? .pure
    · -- the loop has room for as many pieces as there are octets of text
      have hle : octets.length * 1 ≤ _ := Bytes.length_entries fun b _ => escaped_pos b
      rw [List.length_append]
      omega
  refine .bind hloop ?_
  rw [hflatten]
  dsimp only
  rw [hvalid]
  exact .pure

end TreeDigest.Json
