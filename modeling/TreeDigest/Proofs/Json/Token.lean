import TreeDigest.Proofs.Json.Form
import TreeDigest.Proofs.Json.Number
import TreeDigest.Proofs.Json.Text

/-!
# Tokens and separators as they were written

What is written has no blanks, so the next octet is always the first of a token or a
separator. The form of a scalar is one token. Between the entries of a container the
next octet tells whether another entry follows, since no form begins with the end of
a container.
-/

namespace TreeDigest.Json

open TreeDigest.Json.Parser (Leads isBlank)

variable {rest : Bytes} {t : Tree}

/-! ## Scalars -/

theorem word_leads (expected : Bytes) : (word expected).Leads (expected ++ rest) () rest := by
  induction expected with
  | nil => exact .pure
  | cons b expected ih =>
    refine .bind .next? ?_
    dsimp only
    rw [if_pos rfl]
    exact ih

theorem not_isBlank_of_isDigit {b : UInt8} (h : Bytes.isDigit b = true) : isBlank b = false := by
  by_contra hblank
  rw [Bool.not_eq_false, isBlank] at hblank
  simp only [Bool.or_eq_true, beq_iff_eq] at hblank
  rcases hblank with ((rfl | rfl) | rfl) | rfl <;> cases h

theorem number_token {input : Bytes} {n : Number} (h : (number false).Leads input n rest) :
    token.Leads input (.number n) rest := by
  obtain ⟨b, tail, rfl, hdigit⟩ := number_head h
  refine .bind (.peekToken? (not_isBlank_of_isDigit hdigit)) ?_
  -- No other token begins with a digit.
  split
  next heq => cases heq
  iterate 7
    next heq =>
      cases heq
      exact absurd hdigit (by decide)
  next heq =>
    cases heq
    rw [if_pos hdigit]
    exact .map h

theorem minus_token {input : Bytes} {n : Number} (h : (number true).Leads input n rest) :
    token.Leads (0x2D :: input) (.number n) rest :=
  .bind (.peekToken? rfl) (.bind .skip (.map h))

/-- The token that the form of a tree is or begins with. -/
def firstToken : Tree → Token
  | .null => .null
  | .bool b => .bool b
  | .int i => .number (if i.toInt < 0 then .negative i else .unsigned i.toUInt64)
  | .uint u => .number (.unsigned u)
  | .double bits => .number (.double bits)
  | .text octets => .text octets
  | .list _ => .listStart
  | .map _ => .objectStart

/-- **The form of a scalar is its token.** -/
theorem scalar_token (ht : Expressible t) (hscalar : t.isContainer = false) (hrest : Follows rest) :
    token.Leads (layout t ++ rest) (firstToken t) rest := by
  cases t with
  | list items => exact Bool.noConfusion hscalar
  | map pairs => exact Bool.noConfusion hscalar
  | null => exact .bind (.peekToken? rfl) (.bind .skip (.bind (word_leads _) .pure))
  | bool b =>
    cases b with
    | true => exact .bind (.peekToken? rfl) (.bind .skip (.bind (word_leads _) .pure))
    | false => exact .bind (.peekToken? rfl) (.bind .skip (.bind (word_leads _) .pure))
  | int i =>
    have hleads := int_leads i hrest
    rw [layout, intForm, firstToken]
    by_cases hneg : i.toInt < 0
    · rw [decide_eq_true hneg] at hleads
      rw [if_pos hneg]
      -- the sign is in the token, the magnitude behind it
      exact minus_token hleads
    · rw [decide_eq_false hneg] at hleads
      rw [if_neg hneg]
      exact number_token hleads
  | uint u => exact number_token (uint_leads u hrest)
  | double bits =>
    have hleads := double_leads ht hrest
    rw [layout, doubleForm_eq]
    cases hneg : Binary.double.isNegative bits.toNat with
    | true =>
      rw [hneg] at hleads
      exact minus_token hleads
    | false =>
      rw [hneg] at hleads
      exact number_token hleads
  | text octets =>
    have htext : text.Leads (octets.flatMap escaped ++ 0x22 :: rest) octets rest := text_leads ht
    rw [layout, textForm, List.cons_append, List.append_assoc]
    exact .bind (.peekToken? rfl) (.bind .skip (.map htext))

theorem listStart_token : token.Leads (0x5B :: rest) .listStart rest :=
  .bind (.peekToken? rfl) (.bind .skip .pure)

theorem objectStart_token : token.Leads (0x7B :: rest) .objectStart rest :=
  .bind (.peekToken? rfl) (.bind .skip .pure)

/-! ## Lists -/

/-- Neither a blank nor the end of a list. -/
structure Opens (input : Bytes) : Prop where
  head : ∃ b tail, input = b :: tail ∧ isBlank b = false ∧ b ≠ 0x5D

theorem opens_of_isDigit {b : UInt8} {tail : Bytes} (h : Bytes.isDigit b = true) :
    Opens (b :: tail) := by
  refine ⟨b, tail, rfl, not_isBlank_of_isDigit h, ?_⟩
  rintro rfl
  exact absurd h (by decide)

theorem opens_of_number {input : Bytes} {n : Number} (h : (number false).Leads input n rest) :
    Opens input := by
  obtain ⟨b, tail, rfl, hdigit⟩ := number_head h
  exact opens_of_isDigit hdigit

theorem Opens.append {input : Bytes} (h : Opens input) (more : Bytes) : Opens (input ++ more) := by
  obtain ⟨b, tail, rfl, hblank, hend⟩ := h.head
  exact ⟨b, tail ++ more, rfl, hblank, hend⟩

theorem opens_layout (ht : Expressible t) : Opens (layout t) := by
  have hnil := Follows.nil
  cases t with
  | null => exact ⟨_, _, rfl, by decide, by decide⟩
  | bool b => cases b <;> exact ⟨_, _, rfl, by decide, by decide⟩
  | int i =>
    have hleads := int_leads i hnil
    rw [List.append_nil] at hleads
    rw [layout, intForm]
    split
    · exact ⟨_, _, rfl, by decide, by decide⟩
    · rename_i hneg
      rw [decide_eq_false hneg] at hleads
      exact opens_of_number hleads
  | uint u =>
    have hleads := uint_leads u hnil
    rw [List.append_nil] at hleads
    exact opens_of_number hleads
  | double bits =>
    have hleads := double_leads ht hnil
    rw [List.append_nil] at hleads
    rw [layout, doubleForm_eq]
    cases hneg : Binary.double.isNegative bits.toNat with
    | true => exact ⟨_, _, rfl, by decide, by decide⟩
    | false =>
      rw [hneg] at hleads
      exact opens_of_number hleads
  | text octets => exact ⟨_, _, rfl, by decide, by decide⟩
  | list items => exact ⟨_, _, rfl, by decide, by decide⟩
  | map pairs => exact ⟨_, _, rfl, by decide, by decide⟩

theorem nextItem_item {isFirst : Bool} {input : Bytes} (h : Opens input) :
    (nextItem isFirst).Leads (separator isFirst ++ input) true input := by
  obtain ⟨b, tail, rfl, hblank, hend⟩ := h.head
  cases isFirst with
  | true =>
    refine .bind (.peekToken? hblank) ?_
    split
    next heq => cases heq
    next heq => exact absurd (Option.some.inj heq) hend
    next => exact .pure
  | false =>
    refine .bind (.peekToken? rfl) (.bind .skip (.bind (.peekToken? hblank) ?_))
    split
    next heq => cases heq
    next heq => exact absurd (Option.some.inj heq) hend
    next => exact .pure

theorem nextItem_end {isFirst : Bool} : (nextItem isFirst).Leads (0x5D :: rest) false (0x5D :: rest) :=
  .bind (.peekToken? rfl) .pure

theorem listEnd_leads : listEnd.Leads (0x5D :: rest) () rest := .bind (.peekToken? rfl) .skip

/-! ## Objects -/

theorem nextKey_pair {isFirst : Bool} {input : Bytes} :
    (nextKey isFirst).Leads (separator isFirst ++ 0x22 :: input) true (0x22 :: input) := by
  cases isFirst with
  | true => exact .bind (.peekToken? rfl) .pure
  | false => exact .bind (.peekToken? rfl) (.bind .skip (.bind (.peekToken? rfl) .pure))

theorem nextKey_end {isFirst : Bool} : (nextKey isFirst).Leads (0x7D :: rest) false (0x7D :: rest) :=
  .bind (.peekToken? rfl) .pure

theorem key_leads {k : Bytes} (h : Utf8.isValid k = true) : key.Leads (textForm k ++ rest) k rest := by
  rw [textForm, List.cons_append, List.append_assoc]
  exact .bind .skip (text_leads h)

theorem colon_leads : colon.Leads (0x3A :: rest) () rest := .bind (.peekToken? rfl) .skip

theorem objectEnd_leads : objectEnd.Leads (0x7D :: rest) () rest := .bind (.peekToken? rfl) .skip

/-! ## The end of the text -/

theorem finished_leads : Parser.finished.Leads [] () [] := ⟨fun place => ⟨place, rfl⟩⟩

end TreeDigest.Json
