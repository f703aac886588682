import TreeDigest.Proofs.Json.Closing
import TreeDigest.Proofs.Json.Content

/-!
# What a text holds at a place

From one cursor to another a text *holds* a tree. How many containers the reader lets open
makes no difference, as long as they are enough for this tree, so that a reader of another
kind can be compared with it wherever it stands.

A tree is held in its tokens and separators, one after the other. There is a rule for scalars,
one for each container, and two for the entries of each, which are the rounds of its loop.
-/

namespace TreeDigest.Json

variable {levels round : Nat} {c c₁ c₂ c' : Cursor} {t : Tree} {items : List Tree}
  {pairs : List (Bytes × Tree)} {k : Bytes} {next : Token}

/-- From one cursor to another a text holds a tree in which no more containers open at once. -/
def Holds (levels : Nat) (c : Cursor) (t : Tree) (c' : Cursor) : Prop :=
  ∀ n, levels ≤ n → readContent n c = .ok t c'

/-- The items of a list that are left, from a round on. -/
def HoldsItems (levels round : Nat) (c : Cursor) (items : List Tree) (c' : Cursor) : Prop :=
  ∀ n, levels ≤ n → Steps.Gathers (readItem (readContent n)) round c items c'

/-- The pairs of an object that are left, from a round on. -/
def HoldsMembers (levels round : Nat) (c : Cursor) (pairs : List (Bytes × Tree)) (c' : Cursor) :
    Prop :=
  ∀ n, levels ≤ n → Steps.Gathers (readMember (readContent n)) round c pairs c'

theorem Holds.mono {levels' : Nat} (h : Holds levels c t c') (hle : levels ≤ levels') :
    Holds levels' c t c' :=
  fun n hn => h n (Nat.le_trans hle hn)

theorem Holds.unique {t' : Tree} {c'' : Cursor} (h : Holds levels c t c')
    (h' : Holds levels c t' c'') : t = t' := by
  cases (h levels (Nat.le_refl _)).symm.trans (h' levels (Nat.le_refl _))
  rfl

theorem Holds.spends (h : Holds levels c t c') : c'.rest.length < c.rest.length :=
  (readContent_spends levels).lt (h levels (Nat.le_refl _))

/-! ## Scalars -/

/-- The scalar that a token is. -/
def Token.scalar? : Token → Option Tree
  | .null => some .null
  | .bool b => some (.bool b)
  | .number n => some n.content
  | .text octets => some (.text octets)
  | .listStart | .objectStart => none

theorem Holds.scalar (h : token c = .ok next c') (ht : next.scalar? = some t) : Holds 0 c t c' := by
  intro n _
  have hvalue : ∀ list object, readValue list object c = .ok t c' := by
    intro list object
    rw [readValue, Steps.bind_ok h]
    cases next with
    | listStart => cases ht
    | objectStart => cases ht
    | _ => cases ht; rfl
  cases n <;> exact hvalue _ _

/-! ## Containers -/

theorem HoldsItems.nil (h : nextItem (round == 0) c = .ok false c') :
    HoldsItems levels round c [] c' :=
  fun _ _ => .nil (Steps.bind_ok h)

theorem HoldsItems.cons (h : nextItem (round == 0) c = .ok true c₁) (ht : Holds levels c₁ t c₂)
    (hitems : HoldsItems levels (round + 1) c₂ items c') :
    HoldsItems levels round c (t :: items) c' := by
  intro n hn
  have hitem : readItem (readContent n) round c = .ok (some t) c₂ := by
    rw [readItem, Steps.bind_ok h, if_pos rfl, Steps.bind_ok (ht n hn)]
    rfl
  exact .cons hitem (hitems n hn)

theorem HoldsMembers.nil (h : nextKey (round == 0) c = .ok false c') :
    HoldsMembers levels round c [] c' :=
  fun _ _ => .nil (Steps.bind_ok h)

theorem HoldsMembers.cons {c₃ c₄ : Cursor} (h : nextKey (round == 0) c = .ok true c₁)
    (hkey : key c₁ = .ok k c₂) (hcolon : colon c₂ = .ok () c₃) (ht : Holds levels c₃ t c₄)
    (hpairs : HoldsMembers levels (round + 1) c₄ pairs c') :
    HoldsMembers levels round c ((k, t) :: pairs) c' := by
  intro n hn
  have hmember : readMember (readContent n) round c = .ok (some (k, t)) c₄ := by
    rw [readMember, Steps.bind_ok h, if_pos rfl, Steps.bind_ok hkey, Steps.bind_ok hcolon,
      Steps.bind_ok (ht n hn)]
    rfl
  exact .cons hmember (hpairs n hn)

theorem Holds.list (hopen : token c = .ok .listStart c₁) (h : HoldsItems levels 0 c₁ items c₂)
    (hend : listEnd c₂ = .ok () c') : Holds (levels + 1) c (.list items) c' := by
  intro n hn
  obtain ⟨n, rfl⟩ := Nat.exists_eq_succ_of_ne_zero (Nat.ne_zero_of_lt hn)
  have hruns := h n (Nat.le_of_succ_le_succ hn)
  -- every item uses up an octet, so there is room for all of them
  have hloop : Loop.gather (readItem (readContent n)) c₁.rest c₁ = .ok items c₂ :=
    hruns.gather (Advances.gathers_length_le (readItem_spends (readContent_spends n)) hruns)
  rw [readContent, readValue, Steps.bind_ok hopen]
  dsimp only
  rw [readList, Steps.bind_ok (Steps.get_apply _), Steps.bind_ok hloop, Steps.bind_ok hend]
  rfl

theorem Holds.map (hopen : token c = .ok .objectStart c₁) (h : HoldsMembers levels 0 c₁ pairs c₂)
    (hend : objectEnd c₂ = .ok () c') : Holds (levels + 1) c (.map pairs) c' := by
  intro n hn
  obtain ⟨n, rfl⟩ := Nat.exists_eq_succ_of_ne_zero (Nat.ne_zero_of_lt hn)
  have hruns := h n (Nat.le_of_succ_le_succ hn)
  have hloop : Loop.gather (readMember (readContent n)) c₁.rest c₁ = .ok pairs c₂ :=
    hruns.gather (Advances.gathers_length_le (readMember_spends (readContent_spends n)) hruns)
  rw [readContent, readValue, Steps.bind_ok hopen]
  dsimp only
  rw [readObject, Steps.bind_ok (Steps.get_apply _), Steps.bind_ok hloop, Steps.bind_ok hend]
  rfl

/-! ## Tokens that were seen -/

section Seen

variable {b? : Option UInt8}

/-- A token is the same whether or not the blanks before it have been gone over. -/
theorem token_again (h : Parser.peekToken? c = .ok b? c₁) : token c = token c₁ := peek_bind_again h

theorem token_listStart (h : Parser.peekToken? c = .ok (some 0x5B) c₁)
    (hskip : Parser.skip c₁ = .ok () c') : token c = .ok .listStart c' := by
  rw [token, Steps.bind_ok h]
  show (do Parser.skip; return Token.listStart : Parser Token) c₁ = _
  rw [Steps.bind_ok hskip]
  rfl

theorem token_objectStart (h : Parser.peekToken? c = .ok (some 0x7B) c₁)
    (hskip : Parser.skip c₁ = .ok () c') : token c = .ok .objectStart c' := by
  rw [token, Steps.bind_ok h]
  show (do Parser.skip; return Token.objectStart : Parser Token) c₁ = _
  rw [Steps.bind_ok hskip]
  rfl

/-- Where a string is next, a key is the text that it is. -/
theorem token_key (h : Parser.peekToken? c = .ok (some 0x22) c₁) (hkey : key c₁ = .ok k c') :
    token c = .ok (.text k) c' := by
  obtain ⟨_, c₂, hskip, htext⟩ := Steps.bind_eq_ok_iff.mp hkey
  rw [token, Steps.bind_ok h]
  show (do Parser.skip; return Token.text (← text) : Parser Token) c₁ = _
  rw [Steps.bind_ok hskip, Steps.bind_ok htext]
  rfl

/-- Where a list ends, no item follows. -/
theorem nextItem_of_listEnd (isFirst : Bool) (h : listEnd c = .ok () c') :
    ∃ c₁, nextItem isFirst c = .ok false c₁ ∧ listEnd c₁ = .ok () c' := by
  obtain ⟨b?, c₁, hpeek, hend⟩ := Steps.bind_eq_ok_iff.mp h
  refine ⟨c₁, ?_, (peek_bind_again hpeek).symm.trans h⟩
  rw [nextItem, Steps.bind_ok hpeek]
  split at hend
  · cases hend
  · rfl
  · obtain ⟨_, c₂, -, hend⟩ := Steps.bind_eq_ok_iff.mp hend
    obtain ⟨b?, c₃, -, hend⟩ := Steps.bind_eq_ok_iff.mp hend
    split at hend <;> exact absurd hend failNext_ne_ok
  · exact absurd hend failNext_ne_ok

end Seen

/-! ## Whole texts -/

/-- A text that holds a tree and then nothing but blanks has it as its content. -/
theorem content_eq_ok {input : Bytes} (h : Holds levels (.start input) t c')
    (hlevels : levels ≤ nestingCeiling) (hrest : ∀ b ∈ c'.rest, Parser.isBlank b = true) :
    content input = .ok t := by
  obtain ⟨c'', hfinished⟩ := finished_ok_iff.mpr hrest
  have hstep : (do let t ← readContent nestingCeiling; Parser.finished; return t : Parser Tree)
      (Cursor.start input) = .ok t c'' := by
    rw [Steps.bind_ok (h _ hlevels), Steps.bind_ok hfinished]
    rfl
  unfold content
  dsimp only
  rw [hstep]

/-- A text that begins with a tree has a content just if nothing but blanks comes after it. -/
theorem exists_content_iff {input : Bytes} (h : Holds levels (.start input) t c')
    (hlevels : levels ≤ nestingCeiling) :
    (∃ t, content input = .ok t) ↔ ∀ b ∈ c'.rest, Parser.isBlank b = true := by
  refine ⟨fun hcontent => ?_, fun hrest => ⟨t, content_eq_ok h hlevels hrest⟩⟩
  obtain ⟨t', hcontent⟩ := hcontent
  unfold content at hcontent
  dsimp only at hcontent
  rw [Steps.bind_ok (h _ hlevels)] at hcontent
  split at hcontent
  · rename_i hstep
    obtain ⟨_, c'', hfinished, -⟩ := Steps.bind_eq_ok_iff.mp hstep
    exact finished_ok_iff.mp ⟨c'', hfinished⟩
  · cases hcontent

end TreeDigest.Json
