import TreeDigest.Proofs.Bson.Form
import TreeDigest.Proofs.Bson.Readers
import TreeDigest.Proofs.Input.Reads

/-!
# The grammar of BSON

A payload of a type spells a tree. Every length and every zero octet is where the
tree wants it, so there is one way to spell a tree of a type, but for integers: one
that fits 32 bits may be spelled in 64. The grammar keeps a record of the integers
that were spelled in 64 bits.

The tree reader is sound and complete for it. What it accepts is spelled, at every
depth, and what is spelled it accepts if that is not too deep. In both directions a
document is followed element by element to the zero octet at its end, and that
stands where the length of the document says.
-/

namespace TreeDigest.Bson

open Reader (Reads)

mutual

/-- Octets are a payload of a type that says a tree, with certain 64-bit integers in it. -/
inductive Spells : ElementType → Tree → Bytes → List Int64 → Prop
  | null : Spells .null .null [] []
  | bool (b : Bool) : Spells .bool (.bool b) [if b then 1 else 0] []
  | double (bits : UInt64) : Spells .double (.double bits) (Bytes.little 8 bits.toNat) []
  | text {octets : Bytes} : octets.length + 1 < 0x80000000 →
      Spells .text (.text octets) (textForm octets) []
  | int32 {i : Int64} : FitsShort i → Spells .int32 (.int i) (Bytes.little 4 i.toUInt64.toNat) []
  | int64 (i : Int64) : Spells .int64 (.int i) (Bytes.little 8 i.toUInt64.toNat) [i]
  | document {pairs : List (Bytes × Tree)} {content : Bytes} {longs : List Int64} :
      SpellsEntries pairs content longs → content.length + 5 < 0x80000000 →
      Spells .document (.map pairs) (documentForm content) longs
  | array {items : List Tree} {content : Bytes} {longs : List Int64} :
      SpellsEntries (entriesOf items) content longs → content.length + 5 < 0x80000000 →
      Spells .array (.list items) (documentForm content) longs

/-- Octets are elements with certain keys and values. -/
inductive SpellsEntries : List (Bytes × Tree) → Bytes → List Int64 → Prop
  | nil : SpellsEntries [] [] []
  | cons {type : ElementType} {key bytes content : Bytes} {t : Tree} {longs more : List Int64}
      {entries : List (Bytes × Tree)} : (0 : UInt8) ∉ key → Spells type t bytes longs →
      SpellsEntries entries content more →
      SpellsEntries ((key, t) :: entries) (headForm type key ++ bytes ++ content) (longs ++ more)

end

/-- The type of a document. -/
def documentType (isArray : Bool) : ElementType := if isArray then .array else .document

variable {limit levels finish index offset : Nat} {isArray : Bool} {key rest : Bytes}
  {c c' : Cursor} {t : Tree} {document : Bool → Reader Tree}

/-- What stands behind the head of an element, up to its tree. -/
def value (document : Bool → Reader Tree) (header : Header) : Reader Tree := do
  readPayload document (← payload header)

/-- The payload of a type. -/
def payloadOf : ElementType → Reader Payload
  | .double => return .double (← Reader.little 8).toUInt64
  | .text => return .text (← textPayload)
  | .document => return .document
  | .array => return .array
  | .bool => return .bool (← boolPayload)
  | .null => return .null
  | .int32 => return .int (Int64.ofInt (← Reader.signedLittle 4))
  | .int64 => return .int (Int64.ofInt (← Reader.signedLittle 8))

theorem value_eq {header : Header} {type : ElementType} (h : header.kind = type.octet) :
    value document header = payloadOf type >>= readPayload document := by
  rw [value, payload, h, ElementType.ofOctet?_octet]
  cases type <;> rfl

theorem readElement_eq : readElement document isArray finish index = (do
    match ← nextElement finish with
    | none => return none
    | some header => do
      readKey isArray header index
      let value ← value document header
      return some (header.key, value)) := by
  rw [readElement]
  congr
  funext result
  cases result with
  | none => rfl
  | some header =>
    simp only [value, bind_assoc]

/-! ## What is accepted is spelled -/

/-- Between two places lies a payload of a type that says a tree. -/
def TakesPayload (type : ElementType) (c : Cursor) (t : Tree) (c' : Cursor) : Prop :=
  ∃ bytes longs, Spells type t bytes longs ∧ c.Takes bytes c'

theorem octet_of_ofOctet? {b : UInt8} {type : ElementType} (h : ElementType.ofOctet? b = some type) :
    type.octet = b := by
  unfold ElementType.ofOctet? at h
  split_ifs at h <;> cases h <;> simp_all [ElementType.octet]

theorem textPayload_ok {octets : Bytes} (h : textPayload c = .ok octets c') :
    octets.length + 1 < 0x80000000 ∧ c.Takes (textForm octets) c' := by
  obtain ⟨offset, c₁, hoffset, h⟩ := Steps.bind_eq_ok_iff.mp h
  obtain ⟨rfl, rfl⟩ := Reader.offset_ok hoffset
  obtain ⟨length, c₂, hlength, h⟩ := Steps.bind_eq_ok_iff.mp h
  split at h
  · cases h
  rename_i hleast
  obtain ⟨taken, c₃, htake, h⟩ := Steps.bind_eq_ok_iff.mp h
  obtain ⟨hlen, htaken⟩ := Reader.take_ok htake
  split at h
  · rename_i hlast
    cases h
    obtain ⟨n, rfl, hgreatest, hlittle⟩ := Reader.signedLittle_nonneg hlength (by omega)
    -- the length counts the zero octet, which is dropped
    obtain ⟨octets, rfl⟩ := List.getLast?_eq_some_iff.mp hlast
    rw [List.dropLast_concat]
    rw [List.length_append, List.length_singleton, Int.toNat_natCast] at hlen
    subst hlen
    have hcapacity : Bytes.capacity 4 = 0x100000000 := rfl
    exact ⟨by omega, hlittle.trans htaken⟩
  · cases h

theorem boolPayload_ok {b : Bool} (h : boolPayload c = .ok b c') :
    c.Takes [if b then 1 else 0] c' := by
  obtain ⟨offset, c₁, hoffset, h⟩ := Steps.bind_eq_ok_iff.mp h
  obtain ⟨rfl, rfl⟩ := Reader.offset_ok hoffset
  obtain ⟨octet, c₂, hoctet, h⟩ := Steps.bind_eq_ok_iff.mp h
  have htaken := Reader.octet_ok hoctet
  split at h
  · rename_i hzero
    cases h
    rwa [hzero] at htaken
  split at h
  · rename_i hone
    cases h
    rwa [hone] at htaken
  · cases h

/-- A payload is one of a type, and a document is left to be read. -/
theorem payloadOf_takes {type : ElementType}
    (hdocument : ∀ {b c t c'}, document b c = .ok t c' → TakesPayload (documentType b) c t c')
    (h : (payloadOf type >>= readPayload document) c = .ok t c') : TakesPayload type c t c' := by
  obtain ⟨payload, c₁, hp, h⟩ := Steps.bind_eq_ok_iff.mp h
  cases type with
  | null => cases hp; cases h; exact ⟨_, _, .null, .refl _⟩
  | document => cases hp; exact hdocument (b := false) h
  | array => cases hp; exact hdocument (b := true) h
  | double =>
    obtain ⟨n, c₂, hn, hp⟩ := Steps.bind_eq_ok_iff.mp hp
    cases hp
    cases h
    obtain ⟨hlt, htaken⟩ := Reader.little_ok hn
    have hspells := Spells.double n.toUInt64
    rw [show n.toUInt64.toNat = n from UInt64.toNat_ofNat_of_lt' hlt] at hspells
    exact ⟨_, _, hspells, htaken⟩
  | text =>
    obtain ⟨octets, c₂, hoctets, hp⟩ := Steps.bind_eq_ok_iff.mp hp
    cases hp
    cases h
    obtain ⟨hlen, htaken⟩ := textPayload_ok hoctets
    exact ⟨_, _, .text hlen, htaken⟩
  | bool =>
    obtain ⟨b, c₂, hb, hp⟩ := Steps.bind_eq_ok_iff.mp hp
    cases hp
    cases h
    exact ⟨_, _, .bool b, boolPayload_ok hb⟩
  | int32 =>
    obtain ⟨n, c₂, hn, hp⟩ := Steps.bind_eq_ok_iff.mp hp
    cases hp
    cases h
    obtain ⟨i, rfl, hfits, htaken⟩ := Reader.signedLittle_ok (by decide) hn
    -- what four octets hold is what fits 32 bits
    have hshort : FitsShort i := by
      have hcapacity : Bytes.capacity 4 = 0x100000000 := rfl
      have hleast := hfits.least
      have hgreatest := hfits.greatest
      exact ⟨by omega, by omega⟩
    rw [Int64.ofInt_toInt]
    exact ⟨_, _, .int32 hshort, htaken⟩
  | int64 =>
    obtain ⟨n, c₂, hn, hp⟩ := Steps.bind_eq_ok_iff.mp hp
    cases hp
    cases h
    obtain ⟨i, rfl, hfits, htaken⟩ := Reader.signedLittle_ok (by decide) hn
    rw [Int64.ofInt_toInt]
    exact ⟨_, _, .int64 i, htaken⟩

/-- **A value is taken from a payload of the type in its head.** -/
theorem value_takes {header : Header}
    (hdocument : ∀ {b c t c'}, document b c = .ok t c' → TakesPayload (documentType b) c t c')
    (h : value document header c = .ok t c') :
    ∃ type, type.octet = header.kind ∧ TakesPayload type c t c' := by
  cases htype : ElementType.ofOctet? header.kind with
  | none =>
    obtain ⟨payload, c₁, hp, -⟩ := Steps.bind_eq_ok_iff.mp h
    rw [Bson.payload, htype] at hp
    cases hp
  | some type =>
    have hkind := octet_of_ofOctet? htype
    rw [value_eq hkind.symm] at h
    exact ⟨type, hkind, payloadOf_takes hdocument h⟩

theorem readKey_ok {header : Header} {u : Unit} (h : readKey isArray header index c = .ok u c') :
    c = c' ∧ (isArray = true → header.key = Bytes.decimal index) := by
  unfold readKey checkIndex at h
  split at h
  · split at h
    · rename_i hkey
      cases h
      exact ⟨rfl, fun _ => hkey⟩
    · cases h
  · rename_i harray
    cases h
    exact ⟨rfl, fun h => absurd h harray⟩

/-- An element is taken from its head and a payload of its type. -/
theorem readElement_takes {kv : Bytes × Tree}
    (hdocument : ∀ {b c t c'}, document b c = .ok t c' → TakesPayload (documentType b) c t c')
    (h : readElement document isArray finish index c = .ok (some kv) c') :
    (isArray = true → kv.1 = Bytes.decimal index) ∧ (0 : UInt8) ∉ kv.1 ∧
      ∃ type bytes longs, Spells type kv.2 bytes longs ∧ c.Takes (headForm type kv.1 ++ bytes) c' := by
  rw [readElement_eq] at h
  obtain ⟨header, c₁, hnext, h⟩ := Steps.bind_eq_ok_iff.mp h
  cases header with
  | none => cases h
  | some header =>
    obtain ⟨_, c₂, hkey, h⟩ := Steps.bind_eq_ok_iff.mp h
    obtain ⟨t, c₃, hvalue, h⟩ := Steps.bind_eq_ok_iff.mp h
    cases h
    obtain ⟨-, hnul, hhead⟩ := nextElement_some hnext
    obtain ⟨type, htype, bytes, longs, hspells, htaken⟩ := value_takes hdocument hvalue
    obtain ⟨rfl, hindex⟩ := readKey_ok hkey
    rw [← htype] at hhead
    exact ⟨hindex, hnul, type, bytes, longs, hspells, hhead.trans htaken⟩

theorem readElement_ends (h : readElement document isArray finish index c = .ok none c') :
    c.Takes [0] c' ∧ c'.offset = finish := by
  obtain ⟨header, c₁, hnext, h⟩ := Steps.bind_eq_ok_iff.mp h
  cases header with
  | none => cases h; exact nextElement_none hnext
  | some header =>
    obtain ⟨_, c₂, -, h⟩ := Steps.bind_eq_ok_iff.mp h
    obtain ⟨payload, c₃, -, h⟩ := Steps.bind_eq_ok_iff.mp h
    obtain ⟨t, c₄, -, h⟩ := Steps.bind_eq_ok_iff.mp h
    cases h

/-- The elements of a document are spelled one after the other, up to where its length says. -/
theorem elements_take {entries : List (Bytes × Tree)}
    (hdocument : ∀ {b c t c'}, document b c = .ok t c' → TakesPayload (documentType b) c t c')
    (h : Steps.Gathers (readElement document isArray finish) index c entries c') :
    (isArray = true → ∀ p ∈ entries.zipIdx index, p.1.1 = Bytes.decimal p.2) ∧
      ∃ content longs, SpellsEntries entries content longs ∧ c.Takes (content ++ [0]) c' ∧
        c'.offset = finish := by
  induction h with
  | nil hend =>
    obtain ⟨htaken, hoffset⟩ := readElement_ends hend
    exact ⟨fun _ _ hp => (nomatch hp), [], [], .nil, htaken, hoffset⟩
  | @cons index c c₁ c' kv entries helement _ ih =>
    obtain ⟨hindex, hnul, type, bytes, longs, hspells, htaken⟩ := readElement_takes hdocument helement
    obtain ⟨hindices, content, more, hentries, hrest, hoffset⟩ := ih
    refine ⟨fun harray => ?_, _, _, .cons hnul hspells hentries, ?_, hoffset⟩
    · rw [List.zipIdx_cons, List.forall_mem_cons]
      exact ⟨hindex harray, hindices harray⟩
    · rw [List.append_assoc]
      exact htaken.trans hrest

/-- Entries whose keys are their indices are the items of a list. -/
theorem eq_entriesOf {entries : List (Bytes × Tree)}
    (h : ∀ p ∈ entries.zipIdx, p.1.1 = Bytes.decimal p.2) :
    entriesOf (entries.map (·.2)) = entries := by
  have hpairs : ∀ p ∈ entries.zipIdx, (Bytes.decimal p.2, p.1.2) = p.1 := fun p hp => by rw [← h p hp]
  rw [entriesOf, List.zipIdx_map, List.map_map]
  refine (List.map_congr_left hpairs).trans ?_
  exact List.zipIdx_map_fst 0 entries

/-- **A document is taken from a payload of its type.** -/
theorem read_takes (h : read limit levels isArray c = .ok t c') :
    TakesPayload (documentType isArray) c t c' := by
  induction levels generalizing isArray c c' t with
  | zero => cases h
  | succ levels ih =>
    rw [read] at h
    obtain ⟨finish, c₁, hopen, h⟩ := Steps.bind_eq_ok_iff.mp h
    obtain ⟨c₂, c₃, hget, h⟩ := Steps.bind_eq_ok_iff.mp h
    cases hget
    obtain ⟨entries, c₄, hentries, h⟩ := Steps.bind_eq_ok_iff.mp h
    cases h
    obtain ⟨length, hleast, hgreatest, rfl, hlength⟩ := openDocument_ok hopen
    -- an element takes an octet at least, so the loop is not cut short
    have hruns : Steps.Gathers (readElement (read limit levels) isArray (c.offset + length)) 0 c₁
        entries c' := by
      refine Steps.gathers_of_gather (fun s => s.rest.length) (fun helement => ?_) (Nat.le_refl _) hentries
      obtain ⟨-, -, type, bytes, longs, -, hrest, -⟩ := readElement_takes ih helement
      rw [hrest, List.length_append, List.length_append, length_headForm]
      omega
    obtain ⟨hindex, content, longs, hspelled, hcontent, hoffset⟩ := elements_take ih hruns
    have hstart := hlength.2
    have hend := hcontent.2
    rw [Bytes.length_little] at hstart
    rw [List.length_append, List.length_singleton] at hend
    have hsame : length = content.length + 5 := by omega
    rw [hsame] at hgreatest hlength
    have htaken := hlength.trans hcontent
    cases isArray with
    | false => exact ⟨_, longs, .document hspelled hgreatest, htaken⟩
    | true =>
      rw [← eq_entriesOf (hindex rfl)] at hspelled
      exact ⟨_, longs, .array hspelled hgreatest, htaken⟩

/-! ## What is spelled is accepted -/

theorem findZero_eq (h : (0 : UInt8) ∉ key) {seen room : Nat} (hroom : key.length < room) :
    findZero seen room (key ++ 0 :: rest) = some (seen + key.length) := by
  induction key generalizing seen room with
  | nil =>
    cases room with
    | zero => cases hroom
    | succ room => rfl
  | cons b key ih =>
    rw [List.mem_cons, not_or] at h
    cases room with
    | zero => cases hroom
    | succ room =>
      -- no octet of the key ends it
      have hb : ¬ b = 0 := fun hb => h.1 hb.symm
      rw [List.length_cons] at hroom
      rw [List.cons_append, findZero, if_neg hb, ih h.2 (by omega), List.length_cons]
      congr 1
      omega

theorem octet_ne_zero (type : ElementType) : ¬ type.octet = 0 := by
  cases type <;> decide

/-- The head of an element that ends within its document. -/
theorem nextElement_head {type : ElementType} (hkey : (0 : UInt8) ∉ key)
    (hroom : offset + (key.length + 2) ≤ finish) :
    nextElement finish ⟨offset, headForm type key ++ rest⟩ =
      .ok (some ⟨offset, type.octet, key⟩) ⟨offset + (key.length + 2), rest⟩ := by
  have hbefore : ¬ finish ≤ offset := by omega
  have hrest : headForm type key ++ rest = type.octet :: (key ++ 0 :: rest) := by
    rw [headForm, List.cons_append, List.append_assoc]
    rfl
  have hzero : findZero 0 (finish - offset - 1) (key ++ 0 :: rest) = some key.length := by
    rw [findZero_eq hkey (by omega), Nat.zero_add]
  rw [hrest, nextElement, Steps.bind_ok (Reader.offset_apply _),
    if_neg hbefore, Steps.bind_ok (Reader.octet_cons ..),
    if_neg (octet_ne_zero type), Steps.bind_ok (Steps.get_apply _)]
  dsimp only
  rw [hzero]
  dsimp only
  rw [Steps.bind_ok ((Reads.take key).apply _ (0 :: rest))]
  have hplace : offset + (key.length + 2) = offset + 1 + key.length + 1 := by omega
  rw [hplace]
  rfl

/-- The zero octet at the end of a document. -/
theorem nextElement_end :
    nextElement (offset + 1) ⟨offset, 0 :: rest⟩ = .ok none ⟨offset + 1, rest⟩ := by
  have hbefore : ¬ offset + 1 ≤ offset := by omega
  rw [nextElement, Steps.bind_ok (Reader.offset_apply _),
    if_neg hbefore, Steps.bind_ok (Reader.octet_cons ..), if_pos rfl, if_pos rfl]
  rfl

theorem textPayload_reads {octets : Bytes} (h : octets.length + 1 < 0x80000000) :
    textPayload.Reads (textForm octets) octets := by
  refine .offset_bind fun _ => .bind (.signedLittle_nat (by simp [Bytes.capacity]; omega)) ?_
  have hpositive : ¬ ((octets.length + 1 : Nat) : Int) < 1 := by omega
  rw [if_neg hpositive]
  refine .bind_last (.take_of_length (n := (octets.length + 1 : Nat)) ?_) ?_
  · rw [List.length_append]
    rfl
  · rw [List.getLast?_concat, if_pos rfl, List.dropLast_concat]
    exact .pure

theorem boolPayload_reads (b : Bool) : boolPayload.Reads [if b then 1 else 0] b := by
  refine .offset_bind fun _ => .bind_last (.octet _) ?_
  cases b with
  | false => exact .pure
  | true => exact .pure

/-- A payload of a type reads as a tree, by a step for documents. -/
def Readable (document : Bool → Reader Tree) (t : Tree) : Prop :=
  ∀ type bytes longs, Spells type t bytes longs →
    (payloadOf type >>= readPayload document).Reads bytes t

/-- An element that ends within its document. -/
theorem readElement_head {type : ElementType} {bytes : Bytes} {longs : List Int64}
    (hkey : (0 : UInt8) ∉ key) (hindex : isArray = true → key = Bytes.decimal index)
    (hspells : Spells type t bytes longs) (hvalue : Readable document t)
    (hroom : offset + (headForm type key ++ bytes).length ≤ finish) :
    readElement document isArray finish index ⟨offset, headForm type key ++ bytes ++ rest⟩ =
      .ok (some (key, t)) ⟨offset + (headForm type key ++ bytes).length, rest⟩ := by
  rw [List.length_append, length_headForm] at hroom ⊢
  -- the key of an item is its index, which is what the reader compares it with
  have hreadKey : ∀ c, readKey isArray ⟨offset, type.octet, key⟩ index c = .ok () c := by
    intro c
    rw [readKey]
    split
    · rename_i harray
      rw [checkIndex, if_pos (hindex harray)]
      rfl
    · rfl
  have hread : (value document ⟨offset, type.octet, key⟩).Reads bytes t := by
    rw [value_eq rfl]
    exact hvalue type bytes longs hspells
  rw [readElement_eq, List.append_assoc, Steps.bind_ok (nextElement_head hkey (by omega))]
  dsimp only
  rw [Steps.bind_ok (hreadKey _), Steps.bind_ok (hread.apply _ rest)]
  show EStateM.Result.ok _ _ = _
  congr 2
  omega

/-- The elements of a document that ends behind them. -/
theorem elements_gather {entries : List (Bytes × Tree)} {content : Bytes} {longs : List Int64}
    (h : SpellsEntries entries content longs)
    (hindex : isArray = true → ∀ p ∈ entries.zipIdx index, p.1.1 = Bytes.decimal p.2)
    (hvalues : ∀ kv ∈ entries, Readable document kv.2)
    (hfinish : offset + content.length + 1 = finish) :
    Steps.Gathers (readElement document isArray finish) index
      ⟨offset, content ++ 0 :: rest⟩ entries ⟨finish, rest⟩ := by
  induction entries generalizing index offset content longs with
  | nil =>
    cases h
    subst hfinish
    refine .nil ?_
    show readElement document isArray (offset + 1) index ⟨offset, 0 :: rest⟩ = _
    rw [readElement, Steps.bind_ok nextElement_end]
    rfl
  | cons kv entries ih =>
    cases h with
    | @cons type key bytes content t longs more _ hkey hspells hentries =>
      rw [List.forall_mem_cons] at hvalues
      rw [List.zipIdx_cons] at hindex
      rw [List.length_append] at hfinish
      rw [List.append_assoc]
      have hhere : isArray = true → key = Bytes.decimal index := fun harray =>
        hindex harray ((key, t), index) (List.mem_cons_self ..)
      have hthere : isArray = true → ∀ p ∈ entries.zipIdx (index + 1), p.1.1 = Bytes.decimal p.2 :=
        fun harray p hp => hindex harray p (List.mem_cons_of_mem _ hp)
      -- both bounds are instances of where the document ends
      exact .cons (readElement_head hkey hhere hspells hvalues.1 (by omega))
        (ih hentries hthere hvalues.2 (by omega))

theorem openDocument_form {content : Bytes} (hlen : content.length + 5 < 0x80000000) :
    openDocument ⟨offset, documentForm content ++ rest⟩ =
      .ok (offset + 4 + content.length + 1) ⟨offset + 4, content ++ 0 :: rest⟩ := by
  have hhalf : 2 * (content.length + 5) < Bytes.capacity 4 := by
    rw [show Bytes.capacity 4 = 0x100000000 from rfl]
    omega
  have hpositive : ¬ ((content.length + 5 : Nat) : Int) < 5 := by omega
  have hlength := (Reads.signedLittle_nat hhalf).apply offset (content ++ 0 :: rest)
  rw [Bytes.length_little] at hlength
  have hneed : Reader.need (((content.length + 5 : Nat) : Int).toNat - 4)
      ⟨offset + 4, content ++ 0 :: rest⟩ = .ok () ⟨offset + 4, content ++ 0 :: rest⟩ := by
    refine Reader.need_eq_ok_iff.mpr ⟨?_, rfl⟩
    rw [List.length_append, List.length_cons]
    omega
  have hbytes : documentForm content ++ rest =
      Bytes.little 4 (content.length + 5) ++ (content ++ 0 :: rest) := by
    rw [documentForm, List.append_assoc, List.append_assoc]
    rfl
  have hfinish : offset + 4 + content.length + 1 = offset + (content.length + 5) := by omega
  rw [hbytes, openDocument, Steps.bind_ok (Reader.offset_apply _), Steps.bind_ok hlength,
    if_neg hpositive, Steps.bind_ok hneed, hfinish]
  rfl

theorem length_le_of_spells {entries : List (Bytes × Tree)} {content : Bytes} {longs : List Int64}
    (h : SpellsEntries entries content longs) : entries.length ≤ content.length := by
  induction entries generalizing content longs with
  | nil => exact Nat.zero_le _
  | cons kv entries ih =>
    cases h with
    | cons _ _ hentries =>
      have hle := ih hentries
      rw [List.length_cons, List.length_append, List.length_append, length_headForm]
      omega

theorem entriesOf_index (items : List Tree) :
    ∀ p ∈ (entriesOf items).zipIdx, p.1.1 = Bytes.decimal p.2 := by
  intro p hp
  rw [List.mem_zipIdx_iff_getElem?, entriesOf, List.getElem?_map, Option.map_eq_some_iff] at hp
  obtain ⟨q, hq, hentry⟩ := hp
  have hindex : q.2 = p.2 := by
    rw [List.getElem?_zipIdx, Option.map_eq_some_iff] at hq
    obtain ⟨t, -, rfl⟩ := hq
    exact Nat.zero_add _
  rw [← hentry, hindex]

/-- A document reads as the tree of its elements. -/
theorem read_document {entries : List (Bytes × Tree)} {content : Bytes} {longs : List Int64}
    (h : SpellsEntries entries content longs) (hlen : content.length + 5 < 0x80000000)
    (hindex : isArray = true → ∀ p ∈ entries.zipIdx, p.1.1 = Bytes.decimal p.2)
    (hvalues : ∀ kv ∈ entries, Readable (read limit levels) kv.2) :
    (read limit (levels + 1) isArray).Reads (documentForm content)
      (documentTree isArray entries) where
  apply offset rest := by
    rw [length_documentForm]
    have hgather : Steps.Gathers (readElement (read limit levels) isArray _) 0
        ⟨offset + 4, content ++ 0 :: rest⟩ entries _ := elements_gather h hindex hvalues rfl
    have hroom : entries.length ≤ (content ++ 0 :: rest).length := by
      have hle := length_le_of_spells h
      rw [List.length_append]
      omega
    have hfinish : offset + (content.length + 5) = offset + 4 + content.length + 1 := by omega
    rw [read, Steps.bind_ok (openDocument_form hlen), Steps.bind_ok (Steps.get_apply _),
      Steps.bind_ok (hgather.gather hroom), hfinish]
    rfl

/-- **What spells a tree reads as the tree, if that has no more levels than may open.** -/
theorem spells_reads (hdepth : t.depth ≤ levels) : Readable (read limit levels) t := by
  induction t using Tree.induct generalizing levels with
  | scalar t hscalar =>
    intro type bytes longs h
    cases h with
    | document _ _ => exact Bool.noConfusion hscalar
    | array _ _ => exact Bool.noConfusion hscalar
    | null => exact .bind_nil .pure .pure
    | bool b => exact .bind_last (.map (boolPayload_reads b)) .pure
    | text hlen => exact .bind_last (.map (textPayload_reads hlen)) .pure
    | double bits =>
      have hbits : bits.toNat.toUInt64 = bits := UInt64.ofNat_toNat
      refine .bind_last (.map (.little bits.toNat_lt)) ?_
      rw [hbits]
      exact .pure
    | @int32 i hi =>
      have hback : Int64.ofInt i.toInt = i := Int64.ofInt_toInt i
      refine .bind_last (.map (.signedLittle (.four hi))) ?_
      rw [hback]
      exact .pure
    | int64 i =>
      have hback : Int64.ofInt i.toInt = i := Int64.ofInt_toInt i
      refine .bind_last (.map (.signedLittle (.eight i))) ?_
      rw [hback]
      exact .pure
  | list items ih =>
    intro type bytes longs h
    obtain ⟨levels, rfl, hdepths⟩ := Tree.exists_of_depth_list_le hdepth
    cases h with
    | array hentries hlen =>
      have hvalues : ∀ kv ∈ entriesOf items, Readable (read limit levels) kv.2 := by
        intro kv hkv
        have hmem := mem_of_mem_entriesOf hkv
        exact ih kv.2 hmem (hdepths kv.2 hmem)
      have hread : (read limit (levels + 1) true).Reads _ (documentTree true (entriesOf items)) :=
        read_document hentries hlen (fun _ => entriesOf_index items) hvalues
      rw [documentTree, if_pos rfl, values_entriesOf] at hread
      exact .bind_nil .pure hread
  | map pairs ih =>
    intro type bytes longs h
    obtain ⟨levels, rfl, hdepths⟩ := Tree.exists_of_depth_map_le hdepth
    cases h with
    | document hentries hlen =>
      exact .bind_nil .pure (read_document hentries hlen Bool.noConfusion fun kv hkv =>
        ih kv hkv (hdepths kv hkv))

/-! ## One way to spell -/

/-- What a payload of a type spells, and where it ends, is seen from the octets. -/
theorem spells_unique {type : ElementType} {t t' : Tree} {bytes bytes' rest rest' : Bytes}
    {longs longs' : List Int64} (h : Spells type t bytes longs) (h' : Spells type t' bytes' longs')
    (hbytes : bytes ++ rest = bytes' ++ rest') : t = t' ∧ bytes = bytes' ∧ rest = rest' := by
  have hdepth : t.depth ≤ max t.depth t'.depth := Nat.le_max_left _ _
  have hdepth' : t'.depth ≤ max t.depth t'.depth := Nat.le_max_right _ _
  -- a reader with levels for both takes the one and the other
  have hread : (payloadOf type >>= readPayload (read 0 (max t.depth t'.depth))).Reads bytes t :=
    spells_reads hdepth type bytes longs h
  obtain ⟨htree, rfl⟩ := hread.unique (spells_reads hdepth' type bytes' longs' h') hbytes
  exact ⟨htree, List.append_cancel_right hbytes, rfl⟩

theorem octet_injective {type type' : ElementType} (h : type.octet = type'.octet) : type = type' := by
  have hsome := ElementType.ofOctet?_octet type
  rw [h, ElementType.ofOctet?_octet] at hsome
  exact (Option.some.inj hsome).symm

theorem entries_longs_unique {entries : List (Bytes × Tree)} {content : Bytes}
    {longs longs' : List Int64}
    (hvalues : ∀ kv ∈ entries, ∀ {type bytes longs longs'}, Spells type kv.2 bytes longs →
      Spells type kv.2 bytes longs' → longs = longs')
    (h : SpellsEntries entries content longs) (h' : SpellsEntries entries content longs') :
    longs = longs' := by
  induction entries generalizing content longs longs' with
  | nil => cases h; cases h'; rfl
  | cons kv entries ih =>
    rw [List.forall_mem_cons] at hvalues
    cases h with
    | @cons type key bytes content t longs more _ _ hspells hentries =>
      generalize hcontent : headForm type key ++ bytes ++ content = all at h'
      cases h' with
      | @cons type' _ bytes' content' _ longs' more' _ _ hspells' hentries' =>
        rw [headForm, headForm, List.append_assoc, List.append_assoc, List.cons_append,
          List.cons_append] at hcontent
        injection hcontent with htype hrest
        cases octet_injective htype
        obtain ⟨-, rfl, rfl⟩ := spells_unique hspells hspells' (List.append_cancel_left hrest)
        rw [hvalues.1 hspells hspells', ih hvalues.2 hentries hentries']

theorem documentForm_inj {content content' : Bytes}
    (h : documentForm content = documentForm content') : content = content' := by
  have hlen := congrArg List.length h
  rw [length_documentForm, length_documentForm] at hlen
  rw [documentForm, documentForm, hlen] at h
  exact List.append_cancel_right (List.append_cancel_left h)

/-- **The octets of a payload determine the integers it spells in 64 bits.** -/
theorem longs_unique {type : ElementType} {bytes : Bytes} {longs longs' : List Int64}
    (h : Spells type t bytes longs) (h' : Spells type t bytes longs') : longs = longs' := by
  induction t using Tree.induct generalizing type bytes longs longs' with
  | scalar t hscalar =>
    cases h with
    | document _ _ => exact Bool.noConfusion hscalar
    | array _ _ => exact Bool.noConfusion hscalar
    | _ => cases h'; rfl
  | list items ih =>
    have hvalues : ∀ kv ∈ entriesOf items, ∀ {type bytes longs longs'}, Spells type kv.2 bytes longs →
        Spells type kv.2 bytes longs' → longs = longs' := by
      intro kv hkv type bytes longs longs' hspells hspells'
      exact ih kv.2 (mem_of_mem_entriesOf hkv) hspells hspells'
    cases h with
    | @array _ content _ hentries hlen =>
      generalize hform : documentForm content = form at h'
      cases h' with
      | array hentries' hlen' =>
        cases documentForm_inj hform
        exact entries_longs_unique hvalues hentries hentries'
  | map pairs ih =>
    cases h with
    | @document _ content _ hentries hlen =>
      generalize hform : documentForm content = form at h'
      cases h' with
      | document hentries' hlen' =>
        cases documentForm_inj hform
        exact entries_longs_unique (fun kv hkv _ _ _ _ hspells hspells' =>
          ih kv hkv hspells hspells') hentries hentries'

end TreeDigest.Bson
