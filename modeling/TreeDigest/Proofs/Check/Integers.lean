import TreeDigest.Proofs.Bson.Grammar
import TreeDigest.Proofs.Check.Signedness
import TreeDigest.Proofs.Input.Continues
import TreeDigest.Proofs.MessagePack.Spelled
import TreeDigest.Proofs.Ubjson.Accepts

/-!
# Integers take the narrowest form

Three formats have integers in several widths, and their writers choose by the value. A form
is `Narrowest` among what a reader takes for integers if it is read as its own value and as no
other, and if nothing shorter is read as that value.

Whether an integer is signed or unsigned makes no difference to what is written: both are
compared with whatever a reader accepts by the integer that is signed if it can be. What a
reader accepts is known from the grammars, where a width stands beside what it holds.
-/

namespace TreeDigest

/-- Among octets that are read as integers, some are read as one integer and are the fewest. -/
structure Narrowest (reads : Bytes → Int → Prop) (form : Bytes) (n : Int) : Prop where
  /-- They are read as this integer and no other. -/
  exact : ∀ {m}, reads form m ↔ m = n
  /-- Whatever is read as the integer is no shorter. -/
  least : ∀ {bytes}, reads bytes n → form.length ≤ bytes.length

/-- What is read as one integer at most is narrowest if it is read and nothing shorter is. -/
theorem Narrowest.of_unique {reads : Bytes → Int → Prop} {form : Bytes} {n : Int}
    (hunique : ∀ {bytes m m'}, reads bytes m → reads bytes m' → m = m') (hreads : reads form n)
    (hleast : ∀ {bytes}, reads bytes n → form.length ≤ bytes.length) : Narrowest reads form n where
  exact := ⟨fun hm => hunique hm hreads, fun hm => hm ▸ hreads⟩
  least := hleast

/-- An integer has a signed form. -/
def Integer.IsSignable (n : Integer) : Prop := n.value < 0x8000000000000000

theorem Integer.exists_signed {n : Integer} (h : n.IsSignable) :
    ∃ i : Int64, n.toSigned = .signed i ∧ i.toInt = n.value := by
  cases n with
  | signed i => exact ⟨i, rfl, rfl⟩
  | unsigned u =>
    have hlt : u.toNat < 0x8000000000000000 := Int.ofNat_lt.mp h
    exact ⟨u.toInt64, toSigned_unsigned hlt, toInt_toInt64 hlt⟩

theorem Integer.of_toSigned {n : Integer} {i : Int64} (h : n.toSigned = .signed i) :
    n = .signed i ∨
      ∃ u : UInt64, n = .unsigned u ∧ u.toNat < 0x8000000000000000 ∧ u.toInt64 = i := by
  cases n with
  | signed j => exact .inl h
  | unsigned u =>
    rw [toSigned] at h
    split at h <;> cases h
    exact .inr ⟨u, rfl, ‹_›, rfl⟩

/-! ## MessagePack -/

namespace MessagePack

/-- Octets are one tag, that of an integer of either kind. -/
def ReadsInteger (bytes : Bytes) (n : Int) : Prop :=
  ∃ m : Integer, m.value = n ∧ tag.whole bytes = .ok (integerTag m)

theorem integerTag_inj {m n : Integer} (h : integerTag m = integerTag n) : m = n := by
  cases m <;> cases n <;> cases h <;> rfl

theorem ReadsInteger.unique {bytes : Bytes} {m m' : Int} (h : ReadsInteger bytes m)
    (h' : ReadsInteger bytes m') : m = m' := by
  obtain ⟨k, rfl, hread⟩ := h
  obtain ⟨k', rfl, hread'⟩ := h'
  rw [hread] at hread'
  rw [integerTag_inj (Except.ok.inj hread')]

/-- Integers of one value have one compact form. -/
theorem form_congr_value {m n : Integer} (h : m.value = n.value) :
    form .compact m.tree = form .compact n.tree := by
  have hsigned : ∀ n : Integer, form .compact n.toSigned.tree = form .compact n.tree := by
    intro n
    cases n with
    | signed i => rfl
    | unsigned u =>
      rw [Integer.toSigned]
      split
      · rename_i hlt
        exact intForm_toInt64 hlt
      · rfl
  rw [← hsigned m, ← hsigned n, Integer.toSigned_inj h]

/-- A tag reader takes the compact form of an integer for one of its value. -/
theorem tag_compact (n : Integer) :
    tag.Reads (form .compact n.tree) (integerTag (Widths.compact.written n)) := by
  cases n with
  | signed i => exact @tag_int .compact i
  | unsigned u => exact @tag_uint .compact u

/-- **The compact form of an integer is the narrowest.** -/
theorem compact_narrowest (n : Integer) :
    Narrowest ReadsInteger (form .compact n.tree) n.value := by
  refine .of_unique ReadsInteger.unique
    ⟨_, Widths.compact.value_written n, (tag_compact n).whole⟩ ?_
  rintro bytes ⟨m, hvalue, hread⟩
  obtain ⟨c, htag, hend⟩ := Reader.whole_ok hread
  obtain ⟨marker, body, hhead, htaken⟩ := tag_ok htag
  -- a number of single precision has a head of its own, and it is no integer
  have hmarker : marker ≠ 0xCA := by
    rintro rfl
    cases m <;> cases hhead <;> contradiction
  have hform : tagForm .compact (integerTag m) = form .compact n.tree := by
    rw [← form_congr_value hvalue]
    cases m <;> rfl
  rw [← hform, ← htaken.whole hend]
  exact hhead.compact_le hmarker

/-- A document is an integer if the one tag in it is. -/
theorem readValue_integer {bytes : Bytes} {m : Integer} {maxDepth : Nat} :
    readValue bytes maxDepth = .ok m.tree ↔ tag.whole bytes = .ok (integerTag m) := by
  rw [readValue]
  generalize min maxDepth FoldOptions.depthCeiling = limit
  constructor
  · intro hread
    obtain ⟨-, said, markers, hheads, hkept⟩ := readTree_takes hread
    have htags : tags m.tree = [integerTag m] := by cases m <;> rfl
    rw [htags, List.map_eq_singleton_iff] at hkept
    obtain ⟨t, rfl, hkept⟩ := hkept
    -- what a tree keeps of other tags is no integer either
    obtain rfl : t = integerTag m := by
      cases t <;> cases m <;> first | exact hkept | cases hkept
    obtain @⟨⟩ | ⟨hhead, ⟨⟩⟩ := hheads
    rw [List.append_nil]
    exact (head_reads hhead).whole
  · intro hread
    obtain ⟨c, htag, hend⟩ := Reader.whole_ok hread
    have hread : read limit limit (Cursor.start bytes) = .ok m.tree c := by
      rw [read.eq_def, Steps.bind_ok htag]
      cases m <;> rfl
    exact (Reader.whole_of_ok hread).trans (if_pos hend)

end MessagePack

/-! ## BSON -/

namespace Bson

/-- Octets are the payload of an element of a type, and it is an integer. -/
def ReadsInteger (type : ElementType) (bytes : Bytes) (n : Int) : Prop :=
  ∃ i : Int64, i.toInt = n ∧
    ∀ offset key, (payload ⟨offset, type.octet, key⟩).whole bytes = .ok (.int i)

/-- Octets are an integer as the payload of some type. -/
def ReadsInAnyType (bytes : Bytes) (n : Int) : Prop := ∃ type, ReadsInteger type bytes n

/-- Writes an integer of either kind. -/
def putInteger (codec : String) (key : Bytes) : Integer → Writer Unit
  | .signed i => putInt codec key i
  | .unsigned u => putUInt codec key u

variable {codec : String} {key bytes : Bytes} {n : Integer} {i : Int64} {type : ElementType}

theorem putInteger_eq (h : n.toSigned = .signed i) :
    putInteger codec key n = putInt codec key i := by
  rcases Integer.of_toSigned h with rfl | ⟨u, rfl, hlt, rfl⟩
  · rfl
  · exact if_pos hlt

/-- What is read as an integer is spelled as one of its type. -/
theorem ReadsInteger.spells {m : Int} (h : ReadsInteger type bytes m) :
    ∃ i longs, i.toInt = m ∧ Spells type (.int i) bytes longs := by
  obtain ⟨i, hvalue, hread⟩ := h
  obtain ⟨c, hpayload, hend⟩ := Reader.whole_ok (hread 0 [])
  -- nothing of an embedded document is read, so any step will do for one
  let document : Bool → Reader Tree := fun _ => throw (.depthExceeded 0)
  have htree : value document ⟨0, type.octet, []⟩ (Cursor.start bytes) = .ok (.int i) c := by
    rw [value, Steps.bind_ok hpayload]
    rfl
  have hdocument : ∀ {b c t c'}, document b c = .ok t c' →
      TakesPayload (documentType b) c t c' := by
    intro b c t c' h
    cases h
  obtain ⟨type', htype, form, longs, hspells, htaken⟩ := value_takes hdocument htree
  obtain rfl := octet_injective htype
  exact ⟨i, longs, hvalue, htaken.whole hend ▸ hspells⟩

/-- A type with 32 bits holds what fits them, and one with 64 holds any integer. -/
theorem length_of_spells_int {longs : List Int64} (h : Spells type (.int i) bytes longs) :
    type = .int32 ∧ FitsShort i ∧ bytes.length = 4 ∨ type = .int64 ∧ bytes.length = 8 := by
  cases h with
  | int32 hshort => exact .inl ⟨rfl, hshort, Bytes.length_little ..⟩
  | int64 => exact .inr ⟨rfl, Bytes.length_little ..⟩

theorem intForm_reads (i : Int64) : ReadsInteger (intType i) (intForm i) i.toInt := by
  refine ⟨i, rfl, fun offset key => Reader.Reads.whole ?_⟩
  unfold payload
  rw [ElementType.ofOctet?_octet, intType, intForm]
  by_cases hi : FitsShort i
  · rw [if_pos hi, if_pos hi]
    have hread := (Reader.Reads.signedLittle (.four hi)).map (g := fun n => Payload.int (.ofInt n))
    rwa [Int64.ofInt_toInt] at hread
  · rw [if_neg hi, if_neg hi]
    have hread := (Reader.Reads.signedLittle (.eight i)).map (g := fun n => Payload.int (.ofInt n))
    rwa [Int64.ofInt_toInt] at hread

theorem ReadsInAnyType.unique {m m' : Int} (h : ReadsInAnyType bytes m)
    (h' : ReadsInAnyType bytes m') : m = m' := by
  obtain ⟨type, hread⟩ := h
  obtain ⟨type', hread'⟩ := h'
  obtain ⟨i, longs, rfl, hspells⟩ := hread.spells
  obtain ⟨i', longs', rfl, hspells'⟩ := hread'.spells
  -- octets are as many as their type has
  have htype : type = type' := by
    rcases length_of_spells_int hspells with ⟨rfl, -, hlen⟩ | ⟨rfl, hlen⟩ <;>
      rcases length_of_spells_int hspells' with ⟨rfl, -, hlen'⟩ | ⟨rfl, hlen'⟩ <;>
      first | rfl | omega
  subst htype
  obtain ⟨htree, -, -⟩ := spells_unique hspells hspells' (rfl : bytes ++ [] = bytes ++ [])
  injection htree with hint
  rw [hint]

/-- **The payload of an integer is the narrowest, whatever type it could have.** -/
theorem intForm_narrowest (i : Int64) : Narrowest ReadsInAnyType (intForm i) i.toInt := by
  refine .of_unique ReadsInAnyType.unique ⟨_, intForm_reads i⟩ ?_
  rintro bytes ⟨type, hread⟩
  obtain ⟨j, longs, hvalue, hspells⟩ := hread.spells
  obtain rfl := Int64.toInt_inj.mp hvalue
  rw [intForm, Bytes.length_little]
  rcases length_of_spells_int hspells with ⟨-, hshort, hlen⟩ | ⟨-, hlen⟩
  · rw [if_pos hshort, hlen]
  · rw [hlen]
    split <;> decide

end Bson

/-! ## UBJSON -/

namespace Ubjson

/-- An integer with its marker. -/
def number : Reader Int := do integer (← marker)

/-- Octets are an integer with its marker. -/
def ReadsInteger (bytes : Bytes) (n : Int) : Prop := number.whole bytes = .ok n

/-- Writes an integer of either kind. -/
def putInteger (codec : String) (typed : Bool) : Integer → Writer Unit
  | .signed i => putInt typed i
  | .unsigned u => putUInt codec typed u

variable {codec : String} {typed : Bool} {n : Integer} {i : Int64}

theorem putInteger_eq (h : n.toSigned = .signed i) :
    putInteger codec typed n = putInt typed i := by
  rcases Integer.of_toSigned h with rfl | ⟨u, rfl, hlt, rfl⟩
  · rfl
  · exact if_pos hlt

/-- No form that holds an integer is narrower than the one that is chosen for it. -/
theorem IntegerForm.Holds.width_le {form : IntegerForm} (h : form.Holds i) :
    (IntegerForm.narrowest i).width ≤ form.width := by
  obtain ⟨h1, h2, h4⟩ : Bytes.capacity 1 = 0x100 ∧ Bytes.capacity 2 = 0x10000 ∧
    Bytes.capacity 4 = 0x100000000 := ⟨rfl, rfl, rfl⟩
  unfold IntegerForm.narrowest
  dsimp only
  cases form with
  | uint8 =>
    obtain ⟨hleast, hgreatest⟩ : 0 ≤ i.toInt ∧ i.toInt < 0x100 := h
    split_ifs <;> first | decide | omega
  | int8 =>
    obtain ⟨-, hleast, hgreatest⟩ : Bytes.FitsSigned 1 i := h
    split_ifs <;> first | decide | omega
  | int16 =>
    obtain ⟨-, hleast, hgreatest⟩ : Bytes.FitsSigned 2 i := h
    split_ifs <;> first | decide | omega
  | int32 =>
    obtain ⟨-, hleast, hgreatest⟩ : Bytes.FitsSigned 4 i := h
    split_ifs <;> first | decide | omega
  | int64 => split_ifs <;> decide

/-- **An integer with its marker is the narrowest.** -/
theorem narrowest_number (i : Int64) : Narrowest ReadsInteger
    ((Marker.integer (IntegerForm.narrowest i)).octet :: intForm i) i.toInt := by
  refine .of_unique (fun h h' => Except.ok.inj (h.symm.trans h')) ?_ ?_
  · have hread : number.Reads
        ([(Marker.integer (IntegerForm.narrowest i)).octet] ++ intForm i) i.toInt := by
      refine .bind (marker_reads Marker.noConfusion) ?_
      rw [integer, Marker.ofOctet?_octet]
      exact integerOf_reads i
    exact hread.whole
  · intro bytes hread
    obtain ⟨c, hnumber, hend⟩ := Reader.whole_ok hread
    obtain ⟨b, c₁, hmarker, hinteger⟩ := Steps.bind_eq_ok_iff.mp hnumber
    obtain ⟨k, hled⟩ := marker_ok hmarker
    obtain ⟨form, -, hpayload⟩ := integer_ok hinteger
    obtain ⟨j, hholds, hvalue, hoctets⟩ := integerOf_ok hpayload
    obtain rfl := Int64.toInt_inj.mp hvalue
    have hle := hholds.width_le
    rw [← (hled.trans hoctets).whole hend, List.length_append, List.length_append, List.length_cons,
      intForm, IntegerForm.octets, Bytes.length_big, Bytes.length_big, List.length_singleton]
    omega

/-- Where there is an integer, an element is that integer to the folder. -/
theorem fold_number {levels : Nat} {c c' : Cursor} {f : Folder} {k : Int}
    (h : number c = .ok k c') :
    fold levels ⟨c, f⟩ = Decoder.fold (.int (Int64.ofInt k)) ⟨c', f⟩ := by
  obtain ⟨b, c₁, hmarker, hinteger⟩ := Steps.bind_eq_ok_iff.mp h
  obtain ⟨form, hform, hpayload⟩ := integer_ok hinteger
  have hfirst : Decoder.read marker ⟨c, f⟩ = .ok b ⟨c₁, f⟩ := by
    rw [Decoder.read, Decoder.reading, hmarker]
  have hsecond : Decoder.read (integerOf form) ⟨c₁, f⟩ = .ok k ⟨c', f⟩ := by
    rw [Decoder.read, Decoder.reading, hpayload]
  have hoffset : Decoder.read Reader.offset ⟨c, f⟩ = .ok c.offset ⟨c, f⟩ := rfl
  rw [fold, marked, Steps.bind_ok hoffset, Steps.bind_ok hfirst, foldMarked.eq_def, hform]
  exact Steps.bind_ok hsecond

end Ubjson

/-! ## All three -/

/-- What writers make of an integer, and what readers could make it of. -/
structure WrittenNarrowest (n : Integer) : Prop where
  /-- Compact MessagePack has a form for any integer, and it is the narrowest. -/
  messagePack : ∀ codec ∈ [MessagePack.compact, MessagePack.node], ∀ o, ∃ e,
    codec.encode n.tree o = .ok e ∧ Narrowest MessagePack.ReadsInteger e.bytes n.value
  /-- To be read as its tag is to be read as a document, by the reader that builds trees. -/
  document : ∀ bytes maxDepth, MessagePack.ReadsInteger bytes n.value ↔
    ∃ m : Integer, m.value = n.value ∧ MessagePack.readValue bytes maxDepth = .ok m.tree
  /-- BSON writes the type that says how the payload is read, and no type allows for less. -/
  bson : n.IsSignable → ∀ codec key, (0 : UInt8) ∉ key → ∃ type form,
    (Bson.putInteger codec key n).Writes (Bson.headForm type key ++ form) () ∧
      Bson.ReadsInteger type form n.value ∧ Narrowest Bson.ReadsInAnyType form n.value
  /-- In UBJSON it is the marker and the payload, also where the marker is left out. -/
  ubjson : n.IsSignable → ∀ codec typed, ∃ m form,
    (Ubjson.putInteger codec typed n).Writes (Ubjson.markerForm typed m ++ form) () ∧
      Narrowest Ubjson.ReadsInteger (m.octet :: form) n.value
  /-- Octets that are read so are an element with that integer, whatever folder there is. -/
  element : ∀ bytes, Ubjson.ReadsInteger bytes n.value → ∃ c : Cursor, c.rest = [] ∧
    ∀ levels f, Ubjson.fold levels ⟨.start bytes, f⟩ =
      Decoder.fold (.int (Int64.ofInt n.value)) ⟨c, f⟩
  /-- What is beyond the signed range has no form in these two. -/
  refused : ¬ n.IsSignable → ∀ codec key typed out,
    (∃ e out', Bson.putInteger codec key n out = .error e out') ∧
      ∃ e out', Ubjson.putInteger codec typed n out = .error e out'

/--
**Integers are written in the narrowest form, and read from it as they are.** This is so of
every integer of 64 bits, signed or not, that a format has a form for.
-/
theorem integers_are_written_narrowest (n : Integer) : WrittenNarrowest n where
  messagePack codec hcodec o := by
    have hscalar : n.tree.isContainer = false := by cases n <;> rfl
    have hencode : ∀ name, MessagePack.encode name .compact n.tree o =
        .ok ⟨MessagePack.form .compact n.tree, n.tree.digest o⟩ := fun name =>
      MessagePack.encode_form (by cases n <;> trivial) (Tree.depth_scalar hscalar ▸ Nat.zero_le _)
    rw [List.mem_pair] at hcodec
    rcases hcodec with rfl | rfl <;> exact ⟨_, hencode _, MessagePack.compact_narrowest n⟩
  document bytes maxDepth := by
    refine exists_congr fun m => and_congr_right fun _ => ?_
    exact MessagePack.readValue_integer.symm
  bson h codec key hkey := by
    obtain ⟨i, hsigned, hvalue⟩ := Integer.exists_signed h
    rw [Bson.putInteger_eq hsigned, ← hvalue]
    exact ⟨_, _, Bson.putInt_writes hkey, Bson.intForm_reads i, Bson.intForm_narrowest i⟩
  ubjson h codec typed := by
    obtain ⟨i, hsigned, hvalue⟩ := Integer.exists_signed h
    rw [Ubjson.putInteger_eq hsigned, ← hvalue]
    exact ⟨_, _, Ubjson.putInt_writes, Ubjson.narrowest_number i⟩
  element bytes hread := by
    obtain ⟨c, hnumber, hend⟩ := Reader.whole_ok hread
    exact ⟨c, hend, fun _ _ => Ubjson.fold_number hnumber⟩
  refused h codec key typed out := by
    cases n with
    | signed i => exact absurd i.toInt_lt h
    | unsigned u =>
      have hlarge : ¬ u.toNat < 0x8000000000000000 := fun hlt => h (Int.ofNat_lt.mpr hlt)
      rw [Bson.putInteger, Bson.putUInt, if_neg hlarge, Ubjson.putInteger, Ubjson.putUInt,
        if_neg hlarge]
      exact ⟨⟨_, _, rfl⟩, _, _, rfl⟩

end TreeDigest
