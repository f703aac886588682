import TreeDigest.Proofs.Ubjson.Persists

/-!
# The grammar of UBJSON

There are many ways to spell a tree. Integers, lengths and counts have any form that holds
them, a double may be a widened single, a text of one octet may be a character, a container
may be closed by a marker or say how many entries it has, and there may be no-ops before
every marker. `Spells` says which octets are a tree, and it has no reader in it.

Three things are left to rules: which marker a container can declare for all its values,
which octet can be a character, and what else can be declared where there are no values.

What is spelled by sound rules is read. The reader hands it over as a traversal of its
tree, with the counts that were said.
-/

namespace TreeDigest.Ubjson

open Cursor (Before)
open Decoder (Drives Brings)
open Folder (Stands Ends)
open Reader (Reads)

/-! ## What is left to rules -/

structure Rules where
  /-- The markers that a container can declare, if all its values have it. -/
  declares : Marker → Prop
  /-- The octets that can be a character. -/
  character : UInt8 → Prop
  /-- What can be declared besides by a container that has no values. -/
  idle : UInt8 → Prop

namespace Rules

/-- Whatever marker all values of a container have can be declared. -/
def uniform : Rules := ⟨fun _ => True, (· < 0x80), fun _ => False⟩

/-- Only a marker with a payload can be declared. -/
def documented : Rules := ⟨fun m => m.isShareable = true, (· < 0x80), fun _ => False⟩

/-- Any octet is a character, and a declared octet that no value has may be unknown. -/
def accepted : Rules :=
  ⟨fun m => m.isShareable = true, fun _ => True, fun b => isDeclarable b = true⟩

/-- Nothing can be declared that a reader refuses. -/
structure Sound (rules : Rules) : Prop where
  declares : ∀ {m}, rules.declares m → m.isShareable = true
  idle : ∀ {b}, rules.idle b → isDeclarable b = true

theorem documented_sound : documented.Sound := ⟨id, False.elim⟩

theorem accepted_sound : accepted.Sound := ⟨id, id⟩

end Rules

/-! ## Lengths and heads -/

/-- No-ops. -/
def noops (n : Nat) : Bytes := List.replicate n Marker.noop.octet

/-- A marker with no-ops before it. -/
def led (n : Nat) (m : Marker) : Bytes := noops n ++ [m.octet]

/-- A form holds an integer. -/
def IntegerForm.Holds (form : IntegerForm) (i : Int64) : Prop :=
  match form with
  | .uint8 => 0 ≤ i.toInt ∧ i.toInt < 0x100
  | form => Bytes.FitsSigned form.width i

/-- An integer in a form. -/
def IntegerForm.octets (form : IntegerForm) (i : Int64) : Bytes :=
  Bytes.big form.width i.toUInt64.toNat

/-- Octets are a length, in any form that holds it. -/
inductive SpellsLength (n : Nat) : Bytes → Prop
  | intro {form : IntegerForm} {i : Int64} (idle : Nat) : form.Holds i → i.toInt = n →
      SpellsLength n (led idle (.integer form) ++ form.octets i)

/-- Octets are a text behind its length. -/
inductive SpellsText (octets : Bytes) : Bytes → Prop
  | intro {length : Bytes} : Utf8.isValid octets = true → SpellsLength octets.length length →
      SpellsText octets (length ++ octets)

/-- What is before the value of an entry: its key, or nothing in a list. -/
inductive SpellsKey : Shape → Bytes → Bytes → Prop
  | item (key : Bytes) : SpellsKey .list key []
  | key {key bytes : Bytes} : SpellsText key bytes → SpellsKey .map key bytes

/-- Octets say how many entries there are. -/
inductive SpellsCount (n : Nat) : Bytes → Prop
  | intro {length : Bytes} (idle : Nat) : SpellsLength n length →
      SpellsCount n (led idle .count ++ length)

/-- Octets declare the octet all values are marked with, or none, and say how many there are. -/
inductive SpellsHeading (n : Nat) : Option UInt8 → Bytes → Prop
  | counted {count : Bytes} : SpellsCount n count → SpellsHeading n none count
  | typed {b : UInt8} {count : Bytes} (idle : Nat) : SpellsCount n count →
      SpellsHeading n (some b) (led idle .sharedType ++ b :: count)

/-! ## Trees -/

mutual

/-- Octets behind a marker are a tree. -/
inductive SpellsPayload (rules : Rules) : Marker → Tree → Bytes → Prop
  | null : SpellsPayload rules .null .null []
  | yes : SpellsPayload rules .yes (.bool true) []
  | no : SpellsPayload rules .no (.bool false) []
  | int {form : IntegerForm} {i : Int64} : form.Holds i →
      SpellsPayload rules (.integer form) (.int i) (form.octets i)
  | uint {form : IntegerForm} {u : UInt64} {i : Int64} : form.Holds i → i.toInt = u.toNat →
      SpellsPayload rules (.integer form) (.uint u) (form.octets i)
  | single (bits : UInt32) :
      SpellsPayload rules .single (.double (Binary.widen bits)) (Bytes.big 4 bits.toNat)
  | double (bits : UInt64) : SpellsPayload rules .double (.double bits) (Bytes.big 8 bits.toNat)
  | character {b : UInt8} : rules.character b → SpellsPayload rules .character (.text [b]) [b]
  | text {octets bytes : Bytes} : SpellsText octets bytes →
      SpellsPayload rules .text (.text octets) bytes
  | list {entries : List (Bytes × Tree)} {bytes : Bytes} : SpellsContent rules .list entries bytes →
      SpellsPayload rules .listStart (.list (entries.map (·.2))) bytes
  | map {entries : List (Bytes × Tree)} {bytes : Bytes} : SpellsContent rules .map entries bytes →
      SpellsPayload rules .mapStart (.map entries) bytes

/-- Octets are a tree, whose marker has been declared or comes with it. -/
inductive Spells (rules : Rules) : Option Marker → Tree → Bytes → Prop
  | marked {m : Marker} {t : Tree} {payload : Bytes} (idle : Nat) :
      SpellsPayload rules m t payload → Spells rules none t (led idle m ++ payload)
  | bare {m : Marker} {t : Tree} {payload : Bytes} : SpellsPayload rules m t payload →
      Spells rules (some m) t payload

/-- Octets are entries, one after the other. -/
inductive SpellsEntries (rules : Rules) :
    Option Marker → Shape → List (Bytes × Tree) → Bytes → Prop
  | nil {shared : Option Marker} {shape : Shape} : SpellsEntries rules shared shape [] []
  | cons {shared : Option Marker} {shape : Shape} {key head bytes content : Bytes} {t : Tree}
      {entries : List (Bytes × Tree)} : SpellsKey shape key head → Spells rules shared t bytes →
      SpellsEntries rules shared shape entries content →
      SpellsEntries rules shared shape ((key, t) :: entries) (head ++ bytes ++ content)

/-- Octets behind the opening marker of a container are its entries. -/
inductive SpellsContent (rules : Rules) : Shape → List (Bytes × Tree) → Bytes → Prop
  | closed {shape : Shape} {entries : List (Bytes × Tree)} {bytes : Bytes} (idle : Nat) :
      SpellsEntries rules none shape entries bytes →
      SpellsContent rules shape entries (bytes ++ led idle (endMarker shape))
  | counted {shared : Option Marker} {shape : Shape} {entries : List (Bytes × Tree)}
      {heading bytes : Bytes} : (∀ m ∈ shared, rules.declares m) →
      SpellsHeading entries.length (shared.map Marker.octet) heading →
      SpellsEntries rules shared shape entries bytes →
      SpellsContent rules shape entries (heading ++ bytes)
  | unknown {shape : Shape} {b : UInt8} {heading : Bytes} : rules.idle b →
      SpellsHeading 0 (some b) heading → SpellsContent rules shape [] heading

end

variable {rules : Rules} {m : Marker} {shape : Shape} {shared : Option Marker} {t : Tree}
  {n offset : Nat} {key octets bytes head content rest : Bytes} {entries : List (Bytes × Tree)}

/-! ## Reading markers and lengths -/

theorem length_led (n : Nat) (m : Marker) : (led n m).length = n + 1 := by
  rw [led, noops, List.length_append, List.length_replicate]
  rfl

/-- No-ops are passed over as far as a marker. -/
theorem afterNoops_noops (h : Begins m bytes) (n offset : Nat) :
    afterNoops offset (noops n ++ bytes) = ⟨offset + n, bytes⟩ := by
  induction n generalizing offset with
  | zero =>
    have hskip : skipNoops ⟨offset, bytes⟩ = .ok () ⟨offset, bytes⟩ := skipNoops_eq h offset
    injection hskip
  | succ n ih =>
    rw [noops, List.replicate_succ, List.cons_append, afterNoops, if_pos rfl]
    have hrest := ih (offset + 1)
    rw [Nat.add_assoc, Nat.add_comm 1] at hrest
    exact hrest

theorem begins_octet (h : m ≠ .noop) (rest : Bytes) : Begins m (m.octet :: rest) := ⟨h, rest, rfl⟩

theorem led_append (n : Nat) (m : Marker) (rest : Bytes) :
    led n m ++ rest = noops n ++ m.octet :: rest := by
  rw [led, List.append_assoc]
  rfl

theorem marker_led (h : m ≠ .noop) (n : Nat) : marker.Reads (led n m) m.octet where
  apply offset rest := by
    have hskip : skipNoops ⟨offset, noops n ++ m.octet :: rest⟩ =
        .ok () ⟨offset + n, m.octet :: rest⟩ :=
      congrArg (EStateM.Result.ok ()) (afterNoops_noops (begins_octet h rest) n offset)
    rw [led_append, marker, Steps.bind_ok hskip, length_led]
    rfl

theorem peekMarker_noops (h : Begins m bytes) (n offset : Nat) :
    peekMarker ⟨offset, noops n ++ bytes⟩ = .ok m.octet ⟨offset + n, bytes⟩ := by
  have hskip : skipNoops ⟨offset, noops n ++ bytes⟩ = .ok () ⟨offset + n, bytes⟩ :=
    congrArg (EStateM.Result.ok ()) (afterNoops_noops h n offset)
  rw [peekMarker, Steps.bind_ok hskip]
  obtain ⟨-, rest, rfl⟩ := h
  rfl

theorem integerOf_octets {form : IntegerForm} {i : Int64} (h : form.Holds i) :
    (integerOf form).Reads (form.octets i) i.toInt := by
  cases form with
  | uint8 => exact integerOf_uint8 h
  | int8 => exact integerOf_signed (by decide) h
  | int16 => exact integerOf_signed (by decide) h
  | int32 => exact integerOf_signed (by decide) h
  | int64 => exact integerOf_signed (by decide) h

theorem SpellsLength.reads (h : SpellsLength n bytes) : length.Reads bytes n := by
  obtain @⟨form, i, idle, hholds, hvalue⟩ := h
  refine .offset_bind fun _ => .bind (marker_led Marker.noConfusion idle) ?_
  rw [integer, Marker.ofOctet?_octet]
  refine .bind_last (integerOf_octets hholds) ?_
  rw [hvalue, if_neg (Int.not_lt.mpr (Int.natCast_nonneg n))]
  exact .pure

theorem SpellsText.reads (h : SpellsText octets bytes) : text.Reads bytes octets := by
  obtain ⟨hvalid, hlength⟩ := h
  have hfault : Utf8.fault? octets = none := Option.isNone_iff_eq_none.mp hvalid
  refine .offset_bind fun _ => .bind hlength.reads (.bind_last (.take octets) ?_)
  rw [hfault]
  exact .pure

/-! ## Reading heads -/

/-- A count with the no-ops before it left off is the same count. -/
theorem SpellsCount.begins (h : SpellsCount n bytes) :
    ∃ k bytes', bytes = noops k ++ bytes' ∧ Begins .count bytes' ∧ SpellsCount n bytes' := by
  obtain @⟨length, idle, hlength⟩ := h
  exact ⟨idle, _, led_append idle .count length, begins_octet Marker.noConfusion _,
    .intro 0 hlength⟩

theorem SpellsCount.reads (h : SpellsCount n bytes) (hn : n < 0x100000000) :
    entryCount.Reads bytes (some n.toUInt32) where
  apply offset rest := by
    obtain @⟨length, idle, hlength⟩ := h
    have hpeek := peekMarker_noops
      (begins_octet (m := .count) Marker.noConfusion (length ++ rest)) idle offset
    have hskip : Reader.skip ⟨offset + idle, Marker.count.octet :: (length ++ rest)⟩ =
        .ok () ⟨offset + idle + 1, length ++ rest⟩ := rfl
    have hend : offset + (led idle .count ++ length).length =
        offset + idle + 1 + length.length := by
      rw [List.length_append, length_led]
      omega
    rw [entryCount, List.append_assoc, led_append, Steps.bind_ok hpeek, if_pos rfl,
      Steps.bind_ok hskip, Steps.bind_ok (Reader.offset_apply _),
      Steps.bind_ok (hlength.reads.apply _ _), if_pos hn, hend]
    rfl

theorem SpellsHeading.reads {declared : Option UInt8} (h : SpellsHeading n declared bytes)
    (hn : n < 0x100000000) (hdeclared : ∀ b ∈ declared, isDeclarable b = true) :
    heading.Reads bytes ⟨declared, some n.toUInt32⟩ where
  apply offset rest := by
    cases h with
    | counted hcount =>
      obtain ⟨k, count, rfl, hbegins, hcount⟩ := hcount.begins
      have hpeek := peekMarker_noops (hbegins.append rest) k offset
      have hshared : sharedMarker ⟨offset, noops k ++ (count ++ rest)⟩ =
          .ok none ⟨offset + k, count ++ rest⟩ := by
        rw [sharedMarker, Steps.bind_ok hpeek]
        rfl
      have hend : offset + (noops k ++ count).length = offset + k + count.length := by
        rw [List.length_append, noops, List.length_replicate, Nat.add_assoc]
      rw [heading, List.append_assoc, Steps.bind_ok hshared,
        Steps.bind_ok ((hcount.reads hn).apply _ rest), hend]
      rfl
    | @typed b count idle hcount =>
      obtain ⟨k, count, rfl, hbegins, hcount⟩ := hcount.begins
      have htype := peekMarker_noops
        (begins_octet (m := .sharedType) Marker.noConfusion (b :: (noops k ++ (count ++ rest))))
        idle offset
      have hskip : Reader.skip
          ⟨offset + idle, Marker.sharedType.octet :: b :: (noops k ++ (count ++ rest))⟩ =
          .ok () ⟨offset + idle + 1, b :: (noops k ++ (count ++ rest))⟩ := rfl
      have hpeek := peekMarker_noops (hbegins.append rest) k (offset + idle + 1 + 1)
      have hshared : sharedMarker
          ⟨offset, led idle .sharedType ++ b :: (noops k ++ (count ++ rest))⟩ =
          .ok (some b) ⟨offset + idle + 1 + 1 + k, count ++ rest⟩ := by
        rw [sharedMarker, led_append, Steps.bind_ok htype, if_pos rfl, Steps.bind_ok hskip,
          Steps.bind_ok (Reader.offset_apply _), Steps.bind_ok (Reader.octet_cons ..),
          hdeclared b rfl, if_pos rfl, Steps.bind_ok hpeek, if_pos rfl]
        rfl
      have hend : offset + (led idle .sharedType ++ b :: (noops k ++ count)).length =
          offset + idle + 1 + 1 + k + count.length := by
        rw [List.length_append, length_led, List.length_cons, List.length_append, noops,
          List.length_replicate]
        omega
      rw [heading, List.append_assoc, List.cons_append, List.append_assoc, Steps.bind_ok hshared,
        Steps.bind_ok ((hcount.reads hn).apply _ rest), hend]
      rfl

end TreeDigest.Ubjson
