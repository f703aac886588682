import TreeDigest.Bytes

/-!
# UBJSON markers

A marker is one octet, a printable character, that says what follows it. Integers
have five forms, each with a marker of its own; a string, a key and a container
begin with a length or a count, and that is an integer with its marker again.
-/

namespace TreeDigest.Ubjson

/-- The forms of an integer. -/
inductive IntegerForm where
  | int8
  | uint8
  | int16
  | int32
  | int64
  deriving DecidableEq, Repr

namespace IntegerForm

/-- How many octets a form takes. -/
def width : IntegerForm → Nat
  | .int8 | .uint8 => 1
  | .int16 => 2
  | .int32 => 4
  | .int64 => 8

/-- The integer that a form gives to its octets, which are the number `n`. -/
def value (form : IntegerForm) (n : Nat) : Int :=
  match form with
  | .uint8 => n
  | _ => Bytes.signed form.width n

/-- The narrowest form of an integer. Of the two of one octet the signed one comes first. -/
def narrowest (i : Int64) : IntegerForm :=
  let n := i.toInt
  if -0x80 ≤ n ∧ n < 0x80 then .int8
  else if 0 ≤ n ∧ n < 0x100 then .uint8
  else if -0x8000 ≤ n ∧ n < 0x8000 then .int16
  else if -0x80000000 ≤ n ∧ n < 0x80000000 then .int32
  else .int64

end IntegerForm

/-- What an octet can announce. -/
inductive Marker where
  | null
  /-- Stands for nothing, wherever a marker can stand. -/
  | noop
  | yes
  | no
  | integer (form : IntegerForm)
  | single
  | double
  /-- A number in decimal, which documents here do not have. -/
  | highPrecision
  | character
  | text
  | listStart
  | listEnd
  | mapStart
  | mapEnd
  /-- In a container, the marker that all its values share follows. -/
  | sharedType
  /-- In a container, the number of its entries follows. -/
  | count
  deriving DecidableEq, Repr

namespace Marker

/-- The character of a marker. -/
def char : Marker → Char
  | .null => 'Z'
  | .noop => 'N'
  | .yes => 'T'
  | .no => 'F'
  | .integer .int8 => 'i'
  | .integer .uint8 => 'U'
  | .integer .int16 => 'I'
  | .integer .int32 => 'l'
  | .integer .int64 => 'L'
  | .single => 'd'
  | .double => 'D'
  | .highPrecision => 'H'
  | .character => 'C'
  | .text => 'S'
  | .listStart => '['
  | .listEnd => ']'
  | .mapStart => '\x7b'
  | .mapEnd => '\x7d'
  | .sharedType => '$'
  | .count => '#'

/-- The octet of a marker. -/
def octet (m : Marker) : UInt8 := m.char.toUInt8

/-- Every marker once. -/
def all : List Marker :=
  [.integer .int8, .integer .uint8, .integer .int16, .integer .int32, .integer .int64, .text,
    .double, .null, .yes, .no, .listStart, .mapStart, .single, .character, .noop, .listEnd,
    .mapEnd, .sharedType, .count, .highPrecision]

/-- The marker an octet is. -/
def ofOctet? (b : UInt8) : Option Marker := all.find? fun m => m.octet == b

@[simp] theorem ofOctet?_octet (m : Marker) : ofOctet? m.octet = some m := by
  cases m with
  | integer form => cases form <;> rfl
  | _ => rfl

theorem octet_of_ofOctet? {b : UInt8} {m : Marker} (h : ofOctet? b = some m) : m.octet = b := by
  simpa using List.find?_some h

/-- Whether the values of a container can share a marker, which takes one with a payload. -/
def isShareable : Marker → Bool
  | .integer _ | .single | .double | .character | .text | .listStart | .mapStart => true
  | _ => false

end Marker

end TreeDigest.Ubjson
