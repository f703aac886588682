import TreeDigest.Output.Encoding
import TreeDigest.Ubjson.Marker

/-!
# Writing UBJSON

An integer takes the narrowest form that holds it; no form is wider than signed
64 bits. Containers are framed in one of two ways: closed by a marker, or with
their count in front. A counted container of at least two values that all have
the same marker, one with a payload, says so once and leaves it out of them.

A value is `typed` if the container around it has declared its marker.
-/

namespace TreeDigest.Ubjson

/-- How a writer frames containers. -/
inductive Framing where
  /-- No count; closed by a marker. -/
  | closed
  /-- A count in front, and no closing marker. -/
  | counted
  deriving DecidableEq

/-! ## Scalars -/

/-- A marker, unless it has been declared. -/
def putMarker (typed : Bool) (m : Marker) : Writer Unit :=
  if typed then pure () else Writer.put [m.octet]

/-- An integer in its narrowest form. -/
def putInt (typed : Bool) (i : Int64) : Writer Unit := do
  let form := IntegerForm.narrowest i
  putMarker typed (.integer form)
  Writer.put (Bytes.big form.width i.toUInt64.toNat)

variable (codec : String)

/-- An unsigned integer, which has to fit the signed range. -/
def putUInt (typed : Bool) (u : UInt64) : Writer Unit :=
  if u.toNat < 0x8000000000000000 then putInt typed u.toInt64 else Writer.refuse codec (.unsigned u)

def putDouble (typed : Bool) (bits : UInt64) : Writer Unit := do
  putMarker typed .double
  Writer.put (Bytes.big 8 bits.toNat)

/-- A length, which has to fit the signed range, and the octets, which have to be UTF-8. -/
def putSized (octets : Bytes) (notUtf8 : Obstacle) (long : Nat → Obstacle) : Writer Unit := do
  if !Utf8.isValid octets then Writer.refuse codec notUtf8
  if 0x8000000000000000 ≤ octets.length then Writer.refuse codec (long octets.length)
  putInt false (Int64.ofNat octets.length)
  Writer.put octets

def putText (typed : Bool) (octets : Bytes) : Writer Unit := do
  putMarker typed .text
  putSized codec octets .stringNotUtf8 .longString

def putKey (octets : Bytes) : Writer Unit := putSized codec octets .keyNotUtf8 .longKey

/-! ## Containers -/

/-- The marker a tree is written with, if it has a form. -/
def markerOf? : Tree → Option Marker
  | .null => some .null
  | .bool b => some (if b then .yes else .no)
  | .int i => some (.integer (IntegerForm.narrowest i))
  | .uint u =>
    if u.toNat < 0x8000000000000000 then some (.integer (IntegerForm.narrowest u.toInt64)) else none
  | .double _ => some .double
  | .text _ => some .text
  | .list _ => some .listStart
  | .map _ => some .mapStart

/-- The marker that the values of a container can leave out. -/
def shared? : List Tree → Option Marker
  | first :: second :: rest =>
    match markerOf? first with
    | some m =>
      if m.isShareable && (second :: rest).all (fun t => decide (markerOf? t = some m)) then some m
      else none
    | none => none
  | _ => none

/-- The head of a container, after its opening marker. -/
def putHeading (framing : Framing) (count : UInt32) (shared : Option Marker) : Writer Unit :=
  match framing with
  | .closed => pure ()
  | .counted => do
    match shared with
    | some m => Writer.put [Marker.sharedType.octet, m.octet]
    | none => pure ()
    putMarker false .count
    putInt false (Int64.ofNat count.toNat)

/-- The end of a container. -/
def putEnd (framing : Framing) (m : Marker) : Writer Unit :=
  match framing with
  | .closed => putMarker false m
  | .counted => pure ()

/-- The marker that the values of a container leave out. -/
def sharedIn (framing : Framing) (values : List Tree) : Option Marker :=
  match framing with
  | .closed => none
  | .counted => shared? values

variable (framing : Framing)

mutual

/-- Writes a tree and folds it. -/
def write (typed : Bool) : Tree → Encoder Unit
  | .null => do
    Encoder.fold .null
    Encoder.write (putMarker typed .null)
  | .bool b => do
    Encoder.fold (.bool b)
    Encoder.write (putMarker typed (if b then .yes else .no))
  | .int i => do
    Encoder.fold (.int i)
    Encoder.write (putInt typed i)
  | .uint u => do
    Encoder.write (putUInt codec typed u)
    Encoder.fold (.uint u)
  | .double bits => do
    Encoder.fold (.double bits)
    Encoder.write (putDouble typed bits)
  | .text octets => do
    Encoder.write (putText codec typed octets)
    Encoder.fold (.text octets)
  | .list items => do
    let count ← Encoder.count items.length
    Encoder.fold (.beginList (some count))
    Encoder.write (putMarker typed .listStart)
    let shared := sharedIn framing items
    Encoder.write (putHeading framing count shared)
    writeItems shared.isSome items
    Encoder.write (putEnd framing .listEnd)
    Encoder.fold .endList
  | .map pairs => do
    let count ← Encoder.count pairs.length
    Encoder.fold (.beginMap (some count))
    Encoder.write (putMarker typed .mapStart)
    let shared := sharedIn framing (pairs.map (·.2))
    Encoder.write (putHeading framing count shared)
    writePairs shared.isSome pairs
    Encoder.write (putEnd framing .mapEnd)
    Encoder.fold .endMap

def writeItems (typed : Bool) : List Tree → Encoder Unit
  | [] => pure ()
  | item :: items => do
    write typed item
    writeItems typed items

def writePairs (typed : Bool) : List (Bytes × Tree) → Encoder Unit
  | [] => pure ()
  | (k, value) :: pairs => do
    Encoder.fold (.key k)
    Encoder.write (putKey codec k)
    write typed value
    writePairs typed pairs

end

end TreeDigest.Ubjson
