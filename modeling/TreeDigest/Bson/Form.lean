import TreeDigest.Output.Encoding
import TreeDigest.Bson.Element

/-!
# Writing BSON

Integers take 32 bits if they fit and 64 otherwise, so an unsigned integer beyond
the signed range has no form. The length of a document stands before it, so a
document is written for itself first and then put behind its length.

A root has to be a list or a map. A list is written as an array document; a map
whose first key is that of a first array element is refused, since readers would
take it for a list.
-/

namespace TreeDigest.Bson

/-! ## Elements -/

variable (codec : String)

/-- The head of an element: its type and its key, in which a zero octet cannot occur. -/
def putHead (type : ElementType) (key : Bytes) : Writer Unit := do
  if key.contains 0 then Writer.refuse codec (.nulInKey key)
  Writer.put (type.octet :: (key ++ [0]))

def putNull (key : Bytes) : Writer Unit := putHead codec .null key

def putBool (key : Bytes) (b : Bool) : Writer Unit := do
  putHead codec .bool key
  Writer.put [if b then 1 else 0]

/-- A signed integer, in 32 bits if it fits. -/
def putInt (key : Bytes) (i : Int64) : Writer Unit := do
  let bits := i.toUInt64.toNat
  if -0x80000000 ≤ i.toInt ∧ i.toInt < 0x80000000 then
    putHead codec .int32 key
    Writer.put (Bytes.little 4 bits)
  else
    putHead codec .int64 key
    Writer.put (Bytes.little 8 bits)

/-- An unsigned integer, which has to fit the signed range. -/
def putUInt (key : Bytes) (u : UInt64) : Writer Unit :=
  if u.toNat < 0x8000000000000000 then putInt codec key u.toInt64
  else Writer.refuse codec (.unsigned u)

def putDouble (key : Bytes) (bits : UInt64) : Writer Unit := do
  putHead codec .double key
  Writer.put (Bytes.little 8 bits.toNat)

/-- A string, with the zero octet that its length counts. -/
def putText (key octets : Bytes) : Writer Unit := do
  let length := octets.length + 1
  if 0x80000000 ≤ length then Writer.refuse codec (.longString octets.length)
  putHead codec .text key
  Writer.put (Bytes.little 4 length)
  Writer.put octets
  Writer.put [0]

/-! ## Documents -/

/-- A document around what a step writes: the length, that, and a zero octet. -/
def document (content : Encoder Unit) : Encoder Unit := fun s =>
  match content { s with output := Output.empty } with
  | .ok _ inner =>
    let octets := inner.output.bytes
    let length := octets.length + 5
    let close : Writer Unit := do
      if 0x80000000 ≤ length then Writer.refuse codec (.longDocument length)
      Writer.put (Bytes.little 4 length)
      Writer.put octets
      Writer.put [0]
    Encoder.write close { inner with output := s.output }
  | .error e inner => .error e { inner with output := s.output.append inner.output.bytes }

mutual

/-- Writes an element and folds its value. -/
def writeElement (key : Bytes) : Tree → Encoder Unit
  | .null => do
    Encoder.fold .null
    Encoder.write (putNull codec key)
  | .bool b => do
    Encoder.fold (.bool b)
    Encoder.write (putBool codec key b)
  | .int i => do
    Encoder.fold (.int i)
    Encoder.write (putInt codec key i)
  | .uint u => do
    Encoder.write (putUInt codec key u)
    Encoder.fold (.uint u)
  | .double bits => do
    Encoder.fold (.double bits)
    Encoder.write (putDouble codec key bits)
  | .text octets => do
    Encoder.fold (.text octets)
    Encoder.write (putText codec key octets)
  | .list items => do
    Encoder.write (putHead codec .array key)
    let count ← Encoder.count items.length
    Encoder.fold (.beginList (some count))
    document codec (writeItems 0 items)
    Encoder.fold .endList
  | .map pairs => do
    Encoder.write (putHead codec .document key)
    let count ← Encoder.count pairs.length
    Encoder.fold (.beginMap (some count))
    document codec (writePairs pairs)
    Encoder.fold .endMap

/-- Elements of an array, from an index on. -/
def writeItems (index : Nat) : List Tree → Encoder Unit
  | [] => pure ()
  | item :: items => do
    writeElement (Bytes.decimal index) item
    writeItems (index + 1) items

def writePairs : List (Bytes × Tree) → Encoder Unit
  | [] => pure ()
  | (k, value) :: pairs => do
    Encoder.fold (.key k)
    writeElement k value
    writePairs pairs

end

/-- Writes a root document and folds it. -/
def write : Tree → Encoder Unit
  | .list items => do
    let count ← Encoder.count items.length
    Encoder.fold (.beginList (some count))
    document codec (writeItems codec 0 items)
    Encoder.fold .endList
  | .map pairs =>
    if pairs.head?.map (·.1) = some [0x30] then Encoder.write (Writer.refuse codec .listLikeRoot)
    else do
      let count ← Encoder.count pairs.length
      Encoder.fold (.beginMap (some count))
      document codec (writePairs codec pairs)
      Encoder.fold .endMap
  | other => Encoder.write (Writer.refuse codec (.root other.kind))

end TreeDigest.Bson
