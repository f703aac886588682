import TreeDigest.Output.Encoding

/-!
# Writing MessagePack

Most content has several forms, which differ in the width of a number or of a
length. A compact writer takes the narrowest form that holds it, a wide one
always takes 64 bits for integers and 32 for lengths.
-/

namespace TreeDigest.MessagePack

/-- Which of its forms a writer gives to an integer or a length. -/
inductive Widths where
  | compact
  | wide
  deriving DecidableEq

/-! ## Forms of scalars and of container heads -/

def nullForm : Bytes := [0xC0]

def boolForm (b : Bool) : Bytes := if b then [0xC3] else [0xC2]

/-- The form of an unsigned integer. -/
def uintForm : Widths → UInt64 → Bytes
  | .wide, u => 0xCF :: Bytes.big 8 u.toNat
  | .compact, u =>
    let n := u.toNat
    if n < 0x80 then [u.toUInt8]
    else if n < 0x100 then 0xCC :: Bytes.big 1 n
    else if n < 0x10000 then 0xCD :: Bytes.big 2 n
    else if n < 0x100000000 then 0xCE :: Bytes.big 4 n
    else 0xCF :: Bytes.big 8 n

/-- The form of a signed integer; a compact writer takes one that is not negative for unsigned. -/
def intForm : Widths → Int64 → Bytes
  | .wide, i => 0xD3 :: Bytes.big 8 i.toUInt64.toNat
  | .compact, i =>
    let n := i.toInt
    let bits := i.toUInt64.toNat
    if 0 ≤ n then uintForm .compact i.toUInt64
    else if -0x20 ≤ n then Bytes.big 1 bits
    else if -0x80 ≤ n then 0xD0 :: Bytes.big 1 bits
    else if -0x8000 ≤ n then 0xD1 :: Bytes.big 2 bits
    else if -0x80000000 ≤ n then 0xD2 :: Bytes.big 4 bits
    else 0xD3 :: Bytes.big 8 bits

def doubleForm (bits : UInt64) : Bytes := 0xCB :: Bytes.big 8 bits.toNat

/-- The head of a container: a marker with the count in it, or one of two with the count after. -/
def headForm (widths : Widths) (count : UInt32) (short medium long : UInt8) : Bytes :=
  let n := count.toNat
  if widths = .compact ∧ n < 0x10 then [short ||| count.toUInt8]
  else if widths = .compact ∧ n < 0x10000 then medium :: Bytes.big 2 n
  else long :: Bytes.big 4 n

def arrayForm (widths : Widths) (count : UInt32) : Bytes := headForm widths count 0x90 0xDC 0xDD

def mapForm (widths : Widths) (count : UInt32) : Bytes := headForm widths count 0x80 0xDE 0xDF

/-- The head of a string. -/
def textHead (widths : Widths) (length : Nat) : Bytes :=
  if widths = .compact ∧ length < 0x20 then [0xA0 ||| length.toUInt8]
  else if widths = .compact ∧ length < 0x100 then 0xD9 :: Bytes.big 1 length
  else if widths = .compact ∧ length < 0x10000 then 0xDA :: Bytes.big 2 length
  else 0xDB :: Bytes.big 4 length

/-! ## Writing -/

/-- A length that a length field can hold. -/
def fieldLength (codec : String) (length : Nat) (tooLong : Obstacle) : Writer UInt32 :=
  if length < 0x100000000 then pure length.toUInt32 else Writer.refuse codec tooLong

/-- A string: its head, then its octets. -/
def putText (codec : String) (widths : Widths) (octets : Bytes) : Writer Unit := do
  let length ← fieldLength codec octets.length (.longString octets.length)
  Writer.put (textHead widths length.toNat)
  Writer.put octets

variable (codec : String) (widths : Widths)

mutual

/-- Writes a tree and folds it. -/
def write : Tree → Encoder Unit
  | .null => do
    Encoder.fold .null
    Encoder.put nullForm
  | .bool b => do
    Encoder.fold (.bool b)
    Encoder.put (boolForm b)
  | .int i => do
    Encoder.fold (.int i)
    Encoder.put (intForm widths i)
  | .uint u => do
    Encoder.fold (.uint u)
    Encoder.put (uintForm widths u)
  | .double bits => do
    Encoder.fold (.double bits)
    Encoder.put (doubleForm bits)
  | .text octets => do
    Encoder.fold (.text octets)
    Encoder.write (putText codec widths octets)
  | .list items => do
    let count ← Encoder.write (fieldLength codec items.length (.longList items.length))
    Encoder.fold (.beginList (some count))
    Encoder.put (arrayForm widths count)
    writeItems items
    Encoder.fold .endList
  | .map pairs => do
    let count ← Encoder.write (fieldLength codec pairs.length (.longMap pairs.length))
    Encoder.fold (.beginMap (some count))
    Encoder.put (mapForm widths count)
    writePairs pairs
    Encoder.fold .endMap

def writeItems : List Tree → Encoder Unit
  | [] => pure ()
  | item :: items => do
    write item
    writeItems items

def writePairs : List (Bytes × Tree) → Encoder Unit
  | [] => pure ()
  | (k, value) :: pairs => do
    Encoder.fold (.key k)
    Encoder.write (putText codec widths k)
    write value
    writePairs pairs

end

end TreeDigest.MessagePack
