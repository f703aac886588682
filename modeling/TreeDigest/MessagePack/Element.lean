import TreeDigest.Loop
import TreeDigest.Input.Decoding

/-!
# Reading MessagePack

An element is a tag and, after the tag of a container, its entries. Two readers
go over the same elements: `fold` hands each to a folder as it comes, and `read`
builds a tree. Both descend at most a given number of levels, and both look at
how many octets are left before they begin on a container's entries: an entry
takes at least one octet, a pair at least two, so a count beyond that is a
truncated input, whatever comes.
-/

namespace TreeDigest.MessagePack

/-! ## Tags -/

/-- A string of as many octets as a length of `width` octets says. -/
def sizedText (width : Nat) : Reader Tag := do
  let length ← Reader.big width
  return .text (← Reader.take length)

def unsigned (width : Nat) : Reader Tag := return .uint (← Reader.big width).toUInt64

def signed (width : Nat) : Reader Tag := return .int (Int64.ofInt (← Reader.signedBig width))

/-- The tag that a marker of its own announces. -/
def wideTag (offset : Nat) (marker : UInt8) : Reader Tag := do
  match marker with
  | 0xC0 => return .null
  | 0xC2 => return .bool false
  | 0xC3 => return .bool true
  | 0xC4 | 0xD9 => sizedText 1
  | 0xC5 | 0xDA => sizedText 2
  | 0xC6 | 0xDB => sizedText 4
  | 0xCA => return .single (← Reader.big 4).toUInt32
  | 0xCB => return .double (← Reader.big 8).toUInt64
  | 0xCC => unsigned 1
  | 0xCD => unsigned 2
  | 0xCE => unsigned 4
  | 0xCF => unsigned 8
  | 0xD0 => signed 1
  | 0xD1 => signed 2
  | 0xD2 => signed 4
  | 0xD3 => signed 8
  | 0xDC => return .array (← Reader.big 2).toUInt32
  | 0xDD => return .array (← Reader.big 4).toUInt32
  | 0xDE => return .map (← Reader.big 2).toUInt32
  | 0xDF => return .map (← Reader.big 4).toUInt32
  | _ => throw (.unsupportedType offset marker)

/-- The next tag. The commonest have their payload or count in the marker itself. -/
def tag : Reader Tag := do
  let offset ← Reader.offset
  let marker ← Reader.octet
  if marker < 0x80 then return .uint marker.toUInt64
  else if marker < 0x90 then return .map (marker &&& 0x0F).toUInt32
  else if marker < 0xA0 then return .array (marker &&& 0x0F).toUInt32
  else if marker < 0xC0 then return .text (← Reader.take (marker &&& 0x1F).toNat)
  else if marker < 0xE0 then wideTag offset marker
  else return .int (Int64.ofInt (Bytes.signed 1 marker.toNat))

/-- The next element, which has to be a string. -/
def key : Reader Bytes := do
  let offset ← Reader.offset
  match ← tag with
  | .text octets => return octets
  | other => Reader.malformed offset (.keyNotText other)

/-- Fails unless `count` entries of at least `size` octets each can follow. -/
def claim (count : UInt32) (size : Nat) : Reader Unit := Reader.need (count.toNat * size)

/-! ## Elements -/

/-- Hands a key to the folder and then does a step for its value. -/
def foldPair (value : Decoder Cursor Unit) : Decoder Cursor Unit := do
  Decoder.fold (.key (← Decoder.read key))
  value

/-- A key and its value. -/
def readPair (value : Reader Tree) : Reader (Bytes × Tree) := do
  let k ← key
  return (k, ← value)

/--
Hands one element to the folder. `levels` is how many more containers the folder
lets open; at none, it refuses the container, and its entries are not begun.
-/
def fold (levels : Nat) : Decoder Cursor Unit := do
  match ← Decoder.read tag with
  | .null => Decoder.fold .null
  | .bool b => Decoder.fold (.bool b)
  | .int i => Decoder.fold (.int i)
  | .uint u => Decoder.fold (.uint u)
  | .single bits => Decoder.fold (.single bits)
  | .double bits => Decoder.fold (.double bits)
  | .text octets => Decoder.fold (.text octets)
  | .array count => do
    Decoder.fold (.beginList (some count))
    match levels with
    | 0 => pure ()
    | levels + 1 => do
      Decoder.read (claim count 1)
      Loop.times (fold levels) count.toNat
      Decoder.fold .endList
  | .map count => do
    Decoder.fold (.beginMap (some count))
    match levels with
    | 0 => pure ()
    | levels + 1 => do
      Decoder.read (claim count 2)
      Loop.times (foldPair (fold levels)) count.toNat
      Decoder.fold .endMap

/-- Builds the tree of one element. `levels` is how many more containers may open, of `limit`. -/
def read (limit levels : Nat) : Reader Tree := do
  match ← tag with
  | .null => return .null
  | .bool b => return .bool b
  | .int i => return .int i
  | .uint u => return .uint u
  | .single bits => return .double (Binary.widen bits)
  | .double bits => return .double bits
  | .text octets => return .text octets
  | .array count =>
    match levels with
    | 0 => throw (.depthExceeded limit)
    | levels + 1 => do
      claim count 1
      return .list (← Loop.collect (read limit levels) count.toNat)
  | .map count =>
    match levels with
    | 0 => throw (.depthExceeded limit)
    | levels + 1 => do
      claim count 2
      return .map (← Loop.collect (readPair (read limit levels)) count.toNat)

/-- Reads a whole input as one tree with at most `limit` containers open at once. -/
def readTree (input : Bytes) (limit : Nat) : Except Error Tree :=
  (read limit limit).whole input

end TreeDigest.MessagePack
