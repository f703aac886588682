import TreeDigest.Loop
import TreeDigest.Input.Decoding

/-!
# Reading BSON

A document is its length, its elements and a zero octet. An element is an octet
for its type, a key that ends with a zero octet, and a payload. There is no count
of elements: a document ends where its length says, and an element that begins
at or beyond that place overruns it.

An array is a document whose keys are the indices in decimal. Nothing marks a
root document as an array, so a root whose first key is `0` is taken for one.

As for MessagePack there are two readers of the same elements, one that folds
and one that builds a tree, and both descend at most a given number of levels.
-/

namespace TreeDigest.Bson

/-! ## Types of elements -/

/-- The types of elements that documents here can have. -/
inductive ElementType where
  | double
  | text
  | document
  | array
  | bool
  | null
  | int32
  | int64
  deriving DecidableEq

namespace ElementType

/-- The octet that stands for a type. -/
def octet : ElementType → UInt8
  | .double => 0x01
  | .text => 0x02
  | .document => 0x03
  | .array => 0x04
  | .bool => 0x08
  | .null => 0x0A
  | .int32 => 0x10
  | .int64 => 0x12

/-- The type an octet stands for. -/
def ofOctet? (b : UInt8) : Option ElementType :=
  if b = 0x01 then some .double
  else if b = 0x02 then some .text
  else if b = 0x03 then some .document
  else if b = 0x04 then some .array
  else if b = 0x08 then some .bool
  else if b = 0x0A then some .null
  else if b = 0x10 then some .int32
  else if b = 0x12 then some .int64
  else none

@[simp] theorem ofOctet?_octet (type : ElementType) : ofOctet? type.octet = some type := by
  cases type <;> rfl

end ElementType

/-- The head of an element. -/
structure Header where
  offset : Nat
  /-- The octet of its type, whether or not that is known. -/
  kind : UInt8
  key : Bytes

/-- What follows the head of an element. Of an embedded document nothing is read yet. -/
inductive Payload where
  | null
  | bool (b : Bool)
  | int (i : Int64)
  | double (bits : UInt64)
  | text (octets : Bytes)
  | document
  | array

/-! ## Parts of documents -/

/-- Reads the length of a document and gives the offset at which it ends. -/
def openDocument : Reader Nat := do
  let offset ← Reader.offset
  let length ← Reader.signedLittle 4
  if length < 5 then Reader.malformed offset (.documentLength length)
  else
    Reader.need (length.toNat - 4)
    return offset + length.toNat

/-- How many octets lie before the first zero among the first `room`, after `seen` others. -/
def findZero (seen : Nat) : (room : Nat) → Bytes → Option Nat
  | 0, _ => none
  | _, [] => none
  | room + 1, b :: rest => if b = 0 then some seen else findZero (seen + 1) room rest

/-- The head of the next element of a document that ends at `finish`, none if it ends here. -/
def nextElement (finish : Nat) : Reader (Option Header) := do
  let offset ← Reader.offset
  if finish ≤ offset then Reader.malformed offset .overrun
  else
    let kind ← Reader.octet
    if kind = 0 then
      if offset + 1 = finish then return none
      else Reader.malformed offset .earlyTerminator
    else
      match findZero 0 (finish - offset - 1) (← get).rest with
      | none => Reader.malformed (offset + 1) .unterminatedKey
      | some length =>
        let key ← Reader.take length
        Reader.skip
        return some ⟨offset, kind, key⟩

/-- A string payload: its length with a final zero octet, its octets, the zero octet. -/
def textPayload : Reader Bytes := do
  let offset ← Reader.offset
  let length ← Reader.signedLittle 4
  if length < 1 then Reader.malformed offset (.stringLength length)
  else
    let octets ← Reader.take length.toNat
    if octets.getLast? = some 0 then return octets.dropLast
    else Reader.malformed offset .unterminatedString

/-- A boolean payload: an octet that is zero or one. -/
def boolPayload : Reader Bool := do
  let offset ← Reader.offset
  let b ← Reader.octet
  if b = 0 then return false
  else if b = 1 then return true
  else Reader.malformed offset (.boolOctet b)

/-- The payload of an element. -/
def payload (header : Header) : Reader Payload :=
  match ElementType.ofOctet? header.kind with
  | some .double => return .double (← Reader.little 8).toUInt64
  | some .text => return .text (← textPayload)
  | some .document => return .document
  | some .array => return .array
  | some .bool => return .bool (← boolPayload)
  | some .null => return .null
  | some .int32 => return .int (Int64.ofInt (← Reader.signedLittle 4))
  | some .int64 => return .int (Int64.ofInt (← Reader.signedLittle 8))
  | none => throw (.unsupportedType header.offset header.kind)

/-- Fails unless an element of an array is keyed by its index. -/
def checkIndex (header : Header) (index : Nat) : Reader Unit :=
  if header.key = Bytes.decimal index then pure ()
  else Reader.malformed header.offset (.arrayKey header.key index)

/-- Whether the first element of a root document has the key of a first array element. -/
def rootIsArray : Bytes → Bool
  | _ :: _ :: _ :: _ :: kind :: 0x30 :: 0x00 :: _ => kind != 0
  | _ => false

/-! ## Documents -/

/-- Hands the beginning of a document to the folder. -/
def foldBegin (isArray : Bool) : Decoder Cursor Unit :=
  Decoder.fold (if isArray then .beginList none else .beginMap none)

/-- Hands the end of a document to the folder. -/
def foldEnd (isArray : Bool) : Decoder Cursor Unit :=
  Decoder.fold (if isArray then .endList else .endMap)

/-- Hands the key of an element to the folder. That of an array element is only checked. -/
def foldKey (isArray : Bool) (header : Header) (index : Nat) : Decoder Cursor Unit :=
  if isArray then Decoder.read (checkIndex header index) else Decoder.fold (.key header.key)

/-- Hands a payload to the folder, by a step for documents. -/
def foldPayload (document : (isArray : Bool) → Decoder Cursor Unit) :
    Payload → Decoder Cursor Unit
  | .null => Decoder.fold .null
  | .bool b => Decoder.fold (.bool b)
  | .int i => Decoder.fold (.int i)
  | .double bits => Decoder.fold (.double bits)
  | .text octets => Decoder.fold (.text octets)
  | .document => document false
  | .array => document true

/-- Hands the next element of a document that ends at `finish` to the folder, if there is one. -/
def foldElement (document : (isArray : Bool) → Decoder Cursor Unit) (isArray : Bool)
    (finish index : Nat) : Decoder Cursor Bool := do
  match ← Decoder.read (nextElement finish) with
  | none => return false
  | some header => do
    foldKey isArray header index
    foldPayload document (← Decoder.read (payload header))
    return true

/--
Hands one document to the folder, which counts its elements. `levels` is how many
more containers the folder lets open; at none, it refuses the document, and
nothing of it is read.
-/
def fold (levels : Nat) (isArray : Bool) : Decoder Cursor Unit := do
  foldBegin isArray
  match levels with
  | 0 => pure ()
  | levels + 1 => do
    let finish ← Decoder.read openDocument
    Loop.rounds (foldElement (fold levels) isArray finish) 0 (← Decoder.rest)
    foldEnd isArray

/-- Checks the key of an array element. -/
def readKey (isArray : Bool) (header : Header) (index : Nat) : Reader Unit :=
  if isArray then checkIndex header index else pure ()

/-- The tree of a payload, by a step for documents. -/
def readPayload (document : (isArray : Bool) → Reader Tree) : Payload → Reader Tree
  | .null => return .null
  | .bool b => return .bool b
  | .int i => return .int i
  | .double bits => return .double bits
  | .text octets => return .text octets
  | .document => document false
  | .array => document true

/-- The key and the tree of the next element of a document that ends at `finish`, if there is one. -/
def readElement (document : (isArray : Bool) → Reader Tree) (isArray : Bool) (finish index : Nat) :
    Reader (Option (Bytes × Tree)) := do
  match ← nextElement finish with
  | none => return none
  | some header => do
    readKey isArray header index
    let value ← readPayload document (← payload header)
    return some (header.key, value)

/-- The tree of a document with certain elements. -/
def documentTree (isArray : Bool) (pairs : List (Bytes × Tree)) : Tree :=
  if isArray then .list (pairs.map (·.2)) else .map pairs

/-- Builds the tree of one document. `levels` is how many more containers may open, of `limit`. -/
def read (limit levels : Nat) (isArray : Bool) : Reader Tree := do
  match levels with
  | 0 => throw (.depthExceeded limit)
  | levels + 1 => do
    let finish ← openDocument
    let pairs ← Loop.gather (readElement (read limit levels) isArray finish) (← get).rest
    return documentTree isArray pairs

/-- Reads a whole input as one tree with at most `limit` containers open at once. -/
def readTree (input : Bytes) (limit : Nat) : Except Error Tree :=
  (read limit limit (rootIsArray input)).whole input

end TreeDigest.Bson
