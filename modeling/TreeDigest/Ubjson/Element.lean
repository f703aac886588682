import TreeDigest.Loop
import TreeDigest.Input.Decoding
import TreeDigest.Ubjson.Marker

/-!
# Reading UBJSON

An element is a marker and what the marker announces. A container either says how
many entries it has, and then no marker closes it, or it goes on to its closing
marker. One that says how many can also say, before that, the marker of all its
values, which then stand without it.

Before a marker there can be any number of no-ops. The place of an element is
where its no-ops begin, since that is where the element before it ended.
-/

namespace TreeDigest.Ubjson

/-! ## Markers and integers -/

/-- The first place, from an offset on, that is not a no-op. -/
def afterNoops (offset : Nat) : Bytes → Cursor
  | [] => ⟨offset, []⟩
  | b :: rest =>
    if b = Marker.noop.octet then afterNoops (offset + 1) rest else ⟨offset, b :: rest⟩

/-- Moves past no-ops. -/
def skipNoops : Reader Unit := modify fun c => afterNoops c.offset c.rest

/-- The octet of the next marker. -/
def marker : Reader UInt8 := do
  skipNoops
  Reader.octet

/-- The octet of the next marker, which stays the next. -/
def peekMarker : Reader UInt8 := do
  skipNoops
  Reader.peek

/-- The payload of an integer of a form. -/
def integerOf (form : IntegerForm) : Reader Int := return form.value (← Reader.big form.width)

/-- The payload of an integer, by the octet of its marker. -/
def integer (marker : UInt8) : Reader Int := do
  match Marker.ofOctet? marker with
  | some (.integer form) => integerOf form
  | _ => Reader.malformed (← Reader.offset) (.expectedInteger marker)

/-- An integer with its marker that is not negative. -/
def length : Reader Nat := do
  let offset ← Reader.offset
  let n ← integer (← marker)
  if n < 0 then Reader.malformed offset (.negativeLength n) else return n.toNat

/-- A length and as many octets, which have to be UTF-8. -/
def text : Reader Bytes := do
  let offset ← Reader.offset
  let octets ← Reader.take (← length)
  match Utf8.fault? octets with
  | none => return octets
  | some fault => Reader.malformed offset (.textNotUtf8 fault)

/-! ## Heads of containers -/

/-- What the head of a container says about its entries. -/
structure Heading where
  /-- The octet of the marker that all values share. -/
  shared : Option UInt8
  /-- The number of entries. -/
  count : Option UInt32

/-- Whether a marker can be declared for all values: one with a payload, or an unknown one. -/
def isDeclarable (marker : UInt8) : Bool := ((Marker.ofOctet? marker).map Marker.isShareable).getD true

/-- The marker that all values of a container share, if the head declares one. -/
def sharedMarker : Reader (Option UInt8) := do
  if (← peekMarker) = Marker.sharedType.octet then
    Reader.skip
    let offset ← Reader.offset
    let shared ← Reader.octet
    if isDeclarable shared then
      if (← peekMarker) = Marker.count.octet then return some shared
      else Reader.malformed (← Reader.offset) .typeWithoutCount
    else throw (.unsupportedType offset shared)
  else return none

/-- The number of entries of a container, if the head declares one. -/
def entryCount : Reader (Option UInt32) := do
  if (← peekMarker) = Marker.count.octet then
    Reader.skip
    let offset ← Reader.offset
    let n ← length
    if n < 0x100000000 then return some n.toUInt32 else Reader.malformed offset (.largeCount n)
  else return none

/-- The head of a container, after its opening marker. -/
def heading : Reader Heading := return ⟨← sharedMarker, ← entryCount⟩

/-! ## Elements -/

/-- The octet of the marker that closes a container. -/
def endOctet : Shape → UInt8
  | .list => Marker.listEnd.octet
  | .map => Marker.mapEnd.octet

/-- The fewest octets that an entry takes. -/
def leastEntry : Shape → Nat
  | .list => 1
  | .map => 2

def beginEvent (shape : Shape) (declared : Option UInt32) : Event :=
  match shape with
  | .list => .beginList declared
  | .map => .beginMap declared

def endEvent : Shape → Event
  | .list => .endList
  | .map => .endMap

/-- Does a step for what a marker announces, with the marker and the place of the element. -/
def marked (payload : UInt8 → Nat → Decoder Cursor Unit) : Decoder Cursor Unit := do
  let offset ← Decoder.read Reader.offset
  payload (← Decoder.read marker) offset

/-- Hands the key of an entry to the folder, if its container has keys, and then does a step. -/
def entry (shape : Shape) (value : Decoder Cursor Unit) : Decoder Cursor Unit :=
  match shape with
  | .list => value
  | .map => do
    Decoder.fold (.key (← Decoder.read text))
    value

/-- Hands the entries of a container to the folder, by a step for what a marker announces. -/
def entries (shape : Shape) (heading : Heading) (payload : UInt8 → Nat → Decoder Cursor Unit) :
    Decoder Cursor Unit := do
  match heading.count with
  | some count => do
    Decoder.read (Reader.need (count.toNat * leastEntry shape))
    match heading.shared with
    | some shared =>
      Loop.times (entry shape do payload shared (← Decoder.read Reader.offset)) count.toNat
    | none => Loop.times (entry shape (marked payload)) count.toNat
  | none => do
    let round (_ : Nat) : Decoder Cursor Bool := do
      if (← Decoder.read peekMarker) = endOctet shape then
        Decoder.read Reader.skip
        return false
      else
        entry shape (marked payload)
        return true
    Loop.rounds round 0 (← Decoder.rest)

/--
Hands what a marker announces to the folder. `levels` is how many more containers
the folder lets open; at none, it refuses the container once its head is read.
-/
def foldMarked (levels : Nat) (marker : UInt8) (offset : Nat) : Decoder Cursor Unit :=
  let container (shape : Shape) : Decoder Cursor Unit := do
    let heading ← Decoder.read heading
    Decoder.fold (beginEvent shape heading.count)
    match levels with
    | 0 => pure ()
    | levels + 1 => do
      entries shape heading (foldMarked levels)
      Decoder.fold (endEvent shape)
  match Marker.ofOctet? marker with
  | some .null => Decoder.fold .null
  | some .yes => Decoder.fold (.bool true)
  | some .no => Decoder.fold (.bool false)
  | some (.integer form) => do Decoder.fold (.int (Int64.ofInt (← Decoder.read (integerOf form))))
  | some .single => do Decoder.fold (.single (← Decoder.read (Reader.big 4)).toUInt32)
  | some .double => do Decoder.fold (.double (← Decoder.read (Reader.big 8)).toUInt64)
  | some .character => do Decoder.fold (.text (← Decoder.read (Reader.take 1)))
  | some .text => do Decoder.fold (.text (← Decoder.read text))
  | some .listStart => container .list
  | some .mapStart => container .map
  | _ => throw (.decode (.unsupportedType offset marker))

/-- Hands one element to the folder, which lets at most `levels` more containers open. -/
def fold (levels : Nat) : Decoder Cursor Unit := marked (foldMarked levels)

end TreeDigest.Ubjson
