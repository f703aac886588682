import TreeDigest.Bytes

/-!
# UTF-8

A reader of UTF-8 is a machine with two kinds of state: between characters, and
inside one, where it knows how many octets must follow and in which range the
next one lies. The ranges carry all of the well-formedness rules: no overlong
forms, no surrogates, nothing above U+10FFFF.

Two functions run the machine. `fault?` says where and how a byte string stops
being UTF-8, and `decode` reads any byte string, putting U+FFFD for each stretch
that is not a character. On well-formed input the second is the inverse of the
usual encoding.
-/

namespace TreeDigest.Utf8

/-- A character of which at least one octet has been read. -/
structure Pending where
  /-- The bits read so far. -/
  code : Nat
  /-- How many octets have been read. -/
  seen : Nat
  /-- How many octets must still follow after the next one. -/
  after : Nat
  /-- The next octet is at least this. -/
  least : UInt8
  /-- The next octet is at most this. -/
  greatest : UInt8

/-- What one octet leads to. -/
inductive Step where
  | complete (c : Char)
  | pending (p : Pending)
  | invalid

/-- The first octet of a character. -/
def start (b : UInt8) : Step :=
  let code := b.toNat
  if b < 0x80 then .complete (Char.ofNat code)
  else if b < 0xC2 then .invalid
  else if b < 0xE0 then .pending ⟨code - 0xC0, 1, 0, 0x80, 0xBF⟩
  else if b < 0xF0 then
    .pending ⟨code - 0xE0, 1, 1, if b = 0xE0 then 0xA0 else 0x80, if b = 0xED then 0x9F else 0xBF⟩
  else if b < 0xF5 then
    .pending ⟨code - 0xF0, 1, 2, if b = 0xF0 then 0x90 else 0x80, if b = 0xF4 then 0x8F else 0xBF⟩
  else .invalid

/-- A further octet of a character. -/
def Pending.next (p : Pending) (b : UInt8) : Step :=
  if p.least ≤ b && b ≤ p.greatest then
    let code := p.code * 64 + b.toNat % 64
    match p.after with
    | 0 => .complete (Char.ofNat code)
    | after + 1 => .pending ⟨code, p.seen + 1, after, 0x80, 0xBF⟩
  else .invalid

/-- Where a byte string stops being UTF-8. -/
structure Fault where
  /-- How many octets before it form complete characters. -/
  offset : Nat
  /-- How many octets are at fault; none if the input ends inside a character. -/
  length : Option Nat
  deriving DecidableEq, Repr

/-- The wording of a fault. -/
def Fault.message (f : Fault) : String :=
  match f.length with
  | some length => s!"invalid utf-8 sequence of {length} bytes from index {f.offset}"
  | none => s!"incomplete utf-8 byte sequence from index {f.offset}"

/-- The first fault of a byte string, `offset` octets of complete characters into a longer one. -/
def scan (offset : Nat) : Option Pending → Bytes → Option Fault
  | none, [] => none
  | some _, [] => some ⟨offset, none⟩
  | none, b :: bs =>
    match start b with
    | .complete _ => scan (offset + 1) none bs
    | .pending p => scan offset (some p) bs
    | .invalid => some ⟨offset, some 1⟩
  | some p, b :: bs =>
    match p.next b with
    | .complete _ => scan (offset + p.seen + 1) none bs
    | .pending q => scan offset (some q) bs
    | .invalid => some ⟨offset, some p.seen⟩

/-- The first fault of a byte string, none if it is UTF-8 throughout. -/
def fault? (bytes : Bytes) : Option Fault := scan 0 none bytes

/-- Whether a byte string is UTF-8 throughout. -/
def isValid (bytes : Bytes) : Bool := (fault? bytes).isNone

/-- The character that stands for octets that are none. -/
def replacement : Char := Char.ofNat 0xFFFD

/-- Reads on from a state, with the characters read so far in reverse. -/
def decodeOnto (read : List Char) : Option Pending → Bytes → List Char
  | none, [] => read
  | some _, [] => replacement :: read
  | none, b :: bs =>
    match start b with
    | .complete c => decodeOnto (c :: read) none bs
    | .pending p => decodeOnto read (some p) bs
    | .invalid => decodeOnto (replacement :: read) none bs
  | some p, b :: bs =>
    match p.next b with
    | .complete c => decodeOnto (c :: read) none bs
    | .pending q => decodeOnto read (some q) bs
    | .invalid =>
      match start b with
      | .complete c => decodeOnto (c :: replacement :: read) none bs
      | .pending q => decodeOnto (replacement :: read) (some q) bs
      | .invalid => decodeOnto (replacement :: replacement :: read) none bs

/-- The characters of a byte string, U+FFFD for each stretch of octets that are none. -/
def decode (bytes : Bytes) : List Char := (decodeOnto [] none bytes).reverse

/-- The text of a byte string, U+FFFD for each stretch of octets that are no character. -/
def toText (bytes : Bytes) : String := String.ofList (decode bytes)

/-- The octets of a character. -/
def encodeChar (c : Char) : Bytes := String.utf8EncodeChar c

/-- The octets of a text. -/
def ofText (text : String) : Bytes := text.toList.flatMap encodeChar

end TreeDigest.Utf8
