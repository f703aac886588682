import TreeDigest.Text.Utf8
import TreeDigest.Json.Cursor

/-!
# Strings in JSON

Between the quotes of a string stand octets that mean themselves and escapes,
which begin with a backslash. `piece` reads one of either. What a string means
has to be UTF-8, and that is looked at once its closing quote has been read: the
place of the fault is as far before the end as the meaning still goes on from
the first octet that is wrong.

Writing escapes the quote, the backslash and the control characters, and nothing
else.
-/

namespace TreeDigest.Json

open TreeDigest.Json.Parser

/-! ## Reading -/

/-- The code unit of four hexadecimal digits. -/
def codeUnit : Parser Nat := do
  let c ← get
  let digits := c.rest.take 4
  set (⟨digits.foldl Place.after c.place, c.rest.drop 4⟩ : Cursor)
  if digits.length < 4 then fail .endInString
  else
    match Bytes.ofHex? digits with
    | some unit => return unit
    | none => fail .invalidEscape

/-- The first of two code units that stand for one character. -/
def isHigh (unit : Nat) : Bool := 0xD800 ≤ unit && unit < 0xDC00

/-- The second of two code units that stand for one character. -/
def isLow (unit : Nat) : Bool := 0xDC00 ≤ unit && unit < 0xE000

/-- The code point of two code units. -/
def joined (high low : Nat) : Nat := 0x10000 + (high - 0xD800) * 0x400 + (low - 0xDC00)

/-- The octets of a code point that is a character. -/
def character (code : Nat) : Bytes := Utf8.encodeChar (Char.ofNat code)

/-- The next octet of a string, which has to be a certain one because of what stands before it. -/
def expectUnfinished (expected : UInt8) : Parser Unit := do
  match ← next? with
  | none => fail .endInString
  | some b => if b = expected then pure () else fail .unfinishedSurrogate

/-- An escape by code units, after its first letter. -/
def unicodeEscape : Parser Bytes := do
  let first ← codeUnit
  if isLow first then fail .loneSurrogate
  else if isHigh first then do
    expectUnfinished 0x5C
    expectUnfinished 0x75
    let second ← codeUnit
    if isLow second then return character (joined first second) else fail .loneSurrogate
  else return character first

/-- An escape, after its backslash. -/
def escape : Parser Bytes := do
  match ← next? with
  | none => fail .endInString
  | some 0x22 => return [0x22]
  | some 0x5C => return [0x5C]
  | some 0x2F => return [0x2F]
  | some 0x62 => return [0x08]
  | some 0x66 => return [0x0C]
  | some 0x6E => return [0x0A]
  | some 0x72 => return [0x0D]
  | some 0x74 => return [0x09]
  | some 0x75 => unicodeEscape
  | some _ => fail .invalidEscape

/-- An octet or an escape, none at the closing quote. -/
def piece : Parser (Option Bytes) := do
  match ← next? with
  | none => fail .endInString
  | some 0x22 => return none
  | some 0x5C => return some (← escape)
  | some b => if b < 0x20 then fail .controlCharacter else return some [b]

/-- What a string means, after its opening quote. -/
def text : Parser Bytes := do
  let pieces ← Loop.gather (fun _ => piece) (← get).rest
  let octets := pieces.flatten
  match Utf8.fault? octets with
  | none => return octets
  | some fault => do
    let place := (← get).place
    failAt ⟨place.line, place.column - (octets.length - fault.offset)⟩ .invalidCodePoint

/-! ## Writing -/

/-- How an octet is written in a string. -/
def escaped (b : UInt8) : Bytes :=
  if b = 0x22 then [0x5C, 0x22]
  else if b = 0x5C then [0x5C, 0x5C]
  else if b = 0x08 then [0x5C, 0x62]
  else if b = 0x09 then [0x5C, 0x74]
  else if b = 0x0A then [0x5C, 0x6E]
  else if b = 0x0C then [0x5C, 0x66]
  else if b = 0x0D then [0x5C, 0x72]
  else if b < 0x20 then Bytes.ofAscii ("\\u00" ++ Bytes.hexOctet b)
  else [b]

/-- A string with its quotes. -/
def textForm (octets : Bytes) : Bytes := 0x22 :: (octets.flatMap escaped ++ [0x22])

end TreeDigest.Json
