import TreeDigest.Json.Number
import TreeDigest.Json.Text

/-!
# Tokens and separators of JSON

A token is a whole scalar or the opening of a container. What comes between the
entries of a container is for the separators: each says whether another entry
follows, and refuses all else with a cause that says what was expected.
-/

namespace TreeDigest.Json

open TreeDigest.Json.Parser

/-- A scalar, or the opening of a container. -/
inductive Token where
  | null
  | bool (b : Bool)
  | number (n : Number)
  | text (octets : Bytes)
  | listStart
  | objectStart

/-- The rest of a word. -/
def word : Bytes → Parser Unit
  | [] => pure ()
  | expected :: rest => do
    match ← next? with
    | none => fail .endInValue
    | some b => if b = expected then word rest else fail .expectedLiteral

/-- The next token. -/
def token : Parser Token := do
  match ← peekToken? with
  | none => fail .endInValue
  | some 0x6E => do
    skip
    word (Bytes.ofAscii "ull")
    return .null
  | some 0x74 => do
    skip
    word (Bytes.ofAscii "rue")
    return .bool true
  | some 0x66 => do
    skip
    word (Bytes.ofAscii "alse")
    return .bool false
  | some 0x2D => do
    skip
    return .number (← number true)
  | some 0x22 => do
    skip
    return .text (← text)
  | some 0x5B => do
    skip
    return .listStart
  | some 0x7B => do
    skip
    return .objectStart
  | some b => if Bytes.isDigit b then return .number (← number false) else failNext .expectedValue

/-! ## Lists -/

/-- Whether another item follows in a list. -/
def nextItem (isFirst : Bool) : Parser Bool := do
  match ← peekToken? with
  | none => fail .endInList
  | some 0x5D => return false
  | some b =>
    if isFirst then return true
    else if b = 0x2C then do
      skip
      match ← peekToken? with
      | none => fail .endInValue
      | some 0x5D => failNext .trailingComma
      | some _ => return true
    else failNext .expectedListCommaOrEnd

/-- The end of a list. -/
def listEnd : Parser Unit := do
  match ← peekToken? with
  | none => fail .endInList
  | some 0x5D => skip
  | some 0x2C => do
    skip
    match ← peekToken? with
    | some 0x5D => failNext .trailingComma
    | _ => failNext .trailingCharacters
  | some _ => failNext .trailingCharacters

/-! ## Objects -/

/-- Whether another key follows in an object. -/
def nextKey (isFirst : Bool) : Parser Bool := do
  match ← peekToken? with
  | none => fail .endInObject
  | some 0x7D => return false
  | some b =>
    if isFirst then
      if b = 0x22 then return true else failNext .keyNotString
    else if b = 0x2C then do
      skip
      match ← peekToken? with
      | none => fail .endInValue
      | some 0x22 => return true
      | some 0x7D => failNext .trailingComma
      | some _ => failNext .keyNotString
    else failNext .expectedObjectCommaOrEnd

/-- A key, whose opening quote is next. -/
def key : Parser Bytes := do
  skip
  text

/-- The colon between a key and its value. -/
def colon : Parser Unit := do
  match ← peekToken? with
  | none => fail .endInObject
  | some 0x3A => skip
  | some _ => failNext .expectedColon

/-- The end of an object. -/
def objectEnd : Parser Unit := do
  match ← peekToken? with
  | none => fail .endInObject
  | some 0x7D => skip
  | some 0x2C => failNext .trailingComma
  | some _ => failNext .trailingCharacters

end TreeDigest.Json
