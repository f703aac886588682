import TreeDigest.Loop
import TreeDigest.Json.Fault

/-!
# Reading a JSON text from the front

A cursor is a place in a text with what follows it. Steps of reading move it on,
and a step fails with a fault at a place: where the cursor stands, or after the
octet that it stands before.
-/

namespace TreeDigest.Json

/-- The place after an octet that stands at this one. -/
def Place.after (place : Place) (b : UInt8) : Place :=
  if b = 0x0A then ⟨place.line + 1, 0⟩ else ⟨place.line, place.column + 1⟩

/-- A place in a text. -/
structure Cursor where
  place : Place
  /-- The octets from it on. -/
  rest : Bytes

/-- The beginning of a text. -/
def Cursor.start (input : Bytes) : Cursor := ⟨⟨1, 0⟩, input⟩

/-- A step of reading: its result, and the place it stops at. -/
abbrev Parser := EStateM Fault Cursor

namespace Parser

variable {α : Type}

/-- Fails at a place. -/
def failAt (place : Place) (cause : Cause) : Parser α := throw ⟨cause, place⟩

/-- Fails where the cursor stands. -/
def fail (cause : Cause) : Parser α := do failAt (← get).place cause

/-- Fails after the next octet, or at the end of the text. -/
def failNext (cause : Cause) : Parser α := do
  let c ← get
  match c.rest with
  | [] => failAt c.place cause
  | b :: _ => failAt (c.place.after b) cause

/-- The next octet, which stays the next; none at the end of the text. -/
def peek? : Parser (Option UInt8) := return (← get).rest.head?

/-- The next octet, none at the end of the text. -/
def next? : Parser (Option UInt8) := fun c =>
  match c.rest with
  | [] => .ok none c
  | b :: rest => .ok (some b) ⟨c.place.after b, rest⟩

/-- Moves past the next octet, if there is one. -/
def skip : Parser Unit := do
  let _ ← next?

/-- The octets up to the first that fails a test. -/
def takeWhile (test : UInt8 → Bool) : Parser Bytes := fun c =>
  let taken := c.rest.takeWhile test
  .ok taken ⟨taken.foldl Place.after c.place, c.rest.drop taken.length⟩

/-- Whether an octet is a blank between tokens. -/
def isBlank (b : UInt8) : Bool := b == 0x20 || b == 0x0A || b == 0x09 || b == 0x0D

/-- Moves past blanks. -/
def skipBlanks : Parser Unit := do
  let _ ← takeWhile isBlank

/-- The next octet that is not a blank, which stays the next; none at the end of the text. -/
def peekToken? : Parser (Option UInt8) := do
  skipBlanks
  peek?

/-- Fails unless only blanks are left. -/
def finished : Parser Unit := do
  match ← peekToken? with
  | none => pure ()
  | some _ => failNext .trailingCharacters

end Parser

end TreeDigest.Json
