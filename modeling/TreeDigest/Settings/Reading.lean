import TreeDigest.Json.Token
import TreeDigest.Settings.Fault

/-!
# Reading settings

There is a step for each kind of value: numbers within a bound, texts, choices,
lists and records. Every step is told the path of the value that it reads, so
that a refusal can name it.

A record is written as an object, with its fields in any order, or as a list of
its fields in their own order. Either way fields can be missing and then keep
the value that they had before.
-/

namespace TreeDigest.Settings

/-- A step of reading settings. -/
abbrev Reading := EStateM Fault Json.Cursor

variable {α σ : Type}

/-! ## Refusals -/

/-- A step of reading JSON for the value at a path. -/
def located (path : Path) (step : Json.Parser α) : Reading α := fun c =>
  match step c with
  | .ok a c => .ok a c
  | .error fault c => .error ⟨path, .json fault.cause, fault.place⟩ c

/-- Refuses the value at a path, where the cursor stands. -/
def refuse (path : Path) (problem : Problem) : Reading α := do
  throw ⟨path, problem, (← get).place⟩

/--
Refuses an object, or a member of it, in the middle of the object. The place of
the problem is where a search for the end of the object stops.
-/
def refuseWithin (path : Path) (problem : Problem) : Reading α := fun c =>
  match Json.objectEnd c with
  | .ok _ c | .error _ c => .error ⟨path, problem, c.place⟩ c

/-! ## Scalars -/

/-- What a number was found to be. -/
def Found.ofNumber : Json.Number → Found
  | .unsigned u => .integer u.toNat
  | .negative i => .integer i.toInt
  | .double bits => .double bits

/-- What the next value is. A scalar is read, and a container is not begun. -/
def found : Json.Parser Found := do
  match ← Json.Parser.peekToken? with
  | some 0x5B => return .list
  | some 0x7B => return .object
  | _ =>
    match ← Json.token with
    | .null => return .null
    | .bool b => return .bool b
    | .number n => return Found.ofNumber n
    | .text octets => return .text octets
    | .listStart => return .list
    | .objectStart => return .object

/-- A natural number below a bound, of a type with a name. -/
def natural (bound : Nat) (type : String) (path : Path) : Reading Nat := do
  match ← located path found with
  | .integer n =>
    if 0 ≤ n ∧ n < bound then return n.toNat else refuse path (.wrongValue (.integer n) type)
  | other => refuse path (.wrongType other type)

/-- A text. -/
def text (path : Path) : Reading Bytes := do
  match ← located path found with
  | .text octets => return octets
  | other => refuse path (.wrongType other "a string")

/-! ## Choices -/

/-- The name of a choice, whose opening quote is next. -/
def choiceName (choices : List (String × α)) (path : Path) : Reading (String × α) := do
  let name ← located path Json.key
  match choices.find? fun choice => Utf8.ofText choice.1 == name with
  | some choice => return choice
  | none => refuse path (.unknownChoice name (choices.map (·.1)))

/-- A null. -/
def nothing (path : Path) : Reading Unit := do
  match ← located path found with
  | .null => pure ()
  | other => refuse path (.wrongType other "unit")

/-- The member of an object that is a choice, the name and a null, up to the end of the object. -/
def choiceMember (choices : List (String × α)) (path : Path) : Reading α := do
  let (name, value) ← choiceName choices path
  located path Json.colon
  nothing (path ++ [.member (Utf8.ofText name)])
  match ← located path Json.Parser.peekToken? with
  | none => located path (Json.Parser.fail .endInObject)
  | some 0x7D => do
    located path Json.Parser.skip
    return value
  | some _ => located path (Json.Parser.fail .expectedValue)

/--
One of some values by its name, or by an object with one member, the name and a
null. An object with no member or with another one lacks a value.
-/
def choice (choices : List (String × α)) (path : Path) : Reading α := do
  match ← located path Json.Parser.peekToken? with
  | none => located path (Json.Parser.fail .endInValue)
  | some 0x22 => return (← choiceName choices path).2
  | some 0x7B => do
    located path Json.Parser.skip
    if ← located path (Json.nextKey true) then choiceMember choices path
    else located path (Json.Parser.failNext .expectedValue)
  | some _ => located path (Json.Parser.failNext .expectedValue)

/-! ## Lists -/

/-- The next item of a list, by a step for one item, if there is one. -/
def nextValue (item : Path → Reading α) (path : Path) (round : Nat) : Reading (Option α) := do
  if ← located path (Json.nextItem (round == 0)) then
    return some (← item (path ++ [.item round]))
  else return none

/-- A list, by a step for one item. -/
def list (item : Path → Reading α) (path : Path) : Reading (List α) := do
  match ← located path Json.Parser.peekToken? with
  | some 0x5B => do
    located path Json.Parser.skip
    let items ← Loop.gather (nextValue item path) (← get).rest
    located path Json.listEnd
    return items
  | _ => refuse path (.wrongType (← located path found) "a sequence")

/-! ## Records -/

/-- A field of a record: its name, and how it is read into the record. -/
structure Field (σ : Type) where
  name : String
  read : Path → σ → Reading σ

/-- A field that is set to what a step reads. -/
def Field.of (name : String) (step : Path → Reading α) (set : α → σ → σ) : Field σ where
  name := name
  read path record := return set (← step path) record

/-- The items of a list, each read into the next field of a record. -/
def inOrder (path : Path) (index : Nat) (record : σ) : List (Field σ) → Reading σ
  | [] => return record
  | field :: fields => do
    if ← located path (Json.nextItem (index == 0)) then
      inOrder path (index + 1) (← field.read (path ++ [.item index]) record) fields
    else return record

/-- The field of the next member of an object, of which none was seen before; none at the end. -/
def nextField (fields : List (Field σ)) (path : Path) (seen : List String) :
    Reading (Option (Field σ)) := do
  if ← located (path ++ [.unread]) (Json.nextKey seen.isEmpty) then
    let name ← located (path ++ [.unread]) Json.key
    match fields.find? fun field => Utf8.ofText field.name == name with
    | none => refuseWithin (path ++ [.member name]) (.unknownField name (fields.map Field.name))
    | some field =>
      if seen.contains field.name then refuseWithin path (.duplicateField field.name)
      else return some field
  else return none

/--
The members of an object, each read into the field of its name. None can occur
twice, so after as many as there are fields nothing can follow but the end.
-/
def byName (fields : List (Field σ)) (path : Path) (seen : List String) (record : σ) :
    (left : Nat) → Reading σ
  | 0 => do
    let _ ← nextField fields path seen
    return record
  | left + 1 => do
    match ← nextField fields path seen with
    | none => return record
    | some field => do
      located path Json.colon
      let record ← field.read (path ++ [.member (Utf8.ofText field.name)]) record
      byName fields path (field.name :: seen) record left

/-- A record of a type with a name, read over another one. -/
def record (type : String) (fields : List (Field σ)) (start : σ) (path : Path) : Reading σ := do
  match ← located path Json.Parser.peekToken? with
  | some 0x5B => do
    located path Json.Parser.skip
    let record ← inOrder path 0 start fields
    located path Json.listEnd
    return record
  | some 0x7B => do
    located path Json.Parser.skip
    let record ← byName fields path [] start fields.length
    located path Json.objectEnd
    return record
  | _ => refuse path (.wrongType (← located path found) ("struct " ++ type))

/-- Reads settings from the front of a text; what follows them is not looked at. -/
def run (step : Path → Reading α) (input : Bytes) : Except Fault α :=
  match step [] (Json.Cursor.start input) with
  | .ok a _ => .ok a
  | .error fault _ => .error fault

end TreeDigest.Settings
