import Std.Data.HashMap
import TreeDigest.Json.Attended
import TreeDigest.Json.Token

/-!
# Reading JSON

As for the binary formats there is a reader that folds and one that builds a
tree. A text says nothing of how many entries a container has, so the folder
counts them. Both readers let a fixed number of containers open at once, which
is more than any fold does.

A key that occurs again in an object is one more pair for the reader that folds.
The tree that the other one builds has each key once, where it stood first, with
the value that came last.
-/

namespace TreeDigest.Json

/-- How many containers a text can have open at once. -/
def nestingCeiling : Nat := 127

/-! ## Folding -/

/-- A step of a parser with a fold beside it. -/
abbrev Visitor := Attended Fault Cursor

namespace Visitor

/-- A step of the parser alone. -/
def parse {α : Type} (step : Parser α) : Visitor α := .own step

/-- An event for the folder. If that refuses it, the parser gives up where it stands. -/
def fold (e : Event) : Visitor Unit := Attended.fold (fun c => ⟨.aborted, c.place⟩) e

/-- Hands a number to the folder. -/
def foldNumber : Number → Visitor Unit
  | .unsigned u => fold (.uint u)
  | .negative i => fold (.int i)
  | .double bits => fold (.double bits)

/-- The octets that are left. -/
def rest : Visitor Bytes := return (← get).own.rest

/-- Hands the next item of a list to the folder, by a step for values, if there is one. -/
def item (value : Visitor Unit) (round : Nat) : Visitor Bool := do
  if ← parse (nextItem (round == 0)) then
    value
    return true
  else return false

/-- Hands the next pair of an object to the folder, by a step for values, if there is one. -/
def member (value : Visitor Unit) (round : Nat) : Visitor Bool := do
  if ← parse (nextKey (round == 0)) then
    fold (.key (← parse key))
    parse colon
    value
    return true
  else return false

/-- Hands one value to the folder. `levels` is how many more containers may open in the text. -/
def value (levels : Nat) : Visitor Unit := do
  match ← parse token with
  | .null => fold .null
  | .bool b => fold (.bool b)
  | .number n => foldNumber n
  | .text octets => fold (.text octets)
  | .listStart =>
    match levels with
    | 0 => parse (Parser.fail .tooDeep)
    | levels + 1 => do
      fold (.beginList none)
      Loop.rounds (item (value levels)) 0 (← rest)
      fold .endList
      parse listEnd
  | .objectStart =>
    match levels with
    | 0 => parse (Parser.fail .tooDeep)
    | levels + 1 => do
      fold (.beginMap none)
      Loop.rounds (member (value levels)) 0 (← rest)
      fold .endMap
      parse objectEnd

/-- Hands a whole text to the folder. -/
def document : Visitor Unit := do
  value nestingCeiling
  parse Parser.finished

end Visitor

/-! ## Building -/

/-- A number as a tree: an integer is signed if it fits. -/
def Number.toTree : Number → Tree
  | .unsigned u => if u.toNat < 0x8000000000000000 then .int u.toInt64 else .uint u
  | .negative i => .int i
  | .double bits => .double bits

/-- The last value of each key. -/
def lastValues (pairs : List (Bytes × Tree)) : Std.HashMap Bytes Tree :=
  pairs.foldl (fun values (k, value) => values.insert k value) ∅

/--
Takes the pairs whose key is still in a map, with their values there, each key
once and newest first, before those already taken.
-/
def firstPlacesOnto (taken : List (Bytes × Tree)) (values : Std.HashMap Bytes Tree) :
    List (Bytes × Tree) → List (Bytes × Tree)
  | [] => taken
  | (k, _) :: pairs =>
    match values[k]? with
    | some value => firstPlacesOnto ((k, value) :: taken) (values.erase k) pairs
    | none => firstPlacesOnto taken values pairs

/-- Each key once, where it stands first, with the value that stands last. -/
def distinct (pairs : List (Bytes × Tree)) : List (Bytes × Tree) :=
  (firstPlacesOnto [] (lastValues pairs) pairs).reverse

/-- The next item of a list, by a step for values, if there is one. -/
def readItem (value : Parser Tree) (round : Nat) : Parser (Option Tree) := do
  if ← nextItem (round == 0) then return some (← value) else return none

/-- The next pair of an object, by a step for values, if there is one. -/
def readMember (value : Parser Tree) (round : Nat) : Parser (Option (Bytes × Tree)) := do
  if ← nextKey (round == 0) then
    let k ← key
    colon
    return some (k, ← value)
  else return none

/-- Builds the tree of one value. `levels` is how many more containers may open. -/
def read (levels : Nat) : Parser Tree := do
  match ← token with
  | .null => return .null
  | .bool b => return .bool b
  | .number n => return n.toTree
  | .text octets => return .text octets
  | .listStart =>
    match levels with
    | 0 => Parser.fail .tooDeep
    | levels + 1 => do
      let items ← Loop.gather (readItem (read levels)) (← get).rest
      listEnd
      return .list items
  | .objectStart =>
    match levels with
    | 0 => Parser.fail .tooDeep
    | levels + 1 => do
      let pairs ← Loop.gather (readMember (read levels)) (← get).rest
      objectEnd
      return .map (distinct pairs)

/-- Reads a whole text as one tree. -/
def readTree (codec : String) (input : Bytes) : Except Error Tree :=
  let step : Parser Tree := do
    let t ← read nestingCeiling
    Parser.finished
    return t
  match step (Cursor.start input) with
  | .ok t _ => .ok t
  | .error fault _ => .error (.decode (.parser codec fault))

end TreeDigest.Json
