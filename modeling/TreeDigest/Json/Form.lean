import Std.Data.HashSet
import TreeDigest.Output.Writer
import TreeDigest.Json.Attended
import TreeDigest.Json.Number
import TreeDigest.Json.Text

/-!
# Writing JSON

A document is written without blanks. Three kinds of content have no form:
strings and keys that are not UTF-8, and doubles that are not finite; all of them
are refused before they are folded.

There are two writers. `write` folds and serializes in one pass. `check` folds only,
and in addition refuses a map in which a key occurs twice; what passed is then
serialized by `serialize`. A serializer can stop for causes of its own, so neither
writer takes it for granted that it goes through.
-/

namespace TreeDigest.Json

/-! ## Forms -/

def nullForm : Bytes := Bytes.ofAscii "null"

def boolForm (b : Bool) : Bytes := Bytes.ofAscii (if b then "true" else "false")

/-- What stands before an entry of a container. -/
def separator (isFirst : Bool) : Bytes := if isFirst then [] else [0x2C]

/-- The form of a scalar, and no octets for a container. -/
def scalarForm : Tree → Bytes
  | .null => nullForm
  | .bool b => boolForm b
  | .int i => intForm i
  | .uint u => uintForm u
  | .double bits => doubleForm bits
  | .text octets => textForm octets
  | .list _ | .map _ => []

/-! ## Serializing -/

/-- A step of a serializer. -/
abbrev Serializer := EStateM Cause Output

/-- Writes octets, of which the output takes any number. -/
def put (bytes : Bytes) : Serializer Unit := modify (·.append bytes)

mutual

/-- Writes a tree. -/
def serialize : Tree → Serializer Unit
  | .list items => do
    put [0x5B]
    serializeItems true items
    put [0x5D]
  | .map pairs => do
    put [0x7B]
    serializePairs true pairs
    put [0x7D]
  | scalar => put (scalarForm scalar)

def serializeItems (isFirst : Bool) : List Tree → Serializer Unit
  | [] => pure ()
  | item :: items => do
    put (separator isFirst)
    serialize item
    serializeItems false items

def serializePairs (isFirst : Bool) : List (Bytes × Tree) → Serializer Unit
  | [] => pure ()
  | (k, value) :: pairs => do
    put (separator isFirst ++ textForm k ++ [0x3A])
    serialize value
    serializePairs false pairs

end

/-! ## Refusals -/

variable (codec : String)

/-- Refuses octets that are not UTF-8. -/
def requireText (octets : Bytes) : Except Error Unit :=
  match Utf8.fault? octets with
  | none => .ok ()
  | some fault => .error (.encode (.unrepresentable codec (.notUtf8 fault)))

/-- Refuses a double that is not finite. -/
def requireFinite (bits : UInt64) : Except Error Unit :=
  if Binary.double.isFinite bits.toNat then .ok ()
  else .error (.encode (.unrepresentable codec (.nonFinite bits)))

/-- A refusal as a step of a fold. -/
def require {σ : Type} : Except Error Unit → EStateM Error σ Unit
  | .ok () => pure ()
  | .error e => throw e

/-! ## Writing and folding in one pass -/

namespace Serializer

/-- An event for the folder beside a serializer. -/
def fold (e : Event) : Attended Cause Output Unit := Attended.fold (fun _ => .aborted) e

/-- A refusal as a step of a serializer, which gives up if there is one. -/
def require {α : Type} : Except Error α → Attended Cause Output α
  | .ok a => pure a
  | .error e => Attended.giveUp (fun _ => .aborted) e

/-- Writes octets and leaves the fold alone. -/
def emit (bytes : Bytes) : Attended Cause Output Unit := .own (put bytes)

end Serializer

mutual

/-- Serializes a tree and folds it. -/
def write : Tree → Attended Cause Output Unit
  | .null => do
    Serializer.fold .null
    Serializer.emit nullForm
  | .bool b => do
    Serializer.fold (.bool b)
    Serializer.emit (boolForm b)
  | .int i => do
    Serializer.fold (.int i)
    Serializer.emit (intForm i)
  | .uint u => do
    Serializer.fold (.uint u)
    Serializer.emit (uintForm u)
  | .double bits => do
    Serializer.require (requireFinite codec bits)
    Serializer.fold (.double bits)
    Serializer.emit (doubleForm bits)
  | .text octets => do
    Serializer.require (requireText codec octets)
    Serializer.fold (.text octets)
    Serializer.emit (textForm octets)
  | .list items => do
    let count ← Serializer.require (Folder.countOf items.length)
    Serializer.fold (.beginList (some count))
    Serializer.emit [0x5B]
    writeItems true items
    Serializer.fold .endList
    Serializer.emit [0x5D]
  | .map pairs => do
    let count ← Serializer.require (Folder.countOf pairs.length)
    Serializer.fold (.beginMap (some count))
    Serializer.emit [0x7B]
    writePairs true pairs
    Serializer.fold .endMap
    Serializer.emit [0x7D]

def writeItems (isFirst : Bool) : List Tree → Attended Cause Output Unit
  | [] => pure ()
  | item :: items => do
    Serializer.emit (separator isFirst)
    write item
    writeItems false items

def writePairs (isFirst : Bool) : List (Bytes × Tree) → Attended Cause Output Unit
  | [] => pure ()
  | (k, value) :: pairs => do
    Serializer.require (requireText codec k)
    Serializer.fold (.key k)
    Serializer.emit (separator isFirst ++ textForm k ++ [0x3A])
    write value
    writePairs false pairs

end

/-! ## Folding before writing -/

mutual

/-- Folds a tree and refuses what has no form. -/
def check : Tree → Folding Unit
  | .null => Folding.event .null
  | .bool b => Folding.event (.bool b)
  | .int i => Folding.event (.int i)
  | .uint u => Folding.event (.uint u)
  | .double bits => do
    require (requireFinite codec bits)
    Folding.event (.double bits)
  | .text octets => do
    require (requireText codec octets)
    Folding.event (.text octets)
  | .list items => do
    let count ← Folding.count items.length
    Folding.event (.beginList (some count))
    checkItems items
    Folding.event .endList
  | .map pairs => do
    let count ← Folding.count pairs.length
    Folding.event (.beginMap (some count))
    checkPairs ∅ pairs
    Folding.event .endMap

def checkItems : List Tree → Folding Unit
  | [] => pure ()
  | item :: items => do
    check item
    checkItems items

/-- Folds pairs, none of which may have one of the keys seen before or that of another. -/
def checkPairs (seen : Std.HashSet Bytes) : List (Bytes × Tree) → Folding Unit
  | [] => pure ()
  | (k, value) :: pairs => do
    require (requireText codec k)
    Folding.event (.key k)
    check value
    if seen.contains k then throw (.encode (.unrepresentable codec (.duplicateKey k)))
    checkPairs (seen.insert k) pairs

end

end TreeDigest.Json
