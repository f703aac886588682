import TreeDigest.Json.Fault
import TreeDigest.Decimal.Written
import TreeDigest.Text.Quoted

/-!
# What can be wrong with settings

Settings are a JSON text of a known shape. They are refused if the text is not
JSON or not of that shape, and then the refusal says three things: the problem,
the place in the text, and the path from the root to the value in question.
-/

namespace TreeDigest.Settings

/-- What a value was found to be. -/
inductive Found where
  | null
  | bool (b : Bool)
  | integer (n : Int)
  | double (bits : UInt64)
  | text (octets : Bytes)
  | list
  | object

/-- The wording of what was found. -/
def Found.message : Found → String
  | .null => "null"
  | .bool b => s!"boolean `{b}`"
  | .integer n => s!"integer `{n}`"
  | .double bits =>
    "floating point `" ++
      Bytes.toAscii (Decimal.Style.document.writeFinite Binary.double bits.toNat) ++ "`"
  | .text octets => "string " ++ Text.quotedBytes octets
  | .list => "sequence"
  | .object => "map"

/-- Why a text is refused. -/
inductive Problem where
  | json (cause : Json.Cause)
  | wrongType (found : Found) (expected : String)
  | wrongValue (found : Found) (expected : String)
  | unknownField (name : Bytes) (fields : List String)
  | duplicateField (name : String)
  | unknownChoice (name : Bytes) (choices : List String)

/-- Names of which one was expected. -/
def oneOf (names : List String) : String :=
  match names with
  | [name] => s!"`{name}`"
  | [first, second] => s!"`{first}` or `{second}`"
  | names => "one of " ++ ", ".intercalate (names.map fun name => s!"`{name}`")

/-- The wording of a problem. -/
def Problem.message : Problem → String
  | .json cause => cause.message
  | .wrongType found expected => "invalid type: " ++ found.message ++ ", expected " ++ expected
  | .wrongValue found expected => "invalid value: " ++ found.message ++ ", expected " ++ expected
  | .unknownField name fields =>
    "unknown field `" ++ Utf8.toText name ++ "`, expected " ++ oneOf fields
  | .duplicateField name => s!"duplicate field `{name}`"
  | .unknownChoice name choices =>
    "unknown variant `" ++ Utf8.toText name ++ "`, expected " ++ oneOf choices

/-- A step from a value to a part of it. -/
inductive Segment where
  | item (index : Nat)
  | member (name : Bytes)
  /-- A member whose name could not be read. -/
  | unread

/-- The way from the root to a value. -/
abbrev Path := List Segment

/-- Whether a segment is set off from the one before it. -/
def Segment.isNamed : Segment → Bool
  | .item _ => false
  | _ => true

def Segment.message : Segment → String
  | .item index => s!"[{index}]"
  | .member name => Utf8.toText name
  | .unread => "?"

/-- The wording of a path; a point stands for the root, and before every name but the first segment. -/
def Path.message : Path → String
  | [] => "."
  | first :: rest =>
    rest.foldl (fun shown segment =>
      shown ++ (if segment.isNamed then "." else "") ++ segment.message) first.message

/-- A refusal: the value in question, the problem, and the place in the text. -/
structure Fault where
  path : Path
  problem : Problem
  place : Json.Place

/-- The wording of a refusal without its path. -/
def Fault.reason (fault : Fault) : String := fault.problem.message ++ fault.place.message

end TreeDigest.Settings
