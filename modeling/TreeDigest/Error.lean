import TreeDigest.Tree
import TreeDigest.MessagePack.Tag
import TreeDigest.Json.Fault
import TreeDigest.Text.Quoted

/-!
# What can go wrong

Three kinds of failure, told apart by where they come from. Writing fails when a
format has no form for a piece of content. Reading fails on bytes that are not a
document. A protocol violation is a caller's doing: the events of a fold came in
an order that no document has.

The types hold causes. The wording is in one place, at the end, and nothing else
depends on it.
-/

namespace TreeDigest

/-- Content that a format has no form for. -/
inductive Obstacle where
  /-- A string whose length the format cannot say. -/
  | longString (length : Nat)
  | longKey (length : Nat)
  | longList (length : Nat)
  | longMap (length : Nat)
  | longDocument (length : Nat)
  /-- A root of a kind that the format allows only below the root. -/
  | root (kind : Kind)
  /-- A root map that readers would take for a list. -/
  | listLikeRoot
  | unsigned (u : UInt64)
  | nulInKey (key : Bytes)
  | stringNotUtf8
  | keyNotUtf8
  | notUtf8 (fault : Utf8.Fault)
  | nonFinite (bits : UInt64)
  | duplicateKey (key : Bytes)

/-- Why a document could not be written. -/
inductive EncodeError where
  | unrepresentable (codec : String) (what : Obstacle)
  /-- What puts a form together has failed by itself. -/
  | serializer (codec : String) (cause : Json.Cause)
  | depthExceeded (limit : Nat)
  /-- Where the bytes were to go, something failed. -/
  | device (report : String)

/-- How bytes can be malformed. -/
inductive Defect where
  | keyNotText (found : MessagePack.Tag)
  | documentLength (length : Int)
  | overrun
  | earlyTerminator
  | unterminatedKey
  | stringLength (length : Int)
  | unterminatedString
  | boolOctet (octet : UInt8)
  | arrayKey (key : Bytes) (index : Nat)
  | expectedInteger (marker : UInt8)
  | negativeLength (length : Int)
  | textNotUtf8 (fault : Utf8.Fault)
  | typeWithoutCount
  | largeCount (count : Nat)

/-- Why bytes could not be read. -/
inductive DecodeError where
  | truncated (offset needed : Nat)
  | malformed (offset : Nat) (defect : Defect)
  | unsupportedType (offset : Nat) (marker : UInt8)
  | countMismatch (declared actual : UInt32)
  | depthExceeded (limit : Nat)
  | trailingBytes (remaining : Nat)
  | parser (codec : String) (fault : Json.Fault)

/-- The two kinds of container. -/
inductive Shape where
  | list
  | map
  deriving DecidableEq

/-- How a sequence of fold events can belong to no document. -/
inductive Violation where
  | valueWithoutKey
  | keyOutsideMap
  | keyAfterKey
  | danglingKey
  | mismatchedEnd (closed opened : Shape)
  | unbalancedEnd (closed : Shape)
  | afterRoot
  | unterminated (opened : Nat)
  | noRoot
  | countOverflow
  deriving DecidableEq

/-- Any failure of a fold, a writer or a reader. -/
inductive Error where
  | encode (e : EncodeError)
  | decode (e : DecodeError)
  | protocol (v : Violation)

/-! ## Wording -/

def Obstacle.message : Obstacle → String
  | .longString length => s!"a string of length {length}"
  | .longKey length => s!"a key of length {length}"
  | .longList length => s!"a list of length {length}"
  | .longMap length => s!"a map of length {length}"
  | .longDocument length => s!"a document of {length} bytes"
  | .root kind => "a " ++ kind.name ++ " root"
  | .listLikeRoot => "a root map whose first key is \"0\""
  | .unsigned u => s!"the unsigned integer {u.toNat}"
  | .nulInKey key => "the key " ++ Text.quotedBytes key ++ " containing a NUL byte"
  | .stringNotUtf8 => "a string that is not UTF-8"
  | .keyNotUtf8 => "a key that is not UTF-8"
  | .notUtf8 fault => "a non-UTF-8 string (" ++ fault.message ++ ")"
  | .nonFinite bits =>
    "the non-finite double " ++
      Bytes.toAscii (Decimal.Style.message.writeAny Binary.double bits.toNat)
  | .duplicateKey key => "the duplicate map key " ++ Text.quotedBytes key

/-- The wording for nesting beyond a limit, on either side. -/
def depthMessage (limit : Nat) : String := s!"nesting depth exceeds the limit of {limit}"

def EncodeError.message : EncodeError → String
  | .unrepresentable codec what => codec ++ " cannot represent " ++ what.message
  | .serializer codec cause => codec ++ ": serializer failed: " ++ cause.message
  | .depthExceeded limit => depthMessage limit
  | .device report => "i/o failure while emitting bytes: " ++ report

def Defect.message : Defect → String
  | .keyNotText found => "map key must be a string, found " ++ found.describe
  | .documentLength length => s!"document length {length} is below the minimum of 5"
  | .overrun => "element overruns its document"
  | .earlyTerminator => "document terminator before its declared end"
  | .unterminatedKey => "unterminated element key"
  | .stringLength length => s!"string length {length} is below the minimum of 1"
  | .unterminatedString => "string is not NUL-terminated"
  | .boolOctet octet => "boolean byte 0x" ++ Bytes.hexOctet octet
  | .arrayKey key index =>
    "array key " ++ Text.quotedBytes key ++ s!" where {index} was expected"
  | .expectedInteger marker => "expected an integer marker, found 0x" ++ Bytes.hexOctet marker
  | .negativeLength length => s!"negative length {length}"
  | .textNotUtf8 fault => "text is not UTF-8: " ++ fault.message
  | .typeWithoutCount => "typed container without a count"
  | .largeCount count => s!"container count {count} is too large"

def DecodeError.message : DecodeError → String
  | .truncated offset needed => s!"input truncated at offset {offset}: needed {needed} more byte(s)"
  | .malformed offset defect => s!"malformed input at offset {offset}: " ++ defect.message
  | .unsupportedType offset marker =>
    "unsupported type marker 0x" ++ Bytes.hexOctet marker ++ s!" at offset {offset}"
  | .countMismatch declared actual =>
    s!"container declared {declared.toNat} element(s) but produced {actual.toNat}"
  | .depthExceeded limit => depthMessage limit
  | .trailingBytes remaining => s!"{remaining} trailing byte(s) after the root value"
  | .parser codec fault => codec ++ ": parser failed: " ++ fault.message

def Shape.name : Shape → String
  | .list => "list"
  | .map => "map"

def Violation.message : Violation → String
  | .valueWithoutKey => "map value folded without a preceding key"
  | .keyOutsideMap => "key folded outside of a map"
  | .keyAfterKey => "two keys folded in a row"
  | .danglingKey => "map closed with a dangling key"
  | .mismatchedEnd closed opened =>
    "closed a " ++ closed.name ++ " while the innermost open container is a " ++ opened.name
  | .unbalancedEnd closed => "closed a " ++ closed.name ++ " with no container open"
  | .afterRoot => "event after the root value was complete"
  | .unterminated opened => s!"{opened} container(s) still open when the fold finished"
  | .noRoot => "fold finished without a root value"
  | .countOverflow => "container holds more than u32::MAX entries"

def Error.message : Error → String
  | .encode e => "encode error: " ++ e.message
  | .decode e => "decode error: " ++ e.message
  | .protocol v => "protocol violation: " ++ v.message

/-- The causes behind an error, nearest first, each in its own words. -/
def Error.sources : Error → List String
  | .encode (.serializer codec cause) => [(EncodeError.serializer codec cause).message, cause.message]
  | .encode (.device report) => [(EncodeError.device report).message, report]
  | .encode e => [e.message]
  | .decode (.parser codec fault) => [(DecodeError.parser codec fault).message, fault.message]
  | .decode e => [e.message]
  | .protocol v => [v.message]

/-- An error and the causes behind it, one after the other. -/
def Error.chain (e : Error) : String := ": ".intercalate (e.message :: e.sources)

end TreeDigest
