import TreeDigest.Error
import TreeDigest.Fold.Options

/-!
# What came of a check

A check is made of pairs, one for each codec and each document. A pair passes if
nothing in it failed, and it says of each failure at which stage and by which
codec, since bytes are also read by codecs other than the one that wrote them.

A report is itself a document, so it is written in the same way as any other.
-/

namespace TreeDigest

/-- Where something failed. -/
inductive Stage where
  /-- Folding the document in memory. -/
  | reference
  | encode
  /-- Reading by the codec that wrote. -/
  | decode
  /-- Reading by another codec of the same format. -/
  | crossDecode
  deriving DecidableEq, Repr

/-- The name of a stage in messages and reports. -/
def Stage.name : Stage → String
  | .reference => "reference"
  | .encode => "encode"
  | .decode => "decode"
  | .crossDecode => "cross-decode"

/-- How a stage failed. -/
inductive Deviation where
  | mismatch (expected actual : Digest)
  | error (e : Error)

/-- A failure: the stage, and the codec that did it. -/
structure Failure where
  stage : Stage
  codec : String
  deviation : Deviation

def Failure.message (f : Failure) : String :=
  let subject := f.stage.name ++ " by " ++ f.codec ++ ": "
  match f.deviation with
  | .mismatch expected actual =>
    subject ++ "digest " ++ actual.toHex ++ ", expected " ++ expected.toHex
  | .error e => subject ++ e.message

/-- What came of one codec and one document. -/
structure Pair where
  codec : String
  /-- How many nodes were asked for. -/
  size : Nat
  /-- How many nodes the document has. -/
  nodes : Nat
  /-- The digest of the document, if it could be folded. -/
  reference : Option Digest
  /-- How many octets were written, if it could be written. -/
  length : Option Nat
  failures : List Failure

def Pair.passed (pair : Pair) : Bool := pair.failures.isEmpty

/-- What came of a check. -/
structure Report where
  seed : UInt64
  fold : FoldOptions
  sizes : List Nat
  /-- For each codec its pairs, in the order of the sizes. -/
  codecs : List (String × List Pair)

namespace Report

def pairs (report : Report) : List Pair := report.codecs.flatMap (·.2)

/-- Whether every pair passed. -/
def passed (report : Report) : Bool := report.pairs.all Pair.passed

/-- How many pairs did not pass. -/
def failedPairs (report : Report) : Nat := report.pairs.countP fun pair => !pair.passed

end Report

/-! ## Reports as documents -/

namespace Tree

/-- A text as a string of a document. -/
def ofString (text : String) : Tree := .text (Utf8.ofText text)

def ofNat (n : Nat) : Tree := .uint n.toUInt64

/-- A map with texts for keys. -/
def ofFields (fields : List (String × Tree)) : Tree :=
  .map (fields.map fun (name, value) => (Utf8.ofText name, value))

def ofOption {α : Type} (f : α → Tree) : Option α → Tree
  | some a => f a
  | none => .null

/-- A digest as a number. -/
def ofDigest (d : Digest) : Tree := .uint d.word.toUInt64

end Tree

def Deviation.fields : Deviation → List (String × Tree)
  | .mismatch expected actual =>
    [("kind", .ofString "mismatch"), ("expected", .ofDigest expected), ("actual", .ofDigest actual)]
  | .error e => [("kind", .ofString "error"), ("message", .ofString e.message)]

def Failure.toTree (f : Failure) : Tree :=
  .ofFields ([("stage", .ofString f.stage.name), ("codec", .ofString f.codec)] ++
    f.deviation.fields)

def Pair.toTree (pair : Pair) : Tree :=
  .ofFields [
    ("codec", .ofString pair.codec),
    ("size", .ofNat pair.size),
    ("nodes", .ofNat pair.nodes),
    ("reference", .ofOption .ofDigest pair.reference),
    ("encoded_len", .ofOption .ofNat pair.length),
    ("failures", .list (pair.failures.map Failure.toTree))]

def FoldOptions.toTree (o : FoldOptions) : Tree :=
  .ofFields [
    ("seed", .uint o.seed.toUInt64),
    ("key_order", .ofString o.keyOrder.name),
    ("max_depth", .ofNat o.maxDepth)]

/-- A report with the time at which the check began. -/
def Report.toTree (startedAt : String) (report : Report) : Tree :=
  .ofFields [
    ("started_at", .ofString startedAt),
    ("seed", .uint report.seed),
    ("fold", report.fold.toTree),
    ("sizes", .list (report.sizes.map .ofNat)),
    ("codecs", .ofFields (report.codecs.map fun (name, pairs) =>
      (name, .list (pairs.map Pair.toTree))))]

end TreeDigest
