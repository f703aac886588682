import TreeDigest.Generator
import TreeDigest.Check.Plan
import TreeDigest.Check.Report

/-!
# Checking codecs against each other

For each size of a plan one document is generated and folded in memory, which
gives the digest that all else has to reach. Then each codec writes each
document, and all codecs of its format that take part read what it wrote. A
digest that is not the expected one is a failure, and so is an error.
-/

namespace TreeDigest

/-- A generated document with the digest it is expected to have. -/
structure Sample where
  size : Nat
  tree : Tree
  reference : Except Error Digest

/-- The failure, if it is one, of a stage that had to reach a digest. -/
def Stage.failure? (stage : Stage) (codec : String) (expected : Digest) :
    Except Error Digest → Option Failure
  | .ok actual =>
    if actual = expected then none else some ⟨stage, codec, .mismatch expected actual⟩
  | .error e => some ⟨stage, codec, .error e⟩

/-- The failure, if it is one, of a codec that reads what another codec wrote. -/
def readFailure? (writer : Codec) (bytes : Bytes) (expected : Digest) (o : FoldOptions)
    (reader : Codec) : Option Failure :=
  let stage := if reader.name = writer.name then Stage.decode else Stage.crossDecode
  stage.failure? reader.name expected (reader.decode bytes o)

/-- Checks a codec on a document, with all codecs that take part. -/
def Sample.check (sample : Sample) (codecs : List Codec) (o : FoldOptions) (codec : Codec) : Pair :=
  let pair (reference : Option Digest) (length : Option Nat) (failures : List Failure) : Pair :=
    ⟨codec.name, sample.size, sample.tree.nodes, reference, length, failures⟩
  match sample.reference with
  | .error e => pair none none [⟨.reference, codec.name, .error e⟩]
  | .ok expected =>
    match codec.encode sample.tree o with
    | .error e => pair (some expected) none [⟨.encode, codec.name, .error e⟩]
    | .ok encoded =>
      let readers := codecs.filter fun reader => reader.format == codec.format
      pair (some expected) (some encoded.bytes.length) <|
        (Stage.encode.failure? codec.name expected (.ok encoded.digest)).toList ++
          readers.filterMap (readFailure? codec encoded.bytes expected o)

namespace Plan

/-- The documents of a plan. -/
def samples (plan : Plan) : List Sample :=
  plan.sizes.map fun size =>
    let tree := Generator.generate size plan.seed
    ⟨size, tree, foldTree tree plan.fold⟩

/-- Carries out a plan with some codecs. Pairs are grouped by the name of the codec. -/
def runWith (plan : Plan) (codecs : List Codec) : Report :=
  let samples := plan.samples
  let pairs := codecs.flatMap fun codec =>
    samples.map fun sample => sample.check codecs plan.fold codec
  let names := (codecs.map Codec.name).eraseDups
  { seed := plan.seed
    fold := plan.fold
    sizes := plan.sizes
    codecs := names.map fun name => (name, pairs.filter fun pair => pair.codec == name) }

/-- Carries out a plan. -/
def run (plan : Plan) : Report := plan.runWith plan.selected

end Plan

end TreeDigest
