import TreeDigest.Check.Matrix
import TreeDigest.Json.Pretty
import TreeDigest.CommandLine.Command
import TreeDigest.CommandLine.Expansion
import TreeDigest.CommandLine.Path

/-!
# Running commands

A command ends in one of three ways: it succeeds, it fails after having said what
failed, or it stops at an error. Digests and reports go to the standard output;
what went wrong with single files, and the digest of a document that was written,
go to the standard error output.
-/

namespace TreeDigest.CommandLine

/-! ## Errors -/

/-- Why a command stopped. -/
inductive CommandError where
  | unknownCodec (name : String)
  | plan (e : PlanError)
  | unwritable (codec : String) (size : Nat) (e : Error)
  | inputs (e : ExpansionError)
  | folderNotMade (path : String) (fault : DeviceFault)
  | fileNotWritten (path : String) (fault : DeviceFault)

/-- An error and the causes behind it, one after the other. -/
def CommandError.chain : CommandError → String
  | .unknownCodec name =>
    "unknown codec " ++ Text.quoted name ++ "; expected one of: " ++ ", ".intercalate Codec.names
  | .plan e => e.chain
  | .unwritable codec size e => s!"{codec} failed to encode a tree of size {size}: " ++ e.chain
  | .inputs e => "failed to resolve input file paths: " ++ e.message
  | .folderNotMade path fault => "failed to create " ++ path ++ ": " ++ fault.message
  | .fileNotWritten path fault => "failed to write " ++ path ++ ": " ++ fault.message

/-- Why a file has no digest. -/
inductive FileError where
  | unread (path : String) (fault : DeviceFault)
  | undecoded (e : Error)

/-- An error and the causes behind it, one after the other. -/
def FileError.chain : FileError → String
  | .unread path fault => "failed to read " ++ path ++ ": " ++ fault.message
  | .undecoded e => e.chain

/-! ## Parameters -/

/-- The codec of a name. -/
def codecOf (name : String) : Except CommandError Codec :=
  match Codec.ofName? name with
  | some codec => .ok codec
  | none => .error (.unknownCodec name)

/-- Parameters of a fold with those that were given in place of some of them. -/
def FoldChoices.over (choices : FoldChoices) (o : FoldOptions) : FoldOptions where
  seed := choices.seed.getD o.seed
  keyOrder := choices.keyOrder.getD o.keyOrder
  maxDepth := choices.maxDepth.getD o.maxDepth

/-- Replaces parameters of a fold by those that were given. -/
def FoldChoices.apply (choices : FoldChoices) (o : FoldOptions) : Except PlanError FoldOptions := do
  let o := choices.over o
  o.validate
  return o

/-- Replaces parts of a plan by those that were given. -/
def CheckCommand.apply (c : CheckCommand) (plan : Plan) : Except PlanError Plan := do
  let plan : Plan :=
    { sizes := c.sizes.getD plan.sizes
      seed := c.seed.getD plan.seed
      codecs := if c.codecs.isEmpty then plan.codecs else c.codecs
      fold := ← c.fold.apply plan.fold }
  plan.validate
  return plan

/-! ## Texts -/

/-- A text with blanks after it, up to a width. -/
def padded (width : Nat) (text : String) : String :=
  String.ofList (text.toList ++ List.replicate (width - text.length) ' ')

/-- A codec as it is listed. -/
def codecLine (codec : Codec) : String :=
  padded 14 codec.name ++ " " ++ codec.format.name ++ " ." ++ codec.format.extension ++ "\n"

/-- What came of a pair, and a line for each failure. -/
def pairLines (pair : Pair) : String :=
  let status := if pair.passed then "PASS " else "FAIL "
  let digest := (pair.reference.map Digest.toHex).getD "--------"
  let length := (pair.length.map toString).getD "-"
  let failures := pair.failures.map fun f => "     " ++ f.message ++ "\n"
  status ++ padded 14 pair.codec ++
    " size=" ++ padded 6 (toString pair.size) ++
    " nodes=" ++ padded 6 (toString pair.nodes) ++
    " digest=" ++ digest ++ " bytes=" ++ length ++ "\n" ++ String.join failures

/-- What came of all pairs. -/
def reportLines (report : Report) : String :=
  let total := report.pairs.length
  String.join (report.pairs.map pairLines) ++
    s!"{total - report.failedPairs} of {total} pair(s) passed\n"

/-! ## Commands -/

/-- A command that is being run: whether it succeeds, unless it stops. -/
abbrev Running (m : Type → Type) := ExceptT CommandError m

section

variable {m : Type → Type} [Monad m] [Machine m]

/-- Prints a text. -/
def printText (text : String) : Running m Unit := Machine.print (Utf8.ofText text)

/-- Goes on with a result, or stops at its error. -/
def orStop {ε α : Type} (wrap : ε → CommandError) : Except ε α → Running m α
  | .ok a => pure a
  | .error e => throw (wrap e)

/-- Writes a file, in a folder that is made if it is not there. -/
def writeOut (path : String) (octets : Bytes) : Running m Unit := do
  match parent? path with
  | some folder => orStop (.folderNotMade folder) (← Machine.makeFolder folder)
  | none => pure ()
  orStop (.fileNotWritten path) (← Machine.writeFile path octets)

/-- Lists the codecs. -/
def runFormats : Running m Bool := do
  printText (String.join (Codec.all.map codecLine))
  return true

/-- Writes a generated document. -/
def GenerateCommand.run (c : GenerateCommand) : Running m Bool := do
  let codec ← orStop id (codecOf c.codec)
  let o ← orStop .plan (c.fold.apply {})
  let encoded ← orStop (.unwritable codec.name c.size)
    (codec.encode (Generator.generate c.size c.seed) o)
  match c.out with
  | some path => writeOut path encoded.bytes
  | none => Machine.print encoded.bytes
  Machine.report (encoded.digest.toHex ++ "\n")
  return true

/-- The digest of a file. -/
def digestOf (codec : Codec) (o : FoldOptions) (path : String) :
    Running m (Except FileError Digest) := do
  match ← Machine.readFile path with
  | .error fault => return .error (.unread path fault)
  | .ok octets =>
    match codec.decode octets o with
    | .ok digest => return .ok digest
    | .error e => return .error (.undecoded e)

/-- Prints the digests of files, and counts those that have none on top of `failed`. -/
def printDigests (codec : Codec) (o : FoldOptions) (failed : Nat) : List String → Running m Nat
  | [] => return failed
  | path :: paths => do
    match ← digestOf codec o path with
    | .ok digest =>
      printText (digest.toHex ++ "  " ++ path ++ "\n")
      printDigests codec o failed paths
    | .error e =>
      Machine.report ("FAIL " ++ path ++ ": " ++ e.chain ++ "\n")
      printDigests codec o (failed + 1) paths

/-- Prints the digests of files. -/
def HashCommand.run (c : HashCommand) : Running m Bool := do
  let codec ← orStop id (codecOf c.codec)
  let o ← orStop .plan (c.fold.apply {})
  let search : Search m := expand c.inputs
  let paths ← orStop .inputs (← (search.run : m (Except ExpansionError (List String))))
  let failed ← printDigests codec o 0 paths
  if failed = 0 then return true
  else
    Machine.report s!"{failed} of {paths.length} file(s) failed\n"
    return false

/-- The plan in a file. -/
def readPlan (path : String) : Running m Plan := do
  match ← Machine.readFile path with
  | .error fault => throw (.plan (.unreadable path fault.message))
  | .ok octets => do
    let plan ← orStop .plan (Plan.ofBytes octets)
    orStop .plan plan.validate
    return plan

/-- What a check is told: a plan from a file, or the default one, with what replaces parts of it. -/
def CheckCommand.plan (c : CheckCommand) : Running m Plan := do
  let base ← match c.config with
    | some path => readPlan path
    | none => pure {}
  orStop .plan (c.apply base)

/-- Checks codecs against each other. -/
def CheckCommand.run (c : CheckCommand) : Running m Bool := do
  let plan ← c.plan
  let startedAt ← Machine.now
  let report := plan.run
  printText (reportLines report)
  match c.report with
  | some path => writeOut path (Json.pretty (report.toTree startedAt))
  | none => pure ()
  return report.passed

/-- Runs a command. -/
def Command.run : Command → Running m Bool
  | .formats => runFormats
  | .generate c => c.run
  | .hash c => c.run
  | .check c => c.run

end

end TreeDigest.CommandLine
