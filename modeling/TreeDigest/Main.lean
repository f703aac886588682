import Std.Time.Format
import TreeDigest.CommandLine.Run

/-!
# The program

The machine is the one the program runs on. A command that succeeds ends with
status 0, one that fails or stops at an error with 1, and arguments that are not
carried out with 2. Help and version are answers and not errors, and go to the
standard output.
-/

namespace TreeDigest.CommandLine

/-! ## The machine -/

/-- The fault behind a number of the system, which can be given with a minus, and its wording. -/
def DeviceFault.ofNumber (number : UInt32) (wording : String) : DeviceFault :=
  match number.toInt32.toInt.natAbs with
  | 2 => .missing
  | 17 => .inTheWay
  | 20 => .notFolder
  | 21 => .isFolder
  | number => .other number wording.capitalize

/-- The fault behind an error of the system. -/
def DeviceFault.ofError : IO.Error → DeviceFault
  | .alreadyExists _ number wording | .inappropriateType _ number wording
  | .interrupted _ number wording | .invalidArgument _ number wording
  | .noFileOrDirectory _ number wording | .noSuchThing _ number wording
  | .permissionDenied _ number wording | .resourceExhausted _ number wording
  | .hardwareFault number wording | .illegalOperation number wording
  | .otherError number wording | .protocolError number wording
  | .resourceBusy number wording | .resourceVanished number wording
  | .timeExpired number wording | .unsatisfiedConstraints number wording
  | .unsupportedOperation number wording => ofNumber number wording
  | .unexpectedEof => .other 5 "Input/output error"
  | .userError wording => .other 5 wording

/-- The result of an action, with the fault behind its error. -/
def faultOf {α : Type} (action : IO α) : IO (Except DeviceFault α) := do
  return match ← action.toBaseIO with
    | .ok a => .ok a
    | .error e => .error (.ofError e)

instance : Machine IO where
  readFile path := faultOf do return (← IO.FS.readBinFile path).toList
  writeFile path octets := faultOf (IO.FS.writeBinFile path ⟨octets.toArray⟩)
  makeFolder path := if path.isEmpty then pure (.ok ()) else faultOf (IO.FS.createDirAll path)
  isThere path := do ((← IO.currentDir) / path).pathExists
  isFolder path := do ((← IO.currentDir) / path).isDir
  names path := faultOf do
    let entries ← ((← IO.currentDir) / path).readDir
    return entries.toList.map fun entry => entry.fileName
  now := do
    let time : Std.Time.WallTime := .ofTimestamp (← Std.Time.Timestamp.now) .zero
    let dateAndTime : Std.Time.PlainDateTime := .ofWallTime time
    return dateAndTime.format "uuuu-MM-dd'T'HH:mm:ss.SSSSSSSSS" ++ "+00:00"
  print octets := do (← IO.getStdout).write ⟨octets.toArray⟩
  report text := do (← IO.getStderr).putStr text

/-! ## Texts about arguments -/

/-- How the program is called. -/
def usage : String :=
  "Usage: treedigest [-v] COMMAND [OPTION...]\n" ++
  "\n" ++
  "Commands:\n" ++
  "  formats   list the codecs and their formats\n" ++
  "  generate  encode a generated tree and write the octets\n" ++
  "  hash      decode files and print their digests\n" ++
  "  check     check that all codecs agree, at several sizes\n" ++
  "\n" ++
  "Options of generate:\n" ++
  "  --size N        how many nodes the tree may have (1000)\n" ++
  "  --seed N        seed of the generator (24301)\n" ++
  "  --codec NAME    codec to encode with\n" ++
  "  -o, --out FILE  file to write, instead of the standard output\n" ++
  "\n" ++
  "Options of hash:\n" ++
  "  --codec NAME         codec to decode with\n" ++
  "  -i, --input FILE...  files, or patterns of files\n" ++
  "\n" ++
  "Options of check:\n" ++
  "  --config FILE   plan in JSON; the options below replace parts of it\n" ++
  "  --sizes N,...   how many nodes the trees may have\n" ++
  "  --seed N        seed of the generator\n" ++
  "  --codec NAME    check this codec only; can be given several times\n" ++
  "  --report FILE   file to write the report to\n" ++
  "\n" ++
  "Options of generate, hash and check:\n" ++
  "  --fold-seed N       seed of the digests, decimal or 0x and hexadecimal\n" ++
  "  --key-order ORDER   preserve or sorted\n" ++
  "  --max-depth N       how many containers can be inside each other\n" ++
  "\n" ++
  "Options of all commands:\n" ++
  "  -v, --verbose   ask for more output; can be given several times\n" ++
  "  -h, --help      print this text\n" ++
  "  -V, --version   print the version, in place of a command\n"

/-- What is wrong with arguments. -/
def UsageError.message : UsageError → String
  | .helpWanted => "help was asked for"
  | .versionWanted => "the version was asked for"
  | .nothingGiven => "there are no arguments"
  | .missingCommand => "there is no command"
  | .unknownCommand => "there is no such command"
  | .unknownArgument => "there is an argument that the command does not take"
  | .missingArgument => "the command needs an argument that is not there"
  | .repeatedArgument => "an option was given twice that can be given once"
  | .invalidValue => "an option has no value, or none of those it can have"
  | .malformedValue => "the value of an option cannot be read"
  | .unneededValue => "there is a value for an option that takes none"

/-- Answers arguments that name no command to run. -/
def answerUsage : UsageError → IO UInt32
  | .helpWanted => do
    IO.print usage
    return 0
  | .versionWanted => do
    IO.println "treedigest 0.1.0"
    return 0
  | .nothingGiven => do
    IO.eprint usage
    return 2
  | e => do
    IO.eprintln ("error: " ++ e.message ++ "\n\n" ++ usage)
    return 2

end TreeDigest.CommandLine

open TreeDigest.CommandLine in
def main (args : List String) : IO UInt32 := do
  match Invocation.ofArguments args with
  | .error e => answerUsage e
  | .ok invocation =>
    let running : Running IO Bool := invocation.command.run
    match ← running.run with
    | .ok success => return if success then 0 else 1
    | .error e =>
      IO.eprintln ("error: " ++ e.chain)
      return 1
