import TreeDigest.Fold.Options
import TreeDigest.CommandLine.Option

/-!
# The commands

There are four: listing the codecs, writing a generated document, printing the
digests of files, and checking codecs against each other. Before the name of the
command stand only flags, which can also stand after it: what is said last about
the amount of output counts.
-/

namespace TreeDigest.CommandLine

/-! ## What commands are told -/

/-- Parameters of a fold, as far as they were given. -/
structure FoldChoices where
  seed : Option UInt32 := none
  keyOrder : Option KeyOrder := none
  maxDepth : Option Nat := none

/-- What to generate and where to write it. -/
structure GenerateCommand where
  size : Nat := 1000
  seed : UInt64 := 24301
  codec : String := ""
  /-- The file to write; the standard output if there is none. -/
  out : Option String := none
  fold : FoldChoices := {}

/-- Which files to read. -/
structure HashCommand where
  codec : String := ""
  /-- Files, or patterns of files. -/
  inputs : List String := []
  fold : FoldChoices := {}

/-- What to check: a plan from a file, and what replaces parts of it. -/
structure CheckCommand where
  config : Option String := none
  sizes : Option (List Nat) := none
  seed : Option UInt64 := none
  codecs : List String := []
  fold : FoldChoices := {}
  /-- The file to write the report to. -/
  report : Option String := none

inductive Command where
  | formats
  | generate (c : GenerateCommand)
  | hash (c : HashCommand)
  | check (c : CheckCommand)

/-- A command and how much output was asked for. -/
structure Invocation where
  verbosity : Nat
  command : Command

/-! ## Values -/

/-- The number of some digits in a base, which can have a plus before them. -/
def unsigned (base : Nat) (text : List Char) : Option Nat :=
  let digits := match text with
    | '+' :: rest => rest
    | all => all
  if digits.isEmpty then none
  else
    digits.foldlM (fun n c => do
      let digit ← Bytes.hexDigit? c.toNat.toUInt8
      if c.toNat < 128 ∧ digit < base then some (base * n + digit) else none) 0

/-- A value that was read, if it is below a bound. -/
def bounded (bound : Nat) : Option Nat → Except UsageError Nat
  | some n => if n < bound then .ok n else .error .malformedValue
  | none => .error .malformedValue

/-- A number below a bound. -/
def number (bound : Nat) (value : String) : Except UsageError Nat :=
  bounded bound (unsigned 10 value.toList)

/-- A seed of 32 bits, in decimal, or in hexadecimal after a mark. -/
def foldSeed (value : String) : Except UsageError UInt32 := do
  let n ← bounded UInt32.size <| match value.toList with
    | '0' :: 'x' :: rest | '0' :: 'X' :: rest => unsigned 16 rest
    | all => unsigned 10 all
  return n.toUInt32

/-- The name of a key order. -/
def keyOrder (value : String) : Except UsageError KeyOrder :=
  match [KeyOrder.preserve, .sorted].find? fun order => order.name == value with
  | some order => .ok order
  | none => .error .invalidValue

/-- The name of a file. -/
def file (value : String) : Except UsageError String :=
  if value.isEmpty then .error .invalidValue else .ok value

/-- Any text. -/
def anything (value : String) : Except UsageError String := .ok value

/-! ## Options -/

/-- An option for one value, which can be given once. -/
def single {σ α : Type} (long : String) (letter : Option Char) (isRequired : Bool)
    (read : String → Except UsageError α) (set : α → σ → σ) : Opt σ where
  long := long
  letter := letter
  isRequired := isRequired
  isRepeatable := false
  isGreedy := false
  set values gathered :=
    values.foldlM (fun gathered value => return set (← read value) gathered) gathered

/-- An option for values that are gathered, however often it is given. -/
def gathering {σ : Type} (long : String) (letter : Option Char) (isRequired isGreedy : Bool)
    (add : List String → σ → Except UsageError σ) : Opt σ where
  long := long
  letter := letter
  isRequired := isRequired
  isRepeatable := true
  isGreedy := isGreedy
  set := add

/-- The options for the parameters of a fold. -/
def foldOptions {σ : Type} (change : (FoldChoices → FoldChoices) → σ → σ) : List (Opt σ) :=
  [ single "fold-seed" none false foldSeed fun seed =>
      change fun fold => { fold with seed := some seed },
    single "key-order" none false keyOrder fun order =>
      change fun fold => { fold with keyOrder := some order },
    single "max-depth" none false (number UInt64.size) fun depth =>
      change fun fold => { fold with maxDepth := some depth } ]

def generateOptions : List (Opt GenerateCommand) :=
  [ single "size" none false (number UInt64.size) fun size c => { c with size },
    single "seed" none false (number UInt64.size) fun seed c => { c with seed := seed.toUInt64 },
    single "codec" none true anything fun codec c => { c with codec },
    single "out" (some 'o') false file fun out c => { c with out := some out } ] ++
  foldOptions fun change c => { c with fold := change c.fold }

def hashOptions : List (Opt HashCommand) :=
  [ single "codec" none true anything fun codec c => { c with codec },
    gathering "input" (some 'i') true true fun values c =>
      .ok { c with inputs := c.inputs ++ values } ] ++
  foldOptions fun change c => { c with fold := change c.fold }

/-- The numbers in some values, several in one if commas are between them. -/
def sizes (values : List String) : Except UsageError (List Nat) :=
  (values.flatMap fun value => value.splitOn ",").mapM (number UInt64.size)

def checkOptions : List (Opt CheckCommand) :=
  [ single "config" none false file fun config c => { c with config := some config },
    gathering "sizes" none false false fun values c => do
      return { c with sizes := some (c.sizes.getD [] ++ (← sizes values)) },
    single "seed" none false (number UInt64.size) fun seed c =>
      { c with seed := some seed.toUInt64 },
    gathering "codec" none false false fun values c =>
      .ok { c with codecs := c.codecs ++ values },
    single "report" none false file fun report c => { c with report := some report } ] ++
  foldOptions fun change c => { c with fold := change c.fold }

/-! ## Invocations -/

/-- The names of the commands. -/
def commandNames : List String := ["formats", "generate", "hash", "check"]

/-- A command with its arguments, after what was said before it about the amount of output. -/
def invocation (name : String) (verbosity : Option Nat) (arguments : List String) :
    Except UsageError Invocation :=
  let finish {σ : Type} (command : σ → Command) (p : Progress σ) : Invocation :=
    ⟨(p.verbosity.or verbosity).getD 0, command p.gathered⟩
  if name = "generate" then finish .generate <$> readOptions generateOptions {} arguments
  else if name = "hash" then finish .hash <$> readOptions hashOptions {} arguments
  else if name = "check" then finish .check <$> readOptions checkOptions {} arguments
  else finish (fun () => .formats) <$> readOptions [] () arguments

/-- What asking for help on a command comes to. -/
def helpOn : List String → UsageError
  | [] => .helpWanted
  | [name] => if (commandNames ++ ["help"]).contains name then .helpWanted else .unknownCommand
  | _ => .unknownCommand

/-- Letters after one dash, before the command. -/
def rootLetters (p : Progress Unit) : List Char → Except UsageError (Progress Unit)
  | [] => .ok p
  | c :: rest =>
    if c = 'v' then do
      let p ← p.raise
      rootLetters p rest
    else if c = 'h' then .error .helpWanted
    else if c = 'V' then .error .versionWanted
    else .error .unknownArgument

/-- A long name before the command. -/
def rootLong (p : Progress Unit) (name : String) (value : Option String) :
    Except UsageError (Progress Unit) :=
  if name = "version" then .error (if value.isSome then .unneededValue else .versionWanted)
  else long [] p name value

/-- Reads the arguments up to the command, and the command. -/
def readCommand (p : Progress Unit) : List String → Except UsageError Invocation
  | [] => .error (if p.verbosity.isSome then .missingCommand else .nothingGiven)
  | argument :: rest =>
    let isCommand := commandNames.contains argument
    if p.isClosed then
      .error (if isCommand || argument == "help" then .unknownArgument else .unknownCommand)
    else if isCommand then invocation argument p.verbosity rest
    else if argument = "help" then .error (helpOn rest)
    else
      match Argument.of argument with
      | .close => readCommand { p with isClosed := true } rest
      | .long name value => do readCommand (← rootLong p name value) rest
      | .letters all => do readCommand (← rootLetters p all) rest
      | .plain => .error .unknownCommand

/-- Reads the arguments of the program. -/
def Invocation.ofArguments (arguments : List String) : Except UsageError Invocation :=
  readCommand (Progress.start ()) arguments

end TreeDigest.CommandLine
