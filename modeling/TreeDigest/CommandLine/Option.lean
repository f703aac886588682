/-!
# Arguments and options

The arguments of a command are options with their values; no command takes
anything else. An option has a long name, after two dashes, and perhaps a letter,
after one. Its value stands in the next argument, or in the same one: after an
equals sign, or right after the letter.

An option that was begun is held open until the next one begins, since some take
more than one value. Its values are looked at only then. An argument that is no
option is refused at once, so it is found before a bad value to the left of it.
-/

namespace TreeDigest.CommandLine

/-- Why arguments are not carried out. -/
inductive UsageError where
  /-- The help text was asked for. -/
  | helpWanted
  /-- The version was asked for. -/
  | versionWanted
  /-- There are no arguments at all. -/
  | nothingGiven
  | missingCommand
  | unknownCommand
  | unknownArgument
  | missingArgument
  /-- An option was given twice that can be given once. -/
  | repeatedArgument
  /-- There is no value, or it is none of those there are. -/
  | invalidValue
  /-- A value could not be read. -/
  | malformedValue
  /-- A value for an option that takes none. -/
  | unneededValue
  deriving DecidableEq, Repr

/-- An option of a command whose options are gathered in a `σ`. -/
structure Opt (σ : Type) where
  long : String
  letter : Option Char
  /-- Whether the command cannot do without it. -/
  isRequired : Bool
  /-- Whether it can be given more than once. -/
  isRepeatable : Bool
  /-- Whether it takes all values up to the next option. -/
  isGreedy : Bool
  set : List String → σ → Except UsageError σ

variable {σ : Type}

/-! ## The state between arguments -/

/-- What the arguments so far have come to. -/
structure Progress (σ : Type) where
  gathered : σ
  /-- The long names of the options given. -/
  given : List String
  /-- How often more output was asked for, if it was. -/
  verbosity : Option Nat
  /-- An option held open, with its values, newest first. -/
  pending : Option (Opt σ × List String)
  /-- Whether two dashes have ended the options. -/
  isClosed : Bool

namespace Progress

/-- Before the first argument. -/
def start (gathered : σ) : Progress σ := ⟨gathered, [], none, none, false⟩

/-- Takes an option with all its values. -/
def accept (p : Progress σ) (o : Opt σ) (values : List String) : Except UsageError (Progress σ) :=
  if values.isEmpty then .error .invalidValue
  else if !o.isRepeatable && p.given.contains o.long then .error .repeatedArgument
  else do
    let gathered ← o.set values p.gathered
    return { p with gathered, given := o.long :: p.given }

/-- Takes the option that is held open, if there is one. -/
def settle (p : Progress σ) : Except UsageError (Progress σ) :=
  match p.pending with
  | none => .ok p
  | some (o, values) => { p with pending := none }.accept o values.reverse

/-- Begins an option, with its value if that stands in the same argument. -/
def openOption (p : Progress σ) (o : Opt σ) (value : Option String) :
    Except UsageError (Progress σ) := do
  let p ← p.settle
  match value with
  | some value => p.accept o [value]
  | none => return { p with pending := some (o, []) }

/-- More output can be asked for this often; further requests count as the last. -/
def greatestVerbosity : Nat := 255

/-- Asks for more output. -/
def raise (p : Progress σ) : Except UsageError (Progress σ) := do
  let p ← p.settle
  return { p with verbosity := some (min (p.verbosity.getD 0 + 1) greatestVerbosity) }

/-- Asks for help. -/
def help (p : Progress σ) : Except UsageError (Progress σ) := do
  let _ ← p.settle
  throw .helpWanted

/-- Takes a value for the option that is held open, if it takes another one. -/
def value? (p : Progress σ) (value : String) : Option (Progress σ) :=
  match p.pending with
  | some (o, values) =>
    if o.isGreedy || values.isEmpty then some { p with pending := some (o, value :: values) }
    else none
  | none => none

end Progress

/-! ## Arguments -/

/-- How an argument looks. -/
inductive Argument where
  /-- Two dashes alone. -/
  | close
  | long (name : String) (value : Option String)
  /-- The characters after one dash. -/
  | letters (all : List Char)
  | plain

/-- Splits a text at its first equals sign. -/
def splitEquals (before : List Char) : List Char → List Char × Option (List Char)
  | [] => (before.reverse, none)
  | c :: rest => if c = '=' then (before.reverse, some rest) else splitEquals (c :: before) rest

/-- How an argument looks. A dash alone is a value like any other. -/
def Argument.of (argument : String) : Argument :=
  match argument.toList with
  | ['-', '-'] => .close
  | '-' :: '-' :: rest =>
    let (name, value) := splitEquals [] rest
    .long (String.ofList name) (value.map String.ofList)
  | '-' :: c :: rest => .letters (c :: rest)
  | _ => .plain

/-- The value that stands right after a letter: all that follows, without an equals sign. -/
def attached : List Char → Option String
  | [] => none
  | '=' :: rest => some (String.ofList rest)
  | rest => some (String.ofList rest)

/-- Letters after one dash: flags, and at most one option, which takes the rest. -/
def letters (options : List (Opt σ)) (p : Progress σ) : List Char → Except UsageError (Progress σ)
  | [] => .ok p
  | c :: rest =>
    if c = 'v' then do
      let p ← p.raise
      letters options p rest
    else if c = 'h' then p.help
    else
      match options.find? fun o => o.letter == some c with
      | some o => p.openOption o (attached rest)
      | none => .error .unknownArgument

/-- A long name, perhaps with a value in the same argument. -/
def long (options : List (Opt σ)) (p : Progress σ) (name : String) (value : Option String) :
    Except UsageError (Progress σ) :=
  if name = "verbose" then if value.isSome then .error .unneededValue else p.raise
  else if name = "help" then if value.isSome then .error .unneededValue else p.help
  else
    match options.find? fun o => o.long == name with
    | some o => p.openOption o value
    | none => .error .unknownArgument

/-- The next argument of a command. -/
def next (options : List (Opt σ)) (p : Progress σ) (argument : String) :
    Except UsageError (Progress σ) :=
  if p.isClosed then .error .unknownArgument
  else
    match Argument.of argument with
    | .close => .ok { p with isClosed := true }
    | .long name value => long options p name value
    | .letters all => letters options p all
    | .plain =>
      match p.value? argument with
      | some p => .ok p
      | none => .error .unknownArgument

/-- Reads all arguments of a command. -/
def readOptions (options : List (Opt σ)) (gathered : σ) (arguments : List String) :
    Except UsageError (Progress σ) := do
  let p ← arguments.foldlM (next options) (Progress.start gathered)
  let p ← p.settle
  if options.all fun o => !o.isRequired || p.given.contains o.long then return p
  else throw .missingArgument

end TreeDigest.CommandLine
