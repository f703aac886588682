import TreeDigest.CommandLine.Machine
import TreeDigest.CommandLine.Pattern

/-!
# Finding the files of a pattern

The parts of a pattern are matched against the folders on the way, from the
first on. Files are found in the order of their names, a folder before what is in
it; a name that only a part beginning with a point can mean, that of a folder
itself or of the one above it, comes before all others.

The search goes no deeper than any path can.
-/

namespace TreeDigest.CommandLine

/-- Why the files of a pattern could not be found. -/
inductive ExpansionError where
  | malformed (e : PatternError)
  | unlisted (path : String) (fault : DeviceFault)
  | noMatch (pattern : String)

def ExpansionError.message : ExpansionError → String
  | .malformed e => e.message
  | .unlisted path fault =>
    "attempting to read `" ++ path ++ "` resulted in an error: " ++ fault.message
  | .noMatch pattern => "glob pattern matched no files: " ++ pattern

/-- The path of a name in a folder. -/
def join (folder name : String) : String :=
  if folder.endsWith "/" then folder ++ name else folder ++ "/" ++ name

/-- The path of a name in a folder, which is left out if it is the one the search began in. -/
def inside (folder name : String) : String := if folder = "." then name else join folder name

/-- A search that is to go on, with what is found in a folder. -/
abbrev Search (m : Type → Type) := ExceptT ExpansionError m (List String)

section

variable {m : Type → Type} [Monad m] [Machine m]

/-- The names in a folder, in order. -/
def sortedNames (folder : String) : ExceptT ExpansionError m (List String) := do
  match ← Machine.names folder with
  | .ok names => return names.mergeSort fun a b => decide (a ≤ b)
  | .error fault => throw (.unlisted folder fault)

/-- What is found for each of some paths, one after the other. -/
def forEach (search : String → Search m) : List String → Search m
  | [] => return []
  | path :: paths => do
    let found ← search path
    return found ++ (← forEach search paths)

/-- Searches at every name in a folder. -/
def forChildren (search : String → String → Search m) (folder : String) : Search m := do
  forEach (fun name => search name (inside folder name)) (← sortedNames folder)

mutual

/--
Searches a path for the parts of a pattern that are left. All parts before them
have led to the path. `mustBeFolder` is whether only folders are looked for.
-/
def below (mustBeFolder : Bool) (path : String) :
    (fuel : Nat) → (parts : List Pattern) → Search m
  | 0, _ | _, [] => return []
  | fuel + 1, part :: parts => do
    let isFolder ← Machine.isFolder path
    let reached (path : String) : Search m := do
      if !parts.isEmpty then below mustBeFolder path fuel parts
      else if mustBeFolder && !(← Machine.isFolder path) then return []
      else return [path]
    match part.literal? with
    | some literal =>
      let name := String.ofList literal
      let next := inside path name
      if name = "." ∨ name = ".." then
        if isFolder then reached next else return []
      else if ← Machine.isThere next then reached next
      else return []
    | none =>
      if isFolder then
        let above ← match part with
          | .char '.' :: _ =>
            forEach (fun name => reached (join path name)) <|
              ["..", "."].filter fun name => part.matches name.toList
          | _ => pure []
        let children ← forChildren
          (fun name path => child mustBeFolder name path fuel (part :: parts)) path
        return above ++ children
      else return []

/-- Searches a name in a folder for the parts of a pattern, the first of which has to match it. -/
def child (mustBeFolder : Bool) (name path : String) :
    (fuel : Nat) → (parts : List Pattern) → Search m
  | 0, _ | _, [] => return []
  | fuel + 1, part :: parts => do
    if part.isFolders then
      match parts.dropWhile Pattern.isFolders with
      | [] =>
        if ← Machine.isFolder path then
          return path :: (← below mustBeFolder path fuel [part])
        else return []
      | next :: rest => do
        let here ← child mustBeFolder name path fuel (next :: rest)
        if ← Machine.isFolder path then
          return here ++ (← below mustBeFolder path fuel (part :: next :: rest))
        else return here
    else if part.matches name.toList then
      if !parts.isEmpty then below mustBeFolder path fuel parts
      else if mustBeFolder && !(← Machine.isFolder path) then return []
      else return [path]
    else return []

end

/-- More steps than there can be folders on a path. -/
def greatestDepth : Nat := 10000

/-- The parts of a pattern, between slashes; nothing follows a slash at the end. -/
def patternParts (text : List Char) : List (List Char) :=
  let parts := text.splitOnP (· == '/')
  if parts.getLast? == some [] then parts.dropLast else parts

/-- The files of a pattern. -/
def filesOf (pattern : String) : Search m := do
  let text := pattern.toList
  let read (text : List Char) : ExceptT ExpansionError m Pattern :=
    match Pattern.ofChars text with
    | .ok pattern => pure pattern
    | .error e => throw (.malformed e)
  let _ ← read text
  let relative := text.dropWhile (· == '/')
  let scope := if relative.length < text.length then "/" else "."
  let parts ← (patternParts relative).mapM read
  below (text.getLast? == some '/') scope greatestDepth parts

/-- The files that some names and patterns mean, in their order. -/
def expand : List String → Search m
  | [] => return []
  | input :: inputs => do
    let found ← if isPattern input then filesOf input else pure [input]
    if found.isEmpty then throw (.noMatch input)
    return found ++ (← expand inputs)

end

end TreeDigest.CommandLine
