/-!
# Patterns of file names

In a pattern a question mark stands for any character, a star for any characters,
and brackets for one of the characters in them, or, after an exclamation mark,
for one that is not in them. Two stars stand for any folders, also none, and have
to be a part of the path by themselves.

A pattern is read as a whole first, and then once more part by part, since a
slash always separates parts.
-/

namespace TreeDigest.CommandLine

/-- What brackets hold. -/
inductive CharRange where
  | one (c : Char)
  /-- The characters from one to another. -/
  | span (first last : Char)
  deriving DecidableEq

def CharRange.contains (range : CharRange) (c : Char) : Bool :=
  match range with
  | .one c' => c == c'
  | .span first last => first ≤ c && c ≤ last

/-- A part of a pattern. -/
inductive PatternToken where
  | char (c : Char)
  | anyChar
  | anyText
  | anyFolders
  | within (ranges : List CharRange)
  | except (ranges : List CharRange)
  deriving DecidableEq

/-- How a pattern is malformed. -/
inductive PatternDefect where
  | stars
  | folders
  | range
  deriving DecidableEq, Repr

/-- A defect and the place of it in the pattern, in characters. -/
structure PatternError where
  place : Nat
  defect : PatternDefect

def PatternDefect.message : PatternDefect → String
  | .stars => "wildcards are either regular `*` or recursive `**`"
  | .folders => "recursive wildcards must form a single path component"
  | .range => "invalid range pattern"

def PatternError.message (e : PatternError) : String :=
  s!"Pattern syntax error near position {e.place}: " ++ e.defect.message

/-! ## Reading -/

/-- What brackets with these characters hold. -/
def ranges : List Char → List CharRange
  | first :: '-' :: last :: rest => .span first last :: ranges rest
  | c :: rest => .one c :: ranges rest
  | [] => []

/-- The characters before the closing bracket, at least one, and those after it. -/
def bracketed : List Char → Option (List Char × List Char)
  | [] => none
  | c :: rest =>
    match rest.dropWhile (· != ']') with
    | [] => none
    | _ :: after => some (c :: rest.takeWhile (· != ']'), after)

/-- Reads brackets, after the opening one. -/
def brackets : List Char → Option (PatternToken × List Char)
  | '!' :: rest => (bracketed rest).map fun (inside, after) => (.except (ranges inside), after)
  | rest => (bracketed rest).map fun (inside, after) => (.within (ranges inside), after)

/--
Reads a pattern from a place on, at most one token for each element of `room`.
`before` is the character before the place.
-/
def readTokens (place : Nat) (before : Option Char) (read : List PatternToken) (text : List Char) :
    (room : List Char) → Except PatternError (List PatternToken)
  | [] => .ok read.reverse
  | _ :: room =>
    match text with
    | [] => .ok read.reverse
    | '?' :: rest => readTokens (place + 1) (some '?') (.anyChar :: read) rest room
    | '*' :: '*' :: '*' :: _ => .error ⟨place + 2, .stars⟩
    | '*' :: '*' :: rest =>
      if before = none ∨ before = some '/' then
        match rest with
        | [] => readTokens (place + 2) (some '*') (.anyFolders :: read) [] room
        | '/' :: rest => readTokens (place + 3) (some '/') (.anyFolders :: read) rest room
        | _ => .error ⟨place + 2, .folders⟩
      else .error ⟨place - 1, .folders⟩
    | '*' :: rest => readTokens (place + 1) (some '*') (.anyText :: read) rest room
    | '[' :: rest =>
      match brackets rest with
      | some (token, after) =>
        readTokens (place + (text.length - after.length)) (some ']') (token :: read) after room
      | none => .error ⟨place, .range⟩
    | c :: rest => readTokens (place + 1) (some c) (.char c :: read) rest room

/-- A pattern for names without a slash. -/
abbrev Pattern := List PatternToken

/-- Reads a pattern. -/
def Pattern.ofChars (text : List Char) : Except PatternError Pattern :=
  readTokens 0 none [] text text

/-- Whether a text is to be taken for a pattern. -/
def isPattern (text : String) : Bool := text.toList.any fun c => c == '*' || c == '?' || c == '['

/-! ## Matching -/

/-- Whether a token stands for a character. -/
def PatternToken.accepts (c : Char) : PatternToken → Bool
  | .char c' => c == c'
  | .anyChar => true
  | .within ranges => ranges.any fun range => range.contains c
  | .except ranges => !ranges.any fun range => range.contains c
  | .anyText | .anyFolders => false

/-- Whether a pattern matches some ending of a name, all of it included. -/
def matchesEnding (rest : List Char → Bool) : List Char → Bool
  | [] => rest []
  | c :: name => rest (c :: name) || matchesEnding rest name

/-- Whether a pattern matches a name. -/
def Pattern.matches : Pattern → List Char → Bool
  | [], name => name.isEmpty
  | .anyText :: rest, name | .anyFolders :: rest, name => matchesEnding (Pattern.matches rest) name
  | token :: rest, c :: name => token.accepts c && Pattern.matches rest name
  | _ :: _, [] => false

/-- The only name that a pattern matches, if it consists of characters alone. -/
def Pattern.literal? (pattern : Pattern) : Option (List Char) :=
  pattern.mapM fun
    | .char c => some c
    | _ => none

/-- Whether a pattern stands for any folders. -/
def Pattern.isFolders (pattern : Pattern) : Bool := pattern.contains .anyFolders

end TreeDigest.CommandLine
