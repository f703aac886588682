/-!
# The folder of a path

The folder in which a path has its last name is what stands before that name.
Separators at the end of a path, and points between them, do not count.
-/

namespace TreeDigest.CommandLine

/-- Takes separators, and points between them, from the end of a path, which is given in reverse. -/
def trimmed : List Char → List Char
  | '/' :: rest => trimmed rest
  | '.' :: '/' :: rest => trimmed rest
  | all => all

/-- The folder that a path leads to last, empty for a name alone; none if the path is no name. -/
def parent? (path : String) : Option String :=
  match trimmed path.toList.reverse with
  | [] => none
  | name =>
    match name.dropWhile (· != '/') with
    | [] => some ""
    | above =>
      match trimmed above with
      | [] => some "/"
      | above => some (String.ofList above.reverse)

end TreeDigest.CommandLine
