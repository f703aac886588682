import TreeDigest.Fold.Folder
import TreeDigest.Json.Fault

/-!
# A fold beside a serializer or a parser

What writes and what reads JSON knows failures of its own kind only, and a fold that
goes on beside it fails with errors of another. Such an error is noted next to the
folder, and the step gives up with a cause that says no more than that. Whoever ran the
step looks at the note before anything else, so it is the error of the fold that comes
out. Only the first error is noted.
-/

namespace TreeDigest.Json

/-- What a step works on itself, the fold beside it, and the first error that was noted. -/
structure WithFold (σ : Type) where
  own : σ
  folder : Folder
  noted : Option Error

/-- Notes an error, if none was noted before. -/
def WithFold.note {σ : Type} (s : WithFold σ) (e : Error) : WithFold σ :=
  { s with noted := s.noted.or (some e) }

/-- A step with a fold beside it. -/
abbrev Attended (ε σ : Type) := EStateM ε (WithFold σ)

namespace Attended

variable {ε σ α : Type}

/-- A step that leaves the fold alone. -/
def own (step : EStateM ε σ α) : Attended ε σ α := fun s =>
  match step s.own with
  | .ok a own => .ok a { s with own }
  | .error cause own => .error cause { s with own }

/-- Gives up because of an error, which is noted. -/
def giveUp (cause : σ → ε) (e : Error) : Attended ε σ α := fun s => .error (cause s.own) (s.note e)

/-- An event for the folder. If that refuses it, the step gives up. -/
def fold (cause : σ → ε) (e : Event) : Attended ε σ Unit := fun s =>
  match Folding.event e s.folder with
  | .ok _ folder => .ok () { s with folder }
  | .error e folder => giveUp cause e { s with folder }

/-- What comes of a step that has ended: the error that was noted, or else its own end. -/
def outcome (wrap : ε → Error) : EStateM.Result ε (WithFold σ) α → Except Error (WithFold σ)
  | .ok _ s =>
    match s.noted with
    | some e => .error e
    | none => .ok s
  | .error cause s =>
    match s.noted with
    | some e => .error e
    | none => .error (wrap cause)

/-- Runs a step with a fresh fold beside it. -/
def run (wrap : ε → Error) (step : Attended ε σ α) (own : σ) (side : Side) (o : FoldOptions) :
    Except Error (WithFold σ) :=
  outcome wrap (step ⟨own, Folder.start side o, none⟩)

end Attended

end TreeDigest.Json
