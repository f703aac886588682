import TreeDigest.Input.Cursor
import TreeDigest.Fold.Folder

/-!
# Folding while reading

A streaming decoder has two states that move independently: a place in its input
and a fold under way. A step of it either reads or hands an event to the folder,
and whichever fails first ends the decoding.
-/

namespace TreeDigest

/-- A place in an input, of whatever kind, and a fold of what was read up to it. -/
structure Decoding (σ : Type) where
  input : σ
  folder : Folder

/-- A step of a streaming decoder. -/
abbrev Decoder (σ : Type) := EStateM Error (Decoding σ)

namespace Decoder

variable {σ ε α : Type}

/-- A step of reading, its failures turned into errors. -/
def reading (wrap : ε → Error) (step : EStateM ε σ α) : Decoder σ α := fun d =>
  match step d.input with
  | .ok a input => .ok a { d with input }
  | .error e input => .error (wrap e) { d with input }

/-- A step of reading octets. -/
def read (step : Reader α) : Decoder Cursor α := reading .decode step

/-- An event for the folder. -/
def fold (e : Event) : Decoder σ Unit := fun d =>
  match Folding.event e d.folder with
  | .ok _ folder => .ok () { d with folder }
  | .error e folder => .error e { d with folder }

/-- The octets that are left. -/
def rest : Decoder Cursor Bytes := return (← get).input.rest

/-- The digest of what was folded, if that is a whole document. -/
def finish : Decoder σ Digest := do
  match (← get).folder.finish with
  | .ok digest => return digest
  | .error e => throw e

/-- A decoder of one element, over a whole input. -/
def whole (step : Decoder Cursor Unit) : Decoder Cursor Digest := do
  step
  read Reader.finished
  finish

/-- Runs a decoder over an input with a fresh folder. -/
def run (step : Decoder σ α) (input : σ) (o : FoldOptions) : Except Error α :=
  match step ⟨input, Folder.start .decode o⟩ with
  | .ok a _ => .ok a
  | .error e _ => .error e

end Decoder

end TreeDigest
