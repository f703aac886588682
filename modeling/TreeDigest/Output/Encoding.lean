import TreeDigest.Output.Writer
import TreeDigest.Codec

/-!
# Folding while writing

An encoder has two states that move independently: the octets written and a fold
under way. A step of it either writes or hands an event to the folder, and
whichever fails first ends the encoding.
-/

namespace TreeDigest

/-- What was written so far, and the fold of it. -/
structure Encoding where
  output : Output
  folder : Folder

/-- A step of an encoder. -/
abbrev Encoder := EStateM Error Encoding

namespace Encoder

variable {α : Type}

/-- A step of writing. -/
def write (step : Writer α) : Encoder α := fun s =>
  match step s.output with
  | .ok a output => .ok a { s with output }
  | .error e output => .error (.encode e) { s with output }

/-- Writes octets. -/
def put (bytes : Bytes) : Encoder Unit := write (Writer.put bytes)

/-- An event for the folder. -/
def fold (e : Event) : Encoder Unit := fun s =>
  match Folding.event e s.folder with
  | .ok _ folder => .ok () { s with folder }
  | .error e folder => .error e { s with folder }

/-- The count of a container that is about to be declared. -/
def count (entries : Nat) : Encoder UInt32 :=
  match Folder.countOf entries with
  | .ok n => pure n
  | .error e => throw e

/-- Runs an encoder with a fresh folder and gives what it wrote and folded. -/
def run (step : Encoder Unit) (o : FoldOptions) : Except Error Encoded :=
  match step ⟨Output.empty, Folder.start .encode o⟩ with
  | .ok _ s =>
    match s.folder.finish with
    | .ok digest => .ok ⟨s.output.bytes, digest⟩
    | .error e => .error e
  | .error e _ => .error e

end Encoder

end TreeDigest
