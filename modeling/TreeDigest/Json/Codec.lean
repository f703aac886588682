import TreeDigest.Codec
import TreeDigest.Json.Element
import TreeDigest.Json.Form

/-!
# The JSON codecs

One codec folds while it writes and while it reads. The other goes through a
tree in which each key of a map occurs once: it refuses to write any other, and
folds what it has read from the tree, which knows its counts.
-/

namespace TreeDigest.Json

/-! ## Through the folder -/

/-- The form of a tree, folded while it is written. -/
def encodeStream (codec : String) (t : Tree) (o : FoldOptions) : Except Error Encoded := do
  let s ← Attended.run (fun cause => .encode (.serializer codec cause)) (write codec t) Output.empty
    .encode o
  return ⟨s.own.bytes, ← s.folder.finish⟩

/-- The digest of an input, folded while it is read. -/
def decodeStream (codec : String) (input : Bytes) (o : FoldOptions) : Except Error Digest := do
  let s ← Attended.run (fun fault => .decode (.parser codec fault)) Visitor.document
    (Cursor.start input) .decode o
  s.folder.finish

/-! ## Through a tree -/

/-- The form of a tree, written after it was folded. -/
def encodeTree (codec : String) (t : Tree) (o : FoldOptions) : Except Error Encoded :=
  match check codec t (Folder.start .encode o) with
  | .error e _ => .error e
  | .ok _ folder =>
    match serialize t Output.empty with
    | .error cause _ => .error (.encode (.serializer codec cause))
    | .ok _ output => do return ⟨output.bytes, ← folder.finish⟩

/-- The digest of an input, folded after it was read. -/
def decodeTree (codec : String) (input : Bytes) (o : FoldOptions) : Except Error Digest := do
  let t ← readTree codec input
  foldTreeOn .decode t o

/-! ## The codecs -/

def stream : Codec where
  name := "json-stream"
  format := .json
  encode := encodeStream "json-stream"
  decode := decodeStream "json-stream"

def dom : Codec where
  name := "json-dom"
  format := .json
  encode := encodeTree "json-dom"
  decode := decodeTree "json-dom"

end TreeDigest.Json
