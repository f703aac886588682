import TreeDigest.Bson.Form

/-!
# The BSON codecs

Two bindings of one writer and two readers: one folds while it goes over a
document, the other builds a tree first and folds that.
-/

namespace TreeDigest.Bson

def encode (codec : String) (t : Tree) (o : FoldOptions) : Except Error Encoded :=
  Encoder.run (write codec t) o

/-- The digest of an input, folded while it is read. -/
def decodeStream (input : Bytes) (o : FoldOptions) : Except Error Digest :=
  Decoder.run (Decoder.whole (fold o.depthLimit (rootIsArray input))) (Cursor.start input) o

/-- Reads an input as one tree. No depth beyond the ceiling is granted, whatever was asked for. -/
def readValue (input : Bytes) (maxDepth : Nat) : Except Error Tree :=
  readTree input (min maxDepth FoldOptions.depthCeiling)

/-- The digest of an input, folded after it was read. -/
def decodeTree (input : Bytes) (o : FoldOptions) : Except Error Digest := do
  let t ← readTree input o.depthLimit
  foldTree t o

def stream : Codec where
  name := "bson"
  format := .bson
  encode := encode "bson"
  decode := decodeStream

def built : Codec where
  name := "bson-doc"
  format := .bson
  encode := encode "bson-doc"
  decode := decodeTree

end TreeDigest.Bson
