import TreeDigest.MessagePack.Element
import TreeDigest.MessagePack.Form

/-!
# The MessagePack codecs

Three bindings of one writer and two readers: a compact and a wide writer, both
with the reader that folds as it goes, and the compact writer once more with the
reader that builds a tree first and folds that.
-/

namespace TreeDigest.MessagePack

def encode (codec : String) (widths : Widths) (t : Tree) (o : FoldOptions) :
    Except Error Encoded :=
  Encoder.run (write codec widths t) o

/-- The digest of an input, folded while it is read. -/
def decodeStream (input : Bytes) (o : FoldOptions) : Except Error Digest :=
  Decoder.run (Decoder.whole (fold o.depthLimit)) (Cursor.start input) o

/-- Reads an input as one tree. No depth beyond the ceiling is granted, whatever was asked for. -/
def readValue (input : Bytes) (maxDepth : Nat) : Except Error Tree :=
  readTree input (min maxDepth FoldOptions.depthCeiling)

/-- The digest of an input, folded after it was read. -/
def decodeTree (input : Bytes) (o : FoldOptions) : Except Error Digest := do
  let t ← readTree input o.depthLimit
  foldTree t o

def compact : Codec where
  name := "msgpack"
  format := .messagePack
  encode := encode "msgpack" .compact
  decode := decodeStream

def wide : Codec where
  name := "msgpack-wide"
  format := .messagePack
  encode := encode "msgpack-wide" .wide
  decode := decodeStream

def node : Codec where
  name := "msgpack-node"
  format := .messagePack
  encode := encode "msgpack-node" .compact
  decode := decodeTree

end TreeDigest.MessagePack
