import TreeDigest.Ubjson.Element
import TreeDigest.Ubjson.Form

/-!
# The UBJSON codecs

Two bindings of one reader, which takes either framing, and of one writer, whose
framing differs.
-/

namespace TreeDigest.Ubjson

def encode (codec : String) (framing : Framing) (t : Tree) (o : FoldOptions) :
    Except Error Encoded :=
  Encoder.run (write codec framing false t) o

/-- The digest of an input, folded while it is read. -/
def decode (input : Bytes) (o : FoldOptions) : Except Error Digest :=
  Decoder.run (Decoder.whole (fold o.depthLimit)) (Cursor.start input) o

def closed : Codec where
  name := "ubjson"
  format := .ubjson
  encode := encode "ubjson" .closed
  decode := decode

def counted : Codec where
  name := "ubjson-counted"
  format := .ubjson
  encode := encode "ubjson-counted" .counted
  decode := decode

end TreeDigest.Ubjson
