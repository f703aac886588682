import TreeDigest.Fold.Folder

/-!
# Codecs

A codec is one implementation of one format: a writer, which folds a tree while
it writes it, and a reader, which folds whatever it reads. It never sees what
the other side folded. Codecs of one format read each other's bytes, and that
their digests agree is what the library is for.
-/

namespace TreeDigest

/-- The formats documents are written in. -/
inductive Format where
  | json
  | messagePack
  | bson
  | ubjson
  deriving DecidableEq, Repr

namespace Format

def name : Format → String
  | .json => "JSON"
  | .messagePack => "MessagePack"
  | .bson => "BSON"
  | .ubjson => "UBJSON"

/-- The usual extension of a file of this format. -/
def extension : Format → String
  | .json => "json"
  | .messagePack => "mp"
  | .bson => "bson"
  | .ubjson => "ubj"

end Format

/-- The bytes of a document, and the digest that was folded while they were written. -/
structure Encoded where
  bytes : Bytes
  digest : Digest

/-- An implementation of a format. -/
structure Codec where
  name : String
  format : Format
  encode : Tree → FoldOptions → Except Error Encoded
  decode : Bytes → FoldOptions → Except Error Digest

end TreeDigest
