import TreeDigest.Json.Codec
import TreeDigest.MessagePack.Codec
import TreeDigest.Bson.Codec
import TreeDigest.Ubjson.Codec

/-!
# The codecs there are

Nine codecs of four formats, in the order in which they are listed and run.
-/

namespace TreeDigest.Codec

/-- Every codec. -/
def all : List Codec :=
  [Json.stream, Json.dom, MessagePack.compact, MessagePack.wide, MessagePack.node, Bson.stream,
    Bson.built, Ubjson.closed, Ubjson.counted]

/-- The codec of a name. -/
def ofName? (name : String) : Option Codec := all.find? fun codec => codec.name == name

/-- The names of all codecs. -/
def names : List String := all.map Codec.name

/-- The codecs of a format. -/
def ofFormat (format : Format) : List Codec := all.filter fun codec => codec.format == format

end TreeDigest.Codec
