import TreeDigest.Decimal.Written

/-!
# MessagePack tags

A tag is what the head of a MessagePack element says: a scalar with its payload,
or a container with the number of its entries. The string and the binary family
are one kind of tag, and so are all widths of one kind of number.
-/

namespace TreeDigest.MessagePack

/-- The head of an element, with the payload of a scalar. -/
inductive Tag where
  | null
  | bool (b : Bool)
  | int (i : Int64)
  | uint (u : UInt64)
  | single (bits : UInt32)
  | double (bits : UInt64)
  | text (octets : Bytes)
  | array (count : UInt32)
  | map (count : UInt32)
  deriving DecidableEq

/-- A tag as messages show it. -/
def Tag.describe : Tag → String
  | .null => "Nil"
  | .bool b => if b then "Bool(true)" else "Bool(false)"
  | .int i => s!"Int({i.toInt})"
  | .uint u => s!"UInt({u.toNat})"
  | .single bits => "Float(" ++ shown Binary.single bits.toNat ++ ")"
  | .double bits => "Double(" ++ shown Binary.double bits.toNat ++ ")"
  | .text octets => "Str(" ++ toString (octets.map UInt8.toNat) ++ ")"
  | .array count => s!"Array({count.toNat})"
  | .map count => s!"Map({count.toNat})"
where
  shown (layout : Binary.Layout) (bits : Nat) : String :=
    Bytes.toAscii (Decimal.Style.message.writeAny layout bits)

end TreeDigest.MessagePack
