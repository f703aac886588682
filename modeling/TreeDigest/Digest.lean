import TreeDigest.Binary

/-!
# The digest of a document

A digest is one 32-bit word. Contents are absorbed one primitive at a time, each
as a tag followed by its payload in 32-bit words, and every word goes through the
same multiply-rotate step. So the word depends on the primitives, on their kinds
and on their order, and on nothing else: in particular not on the format that
carried them.

Two identifications are made on purpose. An unsigned integer in the signed range
is absorbed as a signed one, and every pattern that is not a number is absorbed
as the same one.
-/

namespace TreeDigest

/-- What can be absorbed into a digest in one go. -/
inductive Primitive where
  | null
  | bool (b : Bool)
  | int (i : Int64)
  | uint (u : UInt64)
  | double (bits : UInt64)
  | bytes (octets : Bytes)
  | count (n : UInt32)
  deriving DecidableEq

/-- The digest of what was absorbed so far. -/
structure Digest where
  word : UInt32
  deriving DecidableEq, Inhabited, Repr

namespace Digest

/-- The digest that folds start from unless told otherwise. -/
def defaultSeed : UInt32 := 0x2F4A8A41

/-- A word turned to the left by `k` places, for `k` strictly between 0 and 32. -/
def rotate (x k : UInt32) : UInt32 := (x <<< k) ||| (x >>> (32 - k))

/-- Absorbs one word. -/
def mix (d : Digest) (x : UInt32) : Digest :=
  let x := rotate (x * 0xCC9E2D51) 15 * 0x1B873593
  ⟨rotate (d.word ^^^ x) 13 * 5 + 0xE6546B64⟩

/-- Absorbs two words, the low one first. -/
def mixWide (d : Digest) (x : UInt64) : Digest :=
  (d.mix x.toUInt32).mix (x >>> 32).toUInt32

/-- Absorbs octets four to a word, least significant first, the last word padded with zeros. -/
def mixOctets (d : Digest) : Bytes → Digest
  | [] => d
  | a :: b :: c :: e :: rest => mixOctets (d.mix (Bytes.ofLittle [a, b, c, e]).toUInt32) rest
  | rest => d.mix (Bytes.ofLittle rest).toUInt32

/-- The pattern absorbed for every double that is not a number. -/
def canonicalNaN : UInt64 := 0x7FF8000000000000

/-- The pattern absorbed for a double. -/
def canonicalDouble (bits : UInt64) : UInt64 :=
  if Binary.double.isNaN bits.toNat then canonicalNaN else bits

/-- Absorbs one primitive: its tag, then its payload. -/
def absorb (d : Digest) : Primitive → Digest
  | .null => d.mix 1
  | .bool b => (d.mix 2).mix (if b then 1 else 0)
  | .int i => (d.mix 3).mixWide i.toUInt64
  | .uint u =>
    if u.toNat < 0x8000000000000000 then (d.mix 3).mixWide u else (d.mix 4).mixWide u
  | .double bits => (d.mix 5).mixWide (canonicalDouble bits)
  | .bytes octets => ((d.mix 6).mixWide octets.length.toUInt64).mixOctets octets
  | .count n => (d.mix 7).mix n

/-- A digest as eight lower-case hexadecimal digits. -/
def toHex (d : Digest) : String := Bytes.hex (Bytes.big 4 d.word.toNat)

end Digest

end TreeDigest
