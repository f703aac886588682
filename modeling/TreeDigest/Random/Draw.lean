import TreeDigest.Binary
import TreeDigest.Random.Source

/-!
# Drawing from ranges

A number below `n` is drawn by scaling a word: the word times `n` has the number
as its high half. The low half says whether the word is kept, since without that
some numbers would be likelier than others; of the low halves those up to a
`zone` are kept. How the zone is chosen is part of what a seed means.

Each word is kept with a chance of at least one half. Nothing bounds how many may
have to be drawn before one is kept, so a draw gives up after many attempts and takes
zero. What is drawn is that of a draw without a bound whenever one of those words is
kept.
-/

namespace TreeDigest.Random

/-- A step that draws. -/
abbrev Draw := StateM Source

/-- A word of 32 bits, as a number. -/
def word : Draw Nat := fun s =>
  let (w, s) := s.next
  (w.toNat, s)

/-- A word of 64 bits, as a number: two words of 32, the low one first. -/
def wide : Draw Nat := do
  let low ← word
  let high ← word
  return low + 0x100000000 * high

/-- True with a chance of `part / 2 ^ 64`. -/
def chance (part : Nat) : Draw Bool := return decide ((← wide) < part)

/-- How many words a draw tries. -/
def attempts : Nat := 256

/--
A number below `n`: the high half of the first of so many words whose low half is up to
`zone`. If no word has one, it is zero, and later words are not looked at.
-/
def scaled (draw : Draw Nat) (bits zone n : Nat) : (attempts : Nat) → Draw Nat
  | 0 => pure 0
  | attempts + 1 => do
    let product := (← draw) * n
    if product % Nat.pow 2 bits ≤ zone then return product / Nat.pow 2 bits
    else scaled draw bits zone n attempts

/-- The zone that is the greatest shift of `n` within some bits, less one. -/
def shiftedZone (bits n : Nat) : Nat := n * Nat.pow 2 (bits - 1 - Nat.log2 n) - 1

/-- The zone that is the greatest multiple of `n` within some bits, less one. -/
def multipleZone (bits n : Nat) : Nat := Nat.pow 2 bits - 1 - (Nat.pow 2 bits - n) % n

/-- A number below `n`, from words of 64 bits. -/
def below (n : Nat) : Draw Nat := scaled wide 64 (shiftedZone 64 n) n attempts

/-- A number below `n`, from words of 32 bits. -/
def belowSmall (n : Nat) : Draw Nat := scaled word 32 (shiftedZone 32 n) n attempts

/-- An octet from `low` on, one of `n`. -/
def octet (low n : Nat) : Draw UInt8 :=
  return (low + (← scaled word 32 (multipleZone 32 n) n attempts)).toUInt8

/-- Octets from `low` on, each one of `n`, before those already drawn. -/
def octetsOnto (low n : Nat) (drawn : List UInt8) : (length : Nat) → Draw (List UInt8)
  | 0 => return drawn.reverse
  | length + 1 => do
    let b ← octet low n
    octetsOnto low n (b :: drawn) length

/-- As many octets as a length says, from `low` on, each one of `n`. -/
def octets (low n length : Nat) : Draw (List UInt8) := octetsOnto low n [] length

open Binary in
/--
A double from `-bound` to below `bound`: a fraction of 52 bits, times twice the
bound, less the bound, rounded after either step.
-/
def doubleWithin (bound : Nat) : Draw UInt64 := do
  let fraction := (← wide) / 0x1000
  let stretched := double.value (double.nearest ⟨fraction * (2 * bound), 0x10000000000000⟩)
  let middle := bound * stretched.den
  let bits :=
    if middle ≤ stretched.num then double.nearest ⟨stretched.num - middle, stretched.den⟩
    else double.withSign true (double.nearest ⟨middle - stretched.num, stretched.den⟩)
  return bits.toUInt64

end TreeDigest.Random
