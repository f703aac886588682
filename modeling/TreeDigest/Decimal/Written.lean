import TreeDigest.Decimal.Shortest

/-!
# Decimals as text

A decimal is written positionally if its leading digit lies within certain
exponents and with an exponent of ten otherwise. Positional numbers always have
a point with a digit on either side. What else there is to decide, a `Style`
decides: the exponents written positionally, whether an exponent that is not
negative has a plus sign, and which of two shortest decimals as close to the
number is written.
-/

namespace TreeDigest

open Binary

/-- How a decimal is laid out. -/
structure Decimal.Style where
  /-- The least exponent of a leading digit that is written positionally. -/
  least : Int
  /-- The greatest one. -/
  greatest : Int
  /-- Whether an exponent is marked when it is not negative. -/
  plus : Bool
  /-- Where a number in the middle between two shortest decimals goes. -/
  tie : Tie

namespace Decimal.Style

/-- Numbers in messages: positional from `10 ^ -4` to below `10 ^ 16`, and a tie goes up. -/
def message : Style := ⟨-4, 15, false, .up⟩

/--
Numbers in a document: positional from `10 ^ -5` to below `10 ^ 16`, exponents
always marked, and a tie goes to the even digit.
-/
def document : Style := ⟨-5, 15, true, .even⟩

/-- A run of zeros. -/
def zeros (n : Nat) : Bytes := List.replicate n 0x30

/-- A positive decimal written positionally. -/
def positional (d : Decimal) : Bytes :=
  let digits := Bytes.decimal d.digits
  match d.exponent with
  | .ofNat k => digits ++ zeros k ++ Bytes.ofAscii ".0"
  | .negSucc k =>
    let whole := digits.length - (k + 1)
    if k + 1 < digits.length then digits.take whole ++ Bytes.ofAscii "." ++ digits.drop whole
    else Bytes.ofAscii "0." ++ zeros (k + 1 - digits.length) ++ digits

/-- A positive decimal written as a digit, further digits if any, and an exponent. -/
def scientific (style : Style) (d : Decimal) (lead : Int) : Bytes :=
  let digits := Bytes.decimal d.digits
  let fraction := match digits.tail with
    | [] => []
    | rest => Bytes.ofAscii "." ++ rest
  let mark := if lead < 0 then Bytes.ofAscii "-" else if style.plus then Bytes.ofAscii "+" else []
  digits.take 1 ++ fraction ++ Bytes.ofAscii "e" ++ mark ++ Bytes.decimal lead.natAbs

/-- A positive decimal. -/
def write (style : Style) (d : Decimal) : Bytes :=
  let lead := d.exponent + (Bytes.decimal d.digits).length - 1
  if style.least ≤ lead ∧ lead ≤ style.greatest then positional d else style.scientific d lead

/-- A finite pattern in the fewest digits that read back. -/
def writeFinite (style : Style) (l : Layout) (bits : Nat) : Bytes :=
  let magnitude := l.magnitude bits
  let sign := if l.isNegative bits then Bytes.ofAscii "-" else []
  let digits :=
    if magnitude = 0 then Bytes.ofAscii "0.0" else style.write (shortest l style.tie magnitude)
  sign ++ digits

/-- Any pattern; what is not finite has a name. -/
def writeAny (style : Style) (l : Layout) (bits : Nat) : Bytes :=
  if l.isNaN bits then Bytes.ofAscii "NaN"
  else if l.isFinite bits then style.writeFinite l bits
  else if l.isNegative bits then Bytes.ofAscii "-inf"
  else Bytes.ofAscii "inf"

end Decimal.Style

end TreeDigest
