import TreeDigest.Binary

/-!
# The shortest decimal of a binary number

A binary number is written with the fewest decimal digits that read back as the
same number. Reading is `Decimal.nearest`: the binary number nearest to a
decimal. Writing tries one digit, then two, and so on: of each count of digits
only the two decimals next to the number can be the one sought, so both are read
back, the closer first, and the first that gives the number is taken. Of two as
close, a rule for ties says which one is first.

Seventeen digits are always enough for the formats in use. The exact expansion
stands behind them, so that the search has an answer without an appeal to that
fact.
-/

namespace TreeDigest

open Binary

/-- The number `digits * 10 ^ exponent`. -/
structure Decimal where
  digits : Nat
  exponent : Int
  deriving DecidableEq, Repr

namespace Decimal

/-- A decimal as a fraction. -/
def toRatio (d : Decimal) : Ratio :=
  match d.exponent with
  | .ofNat k => ⟨d.digits * Nat.pow 10 k, 1⟩
  | .negSucc k => ⟨d.digits, Nat.pow 10 (k + 1)⟩

/-- An exponent of ten beyond which every format is out of range, in either direction. -/
def exponentBound : Int := 400

/--
The magnitude nearest to a decimal. Far out of range the answer is known without
the fraction, whose size would grow with the exponent.
-/
def nearest (l : Layout) (d : Decimal) : Nat :=
  if d.digits = 0 then 0
  else if exponentBound < d.exponent then l.infinity
  else if d.exponent + (Nat.log2 d.digits + 1 : Nat) < -exponentBound then 0
  else l.nearest d.toRatio

/-- The exponent of the leading decimal digit of a positive fraction. -/
def leadingExponent (r : Ratio) : Int :=
  let guess : Int := r.log2 * 30103 / 100000
  let above := toRatio ⟨1, guess + 1⟩
  let here := toRatio ⟨1, guess⟩
  if above.num * r.den ≤ r.num * above.den then guess + 1
  else if r.num * here.den < here.num * r.den then guess - 1
  else guess

/-- A fraction measured in units of `10 ^ e`. -/
def inUnits (r : Ratio) (e : Int) : Ratio :=
  match e with
  | .ofNat k => ⟨r.num, r.den * Nat.pow 10 k⟩
  | .negSucc k => ⟨r.num * Nat.pow 10 (k + 1), r.den⟩

/-- The two decimals of a grid next to a number, the closer first. -/
def neighbours (tie : Tie) (r : Ratio) (e : Int) : List Decimal :=
  let scaled := inUnits r e
  let low := scaled.num / scaled.den
  if scaled.toNearest tie = low then [⟨low, e⟩, ⟨low + 1, e⟩] else [⟨low + 1, e⟩, ⟨low, e⟩]

/-- The decimal next to a number on the grid of `count` digits that reads back, if there is one. -/
def withDigits? (l : Layout) (tie : Tie) (magnitude : Nat) (lead : Int) (count : Nat) :
    Option Decimal :=
  (neighbours tie (l.value magnitude) (lead + 1 - count)).find? fun d => nearest l d == magnitude

/-- The number itself in decimal. -/
def exact (l : Layout) (magnitude : Nat) : Decimal :=
  let (m, q) := l.parts magnitude
  match q with
  | .ofNat k => ⟨m * Nat.pow 2 k, 0⟩
  | .negSucc k => ⟨m * Nat.pow 5 (k + 1), q⟩

/-- A decimal that is a power of ten has one digit. -/
def trim (count : Nat) (d : Decimal) : Decimal :=
  if d.digits = Nat.pow 10 count then ⟨1, d.exponent + count⟩ else d

/-- The search, `left` counts of digits from `count` on. -/
def search (l : Layout) (tie : Tie) (magnitude : Nat) (lead : Int) : (left count : Nat) → Decimal
  | 0, _ => exact l magnitude
  | left + 1, count =>
    match withDigits? l tie magnitude lead count with
    | some d => trim count d
    | none => search l tie magnitude lead left (count + 1)

/-- The shortest decimal that reads back as a positive finite magnitude. -/
def shortest (l : Layout) (tie : Tie) (magnitude : Nat) : Decimal :=
  search l tie magnitude (leadingExponent (l.value magnitude)) 17 1

end Decimal

end TreeDigest
