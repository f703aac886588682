import TreeDigest.Bytes

/-!
# Binary floating point by bit patterns

A number of the IEEE 754 binary formats is a pattern of bits, here a natural
number below `2 ^ width`. Nothing in this module uses machine arithmetic: a
finite pattern denotes `m * 2 ^ q` for integers `m` and `q`, and rounding is an
integer division with a look at the remainder. So what is computed is also what
can be reasoned about.

`Layout.nearest` is the one rounding rule, to the nearest value and of two
nearest to the even one. Reading a decimal, widening a single and drawing a
random double all go through it.
-/

namespace TreeDigest.Binary

/-- The shape of a format: a sign bit, an exponent field and a fraction field. -/
structure Layout where
  fractionBits : Nat
  exponentBits : Nat

/-- The 64-bit format. -/
def double : Layout := ⟨52, 11⟩

/-- The 32-bit format. -/
def single : Layout := ⟨23, 8⟩

/-- A fraction `num / den` with `den` positive. -/
structure Ratio where
  num : Nat
  den : Nat

/-- `n * 2 ^ q / d` as one fraction. -/
def Ratio.scale (n d : Nat) (q : Int) : Ratio :=
  match q with
  | .ofNat k => ⟨n * Nat.pow 2 k, d⟩
  | .negSucc k => ⟨n, d * Nat.pow 2 (k + 1)⟩

/-- Where a number in the middle between two integers goes. -/
inductive Tie where
  /-- To the even one of the two. -/
  | even
  /-- To the larger one. -/
  | up
  deriving DecidableEq, Repr

/-- The integer for a number in the middle between `low` and `low + 1`. -/
def Tie.settle (low : Nat) : Tie → Nat
  | .even => low + low % 2
  | .up => low + 1

/-- The integer nearest to `num / den`, of two as near the one that the rule for ties says. -/
def Ratio.toNearest (r : Ratio) (tie : Tie) : Nat :=
  let low := r.num / r.den
  let twice := 2 * (r.num % r.den)
  if twice < r.den then low
  else if r.den < twice then low + 1
  else tie.settle low

/-- The largest `t` with `2 ^ t ≤ num / den`, for a positive fraction. -/
def Ratio.log2 (r : Ratio) : Int :=
  let t : Int := (Nat.log2 r.num : Int) - Nat.log2 r.den
  let unit := Ratio.scale 1 1 t
  if unit.num * r.den ≤ r.num * unit.den then t else t - 1

namespace Layout

/-- The pattern of the sign bit. -/
def signBit (l : Layout) : Nat := Nat.pow 2 (l.fractionBits + l.exponentBits)

/-- The pattern of positive infinity; patterns above it are not numbers. -/
def infinity (l : Layout) : Nat := (Nat.pow 2 l.exponentBits - 1) * Nat.pow 2 l.fractionBits

/-- The exponent of the last place of the smallest numbers. -/
def leastExponent (l : Layout) : Int :=
  2 - (Nat.pow 2 (l.exponentBits - 1) : Int) - (l.fractionBits : Int)

def isNegative (l : Layout) (bits : Nat) : Bool := decide (l.signBit ≤ bits)

/-- The pattern without its sign. -/
def magnitude (l : Layout) (bits : Nat) : Nat := bits % l.signBit

def isNaN (l : Layout) (bits : Nat) : Bool := decide (l.infinity < l.magnitude bits)

def isFinite (l : Layout) (bits : Nat) : Bool := decide (l.magnitude bits < l.infinity)

/-- The integers `m` and `q` for which a finite magnitude is `m * 2 ^ q`. -/
def parts (l : Layout) (magnitude : Nat) : Nat × Int :=
  let field := magnitude / Nat.pow 2 l.fractionBits
  let fraction := magnitude % Nat.pow 2 l.fractionBits
  if field = 0 then (fraction, l.leastExponent)
  else (Nat.pow 2 l.fractionBits + fraction, l.leastExponent + (field - 1 : Nat))

/-- The exact value of a finite magnitude. -/
def value (l : Layout) (magnitude : Nat) : Ratio :=
  let (m, q) := l.parts magnitude
  Ratio.scale m 1 q

/-- The magnitude nearest to a fraction, infinity if the fraction is out of range. -/
def nearest (l : Layout) (r : Ratio) : Nat :=
  if r.num = 0 then 0
  else
    let q := max (r.log2 - l.fractionBits) l.leastExponent
    let m := (Ratio.scale r.num r.den (-q)).toNearest .even
    min l.infinity ((q - l.leastExponent).toNat * Nat.pow 2 l.fractionBits + m)

/-- The pattern of a magnitude with a sign. -/
def withSign (l : Layout) (negative : Bool) (magnitude : Nat) : Nat :=
  if negative then l.signBit + magnitude else magnitude

end Layout

/--
The double of the same value as a single. A single that is not a number keeps
its sign and the bits of its fraction, and becomes quiet.
-/
def widen (bits : UInt32) : UInt64 :=
  let negative := single.isNegative bits.toNat
  let magnitude := single.magnitude bits.toNat
  let wide :=
    if single.isNaN bits.toNat then
      double.infinity + 0x8000000000000 + (magnitude % 0x400000) * 0x20000000
    else if single.isFinite bits.toNat then double.nearest (single.value magnitude)
    else double.infinity
  (double.withSign negative wide).toUInt64

end TreeDigest.Binary
