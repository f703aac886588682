import TreeDigest.Decimal.Written
import TreeDigest.Json.Cursor

/-!
# Numbers in JSON

A number without fraction and exponent is an integer if it fits 64 bits, unsigned
or, below zero, signed. Every other number is the double nearest to it, and one
that would be infinite is out of range. Minus zero is a double, since no integer
is.

Writing is the other way round: a double always has a fraction or an exponent,
so that it is not taken for an integer.
-/

namespace TreeDigest.Json

open TreeDigest.Json.Parser

/-- A number as it is read. -/
inductive Number where
  | unsigned (u : UInt64)
  /-- An integer below zero. -/
  | negative (i : Int64)
  | double (bits : UInt64)

/-! ## Reading -/

/-- Digits, of which there has to be one. -/
def digits : Parser Bytes := do
  match ← takeWhile Bytes.isDigit with
  | [] =>
    match ← peek? with
    | none => fail .endInValue
    | some _ => failNext .invalidNumber
  | all => return all

/-- Digits that begin with a zero only if that is all. -/
def whole : Parser Bytes := do
  let place := (← get).place
  match ← digits with
  | 0x30 :: _ :: _ => failAt ⟨place.line, place.column + 2⟩ .invalidNumber
  | all => return all

/-- The digits of a fraction, none if there is no point. -/
def fraction : Parser Bytes := do
  match ← peek? with
  | some 0x2E => do
    skip
    digits
  | _ => return []

/-- An exponent cannot be greater than this, in either direction. -/
def greatestExponent : Nat := 0x7FFFFFFF

/-- With how many of the digits, after a number `n`, the number exceeds the greatest exponent. -/
def excess? (n seen : Nat) : Bytes → Option Nat
  | [] => none
  | b :: rest =>
    let n := 10 * n + (b.toNat - 0x30)
    if greatestExponent < n then some (seen + 1) else excess? n (seen + 1) rest

/--
An exponent, none if there is no mark for one. An exponent beyond the greatest is
a fault as soon as it is that, unless the number is zero or close to it.
-/
def exponent (isZero : Bool) : Parser (Option Int) := do
  match ← peek? with
  | some 0x65 | some 0x45 => do
    skip
    let sign ← takeSign
    let place := (← get).place
    let all ← digits
    match sign, excess? 0 0 all with
    | false, some seen =>
      if isZero then return some greatestExponent
      else failAt ⟨place.line, place.column + seen⟩ .numberOutOfRange
    | false, none => return some (Bytes.ofDecimal all)
    | true, _ => return some (-(Bytes.ofDecimal all : Int))
  | _ => return none
where
  /-- Whether a minus stands next; a plus counts as nothing. -/
  takeSign : Parser Bool := do
    match ← peek? with
    | some 0x2D => do
      skip
      return true
    | some 0x2B => do
      skip
      return false
    | _ => return false

/-- The double nearest to a decimal, which has to be finite. -/
def rounded (negative : Bool) (d : Decimal) : Parser Number := do
  let magnitude := Decimal.nearest Binary.double d
  if Binary.double.isFinite magnitude then
    return .double (Binary.double.withSign negative magnitude).toUInt64
  else fail .numberOutOfRange

/-- An integer if it fits, else the double nearest to it. -/
def integer (negative : Bool) (n : Nat) : Parser Number :=
  if negative then
    if 0 < n ∧ n ≤ 0x8000000000000000 then return .negative (Int64.ofInt (-n)) else rounded true ⟨n, 0⟩
  else if n < 0x10000000000000000 then return .unsigned n.toUInt64
  else rounded false ⟨n, 0⟩

/-- A number, after its sign. -/
def number (negative : Bool) : Parser Number := do
  let whole ← whole
  let fraction ← fraction
  let n := Bytes.ofDecimal (whole ++ fraction)
  let e ← exponent (n == 0)
  match fraction, e with
  | [], none => integer negative n
  | _, _ => rounded negative ⟨n, e.getD 0 - fraction.length⟩

/-! ## Writing -/

def intForm (i : Int64) : Bytes :=
  if i.toInt < 0 then 0x2D :: Bytes.decimal i.toInt.natAbs else Bytes.decimal i.toInt.natAbs

def uintForm (u : UInt64) : Bytes := Bytes.decimal u.toNat

/-- The form of a finite double. -/
def doubleForm (bits : UInt64) : Bytes :=
  Decimal.Style.document.writeFinite Binary.double bits.toNat

end TreeDigest.Json
