/-!
# Octet strings

Every format here is a sequence of octets, kept as a plain list so that readers
peel it from the front and statements about them are inductions on the rest.
This module holds what the formats share below their own rules: numbers written
with a fixed count of octets in either order, ASCII text, and the two renderings
of octets and numbers that messages and answers use.

The two directions of a number are inverse: reading what was written with
`width` octets gives the number modulo the capacity of as many octets.
-/

namespace TreeDigest

/-- A sequence of octets. -/
abbrev Bytes := List UInt8

namespace Bytes

/-! ## Fixed-width numbers -/

/-- The low `width` octets of `n`, least significant first. -/
def little : Nat → Nat → Bytes
  | 0, _ => []
  | width + 1, n => n.toUInt8 :: little width (n / 256)

/-- The low `width` octets of `n`, most significant first. -/
def big (width n : Nat) : Bytes := (little width n).reverse

/-- The number whose octets these are, least significant first. -/
def ofLittle : Bytes → Nat
  | [] => 0
  | b :: bs => b.toNat + 256 * ofLittle bs

/-- The number whose octets these are, most significant first. -/
def ofBig (bytes : Bytes) : Nat := ofLittle bytes.reverse

/-- How many numbers `width` octets can tell apart. -/
def capacity : (width : Nat) → Nat
  | 0 => 1
  | width + 1 => 256 * capacity width

/-- The two's complement reading of a `width`-octet number. -/
def signed (width n : Nat) : Int :=
  if 2 * n < capacity width then n else (n : Int) - capacity width

theorem length_little (width n : Nat) : (little width n).length = width := by
  induction width generalizing n with
  | zero => rfl
  | succ width ih => simp [little, ih]

theorem length_big (width n : Nat) : (big width n).length = width := by
  simp [big, length_little]

theorem ofLittle_little (width n : Nat) : ofLittle (little width n) = n % capacity width := by
  induction width generalizing n with
  | zero => simp [little, ofLittle, capacity, Nat.mod_one]
  | succ width ih =>
    rw [little, ofLittle, ih, capacity, Nat.mod_mul]
    simp

theorem ofBig_big (width n : Nat) : ofBig (big width n) = n % capacity width := by
  simp [ofBig, big, ofLittle_little]

/-! ## Text -/

/-- The octets of a text that is ASCII throughout. -/
def ofAscii (text : String) : Bytes := text.toList.map fun c => c.toNat.toUInt8

/-- The text whose characters are these octets, one each. -/
def toAscii (bytes : Bytes) : String := String.ofList (bytes.map fun b => Char.ofNat b.toNat)

/-- A number in decimal, without leading zeros. -/
def decimal (n : Nat) : Bytes := (Nat.toDigits 10 n).map fun c => c.toNat.toUInt8

/-- Whether an octet is a decimal digit. -/
def isDigit (b : UInt8) : Bool := 0x30 ≤ b && b ≤ 0x39

/-- The number whose decimal digits these are. -/
def ofDecimal (digits : Bytes) : Nat := digits.foldl (fun n b => 10 * n + (b.toNat - 0x30)) 0

/-- The value of a hexadecimal digit of either case. -/
def hexDigit? (b : UInt8) : Option Nat :=
  if 0x30 ≤ b ∧ b ≤ 0x39 then some (b.toNat - 0x30)
  else if 0x41 ≤ b ∧ b ≤ 0x46 then some (b.toNat - 0x37)
  else if 0x61 ≤ b ∧ b ≤ 0x66 then some (b.toNat - 0x57)
  else none

/-- The number whose hexadecimal digits these are, if they are that. -/
def ofHex? (digits : Bytes) : Option Nat :=
  digits.foldlM (fun n b => (hexDigit? b).map (16 * n + ·)) 0

/-- One octet as two lower-case hexadecimal digits. -/
def hexOctet (b : UInt8) : String :=
  String.ofList [Nat.digitChar (b.toNat / 16), Nat.digitChar (b.toNat % 16)]

/-- Octets as lower-case hexadecimal digits, two each. -/
def hex (bytes : Bytes) : String :=
  String.ofList (bytes.flatMap fun b => [Nat.digitChar (b.toNat / 16), Nat.digitChar (b.toNat % 16)])

end Bytes

end TreeDigest
