import Std.Data.HashSet
import TreeDigest.Tree
import TreeDigest.Random.Draw

/-!
# Random documents

A generator makes a map of a given number of nodes. The number is a budget: every
node spends one of it, and the root takes children until it is spent. What comes
out has a form in every format: unsigned integers within the signed range, finite
doubles, printable ASCII strings, and keys of which no map has one twice.
-/

namespace TreeDigest.Generator

open TreeDigest.Random

/-- How deep containers nest below the root. -/
def nesting : Nat := 6

/-- How many entries a container below the root has at most. -/
def greatestWidth : Nat := 12

/-- How long a string is at most. -/
def greatestText : Nat := 24

/-- How long a key is at most, before it is told apart from others. -/
def greatestKey : Nat := 10

/-! ## Scalars and keys -/

/-- True as often as false. -/
def coin : Draw Bool := chance 0x8000000000000000

/-- True one time in four. -/
def quarter : Draw Bool := chance 0x4000000000000000

/-- A printable ASCII string. -/
def text : Draw Bytes := do
  let length ← below (greatestText + 1)
  octets 0x20 95 length

/-- A scalar of any kind. Half of the integers are small. -/
def scalar : Draw Tree := do
  let choice ← belowSmall 100
  if choice < 5 then return .null
  else if choice < 15 then return .bool (← coin)
  else if choice < 35 then
    if ← coin then return .int (Int64.ofInt ((← below 400 : Nat) - 200))
    else return .int (← wide).toUInt64.toInt64
  else if choice < 50 then
    if ← coin then return .uint (← below 300).toUInt64
    else return .uint (← below 0x8000000000000000).toUInt64
  else if choice < 70 then return .double (← doubleWithin 1000000)
  else return .text (← text)

/-- Adds an ending to a key until it is none of those seen, at most `tries` times. -/
def tellApart (seen : Std.HashSet Bytes) (ending key : Bytes) : (tries : Nat) → Bytes
  | 0 => key
  | tries + 1 => if seen.contains key then tellApart seen ending (key ++ ending) tries else key

/--
A key that is none of `index` keys seen. Each key it could be is longer than the
one before, so that after `index` endings it is none of them.
-/
def freshKey (seen : Std.HashSet Bytes) (index : Nat) : Draw Bytes := do
  let length ← below greatestKey
  let key ← octets 0x61 26 (length + 1)
  return tellApart seen (0x5F :: Bytes.decimal index) key index

/-! ## Containers -/

/-- A step that draws and spends some of a budget. -/
abbrev Growing := StateT Nat Draw

/-- Children, by a step for one of them, until there are `width` more or the budget is spent. -/
def itemsOnto (child : Growing Tree) (items : List Tree) : (width : Nat) → Growing (List Tree)
  | 0 => return items.reverse
  | width + 1 => do
    if (← get) = 0 then return items.reverse
    else
      let item ← child
      itemsOnto child (item :: items) width

/-- Keys and children, until there are `width` more or the budget is spent. -/
def pairsOnto (child : Growing Tree) (seen : Std.HashSet Bytes) (index : Nat)
    (pairs : List (Bytes × Tree)) : (width : Nat) → Growing (List (Bytes × Tree))
  | 0 => return pairs.reverse
  | width + 1 => do
    if (← get) = 0 then return pairs.reverse
    else
      let key ← freshKey seen index
      let value ← child
      pairsOnto child (seen.insert key) (index + 1) ((key, value) :: pairs) width

/-- A node, which spends one of the budget. `levels` is how many containers may nest from it on. -/
def node : (levels : Nat) → Growing Tree
  | 0 => do
    modify (· - 1)
    scalar
  | levels + 1 => do
    modify (· - 1)
    if ← quarter then
      let width ← below (greatestWidth + 1)
      if ← coin then return .list (← itemsOnto (node levels) [] width)
      else return .map (← pairsOnto (node levels) ∅ 0 [] width)
    else scalar

/-- A map of `size` nodes, or of one. -/
def tree (size : Nat) : Draw Tree := do
  let budget := size - 1
  let (pairs, _) ← (pairsOnto (node nesting) ∅ 0 [] budget).run budget
  return .map pairs

/-- The map of `size` nodes that a seed gives. -/
def generate (size : Nat) (seed : UInt64) : Tree := ((tree size).run (Source.ofSeed seed)).1

end TreeDigest.Generator
