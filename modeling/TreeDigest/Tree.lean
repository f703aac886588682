import TreeDigest.Bytes

/-!
# Documents as trees

A document is a tree: five kinds of scalar, octet strings, lists and maps. A map
is an ordered list of pairs, so the order of its pairs is content and a key may
occur twice. Signed and unsigned integers are two kinds because formats write
them differently; whether they are told apart afterwards is for the digest to
say. A double is its bit pattern: nothing here computes with it, and a pattern,
unlike a number, can be compared.
-/

namespace TreeDigest

/-- A document, or any part of one. -/
inductive Tree where
  | null
  | bool (b : Bool)
  | int (i : Int64)
  | uint (u : UInt64)
  | double (bits : UInt64)
  | text (octets : Bytes)
  | list (items : List Tree)
  | map (pairs : List (Bytes × Tree))
  deriving Inhabited

/-- What sort of thing a tree is at its root. -/
inductive Kind where
  | null
  | bool
  | int
  | uint
  | double
  | text
  | list
  | map
  deriving DecidableEq, Repr

/-- The name a kind goes by in messages. -/
def Kind.name : Kind → String
  | .null => "nil"
  | .bool => "bool"
  | .int => "int"
  | .uint => "uint"
  | .double => "double"
  | .text => "str"
  | .list => "list"
  | .map => "map"

namespace Tree

def kind : Tree → Kind
  | .null => .null
  | .bool _ => .bool
  | .int _ => .int
  | .uint _ => .uint
  | .double _ => .double
  | .text _ => .text
  | .list _ => .list
  | .map _ => .map

/-- Lists and maps hold other trees; all else is a scalar. -/
def isContainer : Tree → Bool
  | .list _ | .map _ => true
  | _ => false

/-! ## Size

Both measures run along siblings with an accumulator, so a container of many
thousand children costs no stack. `nodes_list` and its companions give the
equations one reasons with.
-/

mutual

/-- `count` plus the number of nodes of a tree. -/
def addNodes (count : Nat) : Tree → Nat
  | .list items => addItems (count + 1) items
  | .map pairs => addPairs (count + 1) pairs
  | _ => count + 1

def addItems (count : Nat) : List Tree → Nat
  | [] => count
  | item :: items => addItems (addNodes count item) items

def addPairs (count : Nat) : List (Bytes × Tree) → Nat
  | [] => count
  | (_, value) :: pairs => addPairs (addNodes count value) pairs

end

/-- Scalars and containers at every level; keys are not nodes. -/
def nodes (tree : Tree) : Nat := addNodes 0 tree

mutual

/-- How many containers lie on the longest way from the root to a scalar. -/
def depth : Tree → Nat
  | .list items => deepestItem 0 items + 1
  | .map pairs => deepestPair 0 pairs + 1
  | _ => 0

def deepestItem (best : Nat) : List Tree → Nat
  | [] => best
  | item :: items => deepestItem (max best item.depth) items

def deepestPair (best : Nat) : List (Bytes × Tree) → Nat
  | [] => best
  | (_, value) :: pairs => deepestPair (max best value.depth) pairs

end

end Tree

end TreeDigest
