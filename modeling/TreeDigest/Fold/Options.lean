import TreeDigest.Digest

/-!
# Parameters of a fold

Two digests can only be compared if both folds had the same parameters: the seed
they start from, whether the order of a map's pairs counts, and how deep
containers may nest.
-/

namespace TreeDigest

/-- Whether the order of a map's pairs is part of the content. -/
inductive KeyOrder where
  /-- Pairs fold in stored order. -/
  | preserve
  /-- Pairs fold sorted by the octets of their keys; pairs of one key keep their order. -/
  | sorted
  deriving DecidableEq, Repr

/-- The name of a key order in settings and reports. -/
def KeyOrder.name : KeyOrder → String
  | .preserve => "preserve"
  | .sorted => "sorted"

/-- What both sides of a comparison must agree on. -/
structure FoldOptions where
  seed : UInt32 := Digest.defaultSeed
  keyOrder : KeyOrder := .preserve
  /-- How many containers may be open at once, as asked for. -/
  maxDepth : Nat := 100
  deriving DecidableEq, Repr

namespace FoldOptions

/-- No fold lets containers nest deeper than this, whatever was asked for. -/
def depthCeiling : Nat := 126

/-- How many containers may be open at once. -/
def depthLimit (o : FoldOptions) : Nat := min o.maxDepth depthCeiling

end FoldOptions

end TreeDigest
