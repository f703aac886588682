import TreeDigest.Fold.Folder
import TreeDigest.Proofs.Tree

/-!
# What a tree absorbs

A folder holds primitives back, routes them between open maps and releases them.
None of that shows in the end: what a tree absorbs is one list of primitives, by
recursion on the tree. An order of keys enters at one place only, where the pairs
of a map are arranged.

`Digest.ofTree` is the same thing for stored order with the digest handed through
the tree. It says nothing that `Tree.absorbed` does not, but it is the form in
which the canonical traversal is usually stated.
-/

namespace TreeDigest

namespace KeyOrder

/-- Pairs, each a key and what its value absorbs, in the order in which they are absorbed. -/
def arrange (order : KeyOrder) (pairs : List (Bytes × List Primitive)) :
    List (Bytes × List Primitive) :=
  match order with
  | .preserve => pairs
  | .sorted => pairs.mergeSort fun a b => decide (a.1 ≤ b.1)

/-- What pairs absorb. -/
def primitives (order : KeyOrder) (pairs : List (Bytes × List Primitive)) : List Primitive :=
  (order.arrange pairs).flatMap fun pair => .bytes pair.1 :: pair.2

end KeyOrder

namespace Tree

mutual

/-- The primitives that a tree absorbs. -/
def absorbed (order : KeyOrder) : Tree → List Primitive
  | .null => [.null]
  | .bool b => [.bool b]
  | .int i => [.int i]
  | .uint u => [.uint u]
  | .double bits => [.double bits]
  | .text octets => [.bytes octets]
  | .list items => (absorbedItems order items).flatten ++ [.count items.length.toUInt32]
  | .map pairs => order.primitives (absorbedPairs order pairs) ++ [.count pairs.length.toUInt32]

def absorbedItems (order : KeyOrder) : List Tree → List (List Primitive)
  | [] => []
  | item :: items => item.absorbed order :: absorbedItems order items

def absorbedPairs (order : KeyOrder) : List (Bytes × Tree) → List (Bytes × List Primitive)
  | [] => []
  | (k, value) :: pairs => (k, value.absorbed order) :: absorbedPairs order pairs

end

variable {order : KeyOrder}

theorem absorbedItems_eq (items : List Tree) :
    absorbedItems order items = items.map (absorbed order) := by
  induction items with
  | nil => rfl
  | cons item items ih => rw [absorbedItems, ih, List.map_cons]

theorem absorbedPairs_eq (pairs : List (Bytes × Tree)) :
    absorbedPairs order pairs = pairs.map fun kv => (kv.1, kv.2.absorbed order) := by
  induction pairs with
  | nil => rfl
  | cons pair pairs ih => rw [absorbedPairs, ih, List.map_cons]

@[simp] theorem length_absorbedItems (order : KeyOrder) (items : List Tree) :
    (absorbedItems order items).length = items.length := by
  rw [absorbedItems_eq, List.length_map]

@[simp] theorem length_absorbedPairs (order : KeyOrder) (pairs : List (Bytes × Tree)) :
    (absorbedPairs order pairs).length = pairs.length := by
  rw [absorbedPairs_eq, List.length_map]

theorem absorbedItems_append (items more : List Tree) :
    absorbedItems order (items ++ more) = absorbedItems order items ++ absorbedItems order more := by
  rw [absorbedItems_eq, absorbedItems_eq, absorbedItems_eq, List.map_append]

theorem absorbedPairs_append (pairs more : List (Bytes × Tree)) :
    absorbedPairs order (pairs ++ more) = absorbedPairs order pairs ++ absorbedPairs order more := by
  rw [absorbedPairs_eq, absorbedPairs_eq, absorbedPairs_eq, List.map_append]

/-- The digest of a tree. -/
def digest (o : FoldOptions) (t : Tree) : Digest :=
  (t.absorbed o.keyOrder).foldl Digest.absorb ⟨o.seed⟩

end Tree

/-! ## The canonical traversal -/

namespace Digest

mutual

/--
Absorbs a tree in stored order: a scalar once, a list as its items and then their
count, a map as each key with its value and then the count of pairs.
-/
def ofTree (d : Digest) : Tree → Digest
  | .null => d.absorb .null
  | .bool b => d.absorb (.bool b)
  | .int i => d.absorb (.int i)
  | .uint u => d.absorb (.uint u)
  | .double bits => d.absorb (.double bits)
  | .text octets => d.absorb (.bytes octets)
  | .list items => (ofItems d items).absorb (.count items.length.toUInt32)
  | .map pairs => (ofPairs d pairs).absorb (.count pairs.length.toUInt32)

def ofItems (d : Digest) : List Tree → Digest
  | [] => d
  | item :: items => ofItems (ofTree d item) items

def ofPairs (d : Digest) : List (Bytes × Tree) → Digest
  | [] => d
  | (k, value) :: pairs => ofPairs (ofTree (d.absorb (.bytes k)) value) pairs

end

theorem ofItems_eq {items : List Tree}
    (h : ∀ t ∈ items, ∀ d, ofTree d t = (t.absorbed .preserve).foldl absorb d) (d : Digest) :
    ofItems d items = (Tree.absorbedItems .preserve items).flatten.foldl absorb d := by
  induction items generalizing d with
  | nil => rfl
  | cons item items ih =>
    rw [List.forall_mem_cons] at h
    rw [ofItems, h.1, ih h.2, Tree.absorbedItems, List.flatten_cons, List.foldl_append]

theorem ofPairs_eq {pairs : List (Bytes × Tree)}
    (h : ∀ kv ∈ pairs, ∀ d, ofTree d kv.2 = (kv.2.absorbed .preserve).foldl absorb d)
    (d : Digest) :
    ofPairs d pairs =
      (KeyOrder.preserve.primitives (Tree.absorbedPairs .preserve pairs)).foldl absorb d := by
  induction pairs generalizing d with
  | nil => rfl
  | cons pair pairs ih =>
    obtain ⟨k, value⟩ := pair
    rw [List.forall_mem_cons] at h
    rw [ofPairs, h.1, ih h.2]
    simp [KeyOrder.primitives, KeyOrder.arrange, Tree.absorbedPairs]

theorem ofTree_eq (t : Tree) (d : Digest) :
    ofTree d t = (t.absorbed .preserve).foldl absorb d := by
  induction t using Tree.induct generalizing d with
  | scalar t ht =>
    cases t with
    | list items => exact Bool.noConfusion ht
    | map pairs => exact Bool.noConfusion ht
    | _ => simp only [ofTree, Tree.absorbed, List.foldl_cons, List.foldl_nil]
  | list items ih => rw [ofTree, ofItems_eq ih, Tree.absorbed, List.foldl_append, List.foldl_cons, List.foldl_nil]
  | map pairs ih => rw [ofTree, ofPairs_eq ih, Tree.absorbed, List.foldl_append, List.foldl_cons, List.foldl_nil]

/-- Without sorting, the digest of a tree is that of its canonical traversal. -/
theorem ofTree_eq_digest {o : FoldOptions} (h : o.keyOrder = .preserve) (t : Tree) :
    ofTree ⟨o.seed⟩ t = t.digest o := by
  rw [ofTree_eq, Tree.digest, h]

end Digest

end TreeDigest
