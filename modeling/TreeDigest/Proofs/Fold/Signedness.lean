import TreeDigest.Proofs.Bytes
import TreeDigest.Proofs.Fold.Walk

/-!
# Signed and unsigned integers

A tree tells a signed integer from an unsigned one of the same value. Formats do
not always: what was written as the one may be read as the other, by a rule of the
format that `mapIntegers` applies throughout a tree.

A digest depends on values alone. So a rule that keeps values keeps digests, under
either order of keys, and depths and counts as well.
-/

namespace TreeDigest

/-- An integer of either kind. -/
inductive Integer where
  | signed (i : Int64)
  | unsigned (u : UInt64)

namespace Integer

def value : Integer → Int
  | .signed i => i.toInt
  | .unsigned u => u.toNat

def tree : Integer → Tree
  | .signed i => .int i
  | .unsigned u => .uint u

def primitive : Integer → Primitive
  | .signed i => .int i
  | .unsigned u => .uint u

/-- The signed integer of the same value, if there is one. -/
def toSigned : Integer → Integer
  | .signed i => .signed i
  | .unsigned u => if u.toNat < 0x8000000000000000 then .signed u.toInt64 else .unsigned u

/-- The unsigned integer of the same value, if there is one. -/
def toUnsigned : Integer → Integer
  | .signed i => if 0 ≤ i.toInt then .unsigned i.toUInt64 else .signed i
  | .unsigned u => .unsigned u

theorem toInt_toInt64 {u : UInt64} (h : u.toNat < 0x8000000000000000) :
    u.toInt64.toInt = u.toNat := by
  show (u.toBitVec).toInt = u.toNat
  rw [BitVec.toInt_eq_toNat_of_lt (by rw [UInt64.toNat_toBitVec]; omega), UInt64.toNat_toBitVec]

theorem value_toSigned (n : Integer) : n.toSigned.value = n.value := by
  cases n with
  | signed i => rfl
  | unsigned u =>
    rw [toSigned]
    split
    · rename_i h
      exact toInt_toInt64 h
    · rfl

theorem value_toUnsigned (n : Integer) : n.toUnsigned.value = n.value := by
  cases n with
  | unsigned u => rfl
  | signed i =>
    rw [toUnsigned]
    split
    · rename_i h
      exact (Bytes.toNat_toUInt64 i).trans (if_pos h)
    · rfl

theorem toSigned_unsigned {u : UInt64} (h : u.toNat < 0x8000000000000000) :
    (unsigned u).toSigned = .signed u.toInt64 := if_pos h

/-- Integers of one value are one integer once they are signed if they can be. -/
theorem toSigned_inj {m n : Integer} (h : m.value = n.value) : m.toSigned = n.toSigned := by
  -- The two mixed cases are one, so it is stated apart.
  have hmixed : ∀ {i : Int64} {u : UInt64}, i.toInt = u.toNat →
      (signed i).toSigned = (unsigned u).toSigned := by
    intro i u h
    have hlt : u.toNat < 0x8000000000000000 := by
      have := i.toInt_lt
      omega
    rw [toSigned_unsigned hlt, toSigned, Int64.toInt_inj.mp (h.trans (toInt_toInt64 hlt).symm)]
  cases m with
  | signed i =>
    cases n with
    | signed j => rw [Int64.toInt_inj.mp h]
    | unsigned u => exact hmixed h
  | unsigned u =>
    cases n with
    | signed i => exact (hmixed h.symm).symm
    | unsigned v => rw [UInt64.toNat_inj.mp (Int.ofNat.inj h)]

end Integer

/-! ## Trees -/

namespace Tree

mutual

/-- A tree with each integer replaced. -/
def mapIntegers (g : Integer → Integer) : Tree → Tree
  | .int i => (g (.signed i)).tree
  | .uint u => (g (.unsigned u)).tree
  | .list items => .list (mapItems g items)
  | .map pairs => .map (mapPairs g pairs)
  | scalar => scalar

def mapItems (g : Integer → Integer) : List Tree → List Tree
  | [] => []
  | item :: items => item.mapIntegers g :: mapItems g items

def mapPairs (g : Integer → Integer) : List (Bytes × Tree) → List (Bytes × Tree)
  | [] => []
  | (k, value) :: pairs => (k, value.mapIntegers g) :: mapPairs g pairs

end

variable {g : Integer → Integer}

theorem mapItems_eq (items : List Tree) : mapItems g items = items.map (mapIntegers g) := by
  induction items with
  | nil => rfl
  | cons item items ih => rw [mapItems, ih, List.map_cons]

theorem mapPairs_eq (pairs : List (Bytes × Tree)) :
    mapPairs g pairs = pairs.map fun kv => (kv.1, kv.2.mapIntegers g) := by
  induction pairs with
  | nil => rfl
  | cons pair pairs ih => rw [mapPairs, ih, List.map_cons]

theorem mapIntegers_list (items : List Tree) :
    (list items).mapIntegers g = .list (items.map (mapIntegers g)) := by
  rw [mapIntegers, mapItems_eq]

theorem mapIntegers_map (pairs : List (Bytes × Tree)) :
    (map pairs).mapIntegers g = .map (pairs.map fun kv => (kv.1, kv.2.mapIntegers g)) := by
  rw [mapIntegers, mapPairs_eq]

theorem mapIntegers_tree (n : Integer) : n.tree.mapIntegers g = (g n).tree := by
  cases n <;> rfl

theorem mapIntegers_id (t : Tree) : t.mapIntegers id = t := by
  induction t using Tree.induct with
  | scalar t ht =>
    cases t with
    | list items => exact Bool.noConfusion ht
    | map pairs => exact Bool.noConfusion ht
    | _ => rfl
  | list items ih => rw [mapIntegers_list, List.map_congr_left ih, List.map_id']
  | map pairs ih =>
    rw [mapIntegers_map, List.map_congr_left fun kv hkv => by rw [ih kv hkv], List.map_id']

theorem mapIntegers_comp {h : Integer → Integer} (t : Tree) :
    (t.mapIntegers g).mapIntegers h = t.mapIntegers (h ∘ g) := by
  induction t using Tree.induct with
  | scalar t hscalar =>
    cases t with
    | list items => exact Bool.noConfusion hscalar
    | map pairs => exact Bool.noConfusion hscalar
    | int i => exact mapIntegers_tree (g (.signed i))
    | uint u => exact mapIntegers_tree (g (.unsigned u))
    | _ => rfl
  | list items ih =>
    rw [mapIntegers_list, mapIntegers_list, mapIntegers_list, List.map_map]
    exact congrArg list (List.map_congr_left ih)
  | map pairs ih =>
    rw [mapIntegers_map, mapIntegers_map, mapIntegers_map, List.map_map]
    exact congrArg map (List.map_congr_left fun kv hkv => congrArg (Prod.mk kv.1) (ih kv hkv))

theorem isContainer_mapIntegers (t : Tree) : (t.mapIntegers g).isContainer = t.isContainer := by
  have htree : ∀ n : Integer, n.tree.isContainer = false := fun n => by cases n <;> rfl
  cases t with
  | int i => exact htree _
  | uint u => exact htree _
  | _ => rfl

theorem depth_mapIntegers_le {t : Tree} {n : Nat} : (t.mapIntegers g).depth ≤ n ↔ t.depth ≤ n := by
  induction t using Tree.induct generalizing n with
  | scalar t ht =>
    rw [depth_scalar ht, depth_scalar ((isContainer_mapIntegers t).trans ht)]
  | list items ih =>
    rw [mapIntegers_list]
    cases n with
    | zero =>
      have h := depth_list_pos items
      have h' := depth_list_pos (items.map (mapIntegers g))
      omega
    | succ n =>
      rw [depth_list_le, depth_list_le, List.forall_mem_map]
      exact forall₂_congr fun t ht => ih t ht
  | map pairs ih =>
    rw [mapIntegers_map]
    cases n with
    | zero =>
      have h := depth_map_pos pairs
      have h' := depth_map_pos (pairs.map fun kv => (kv.1, kv.2.mapIntegers g))
      omega
    | succ n =>
      rw [depth_map_le, depth_map_le, List.forall_mem_map]
      exact forall₂_congr fun kv hkv => ih kv hkv

theorem depth_mapIntegers (t : Tree) : (t.mapIntegers g).depth = t.depth :=
  Nat.le_antisymm (depth_mapIntegers_le.mpr (Nat.le_refl _))
    (depth_mapIntegers_le.mp (Nat.le_refl _))

theorem countable_mapIntegers {t : Tree} : (t.mapIntegers g).Countable ↔ t.Countable := by
  induction t using Tree.induct with
  | scalar t ht =>
    have ht' := (isContainer_mapIntegers (g := g) t).trans ht
    exact ⟨fun _ => countable_scalar ht, fun _ => countable_scalar ht'⟩
  | list items ih =>
    rw [mapIntegers_list, countable_list, countable_list, List.length_map, List.forall_mem_map]
    exact and_congr_right fun _ => forall₂_congr fun t ht => ih t ht
  | map pairs ih =>
    rw [mapIntegers_map, countable_map, countable_map, List.length_map, List.forall_mem_map]
    exact and_congr_right fun _ => forall₂_congr fun kv hkv => ih kv hkv

end Tree

/-! ## Digests -/

namespace Primitive

/-- A primitive with an integer signed if it can be. -/
def signed : Primitive → Primitive
  | .uint u => (Integer.unsigned u).toSigned.primitive
  | p => p

end Primitive

namespace Digest

theorem absorb_signed (d : Digest) (p : Primitive) : d.absorb p.signed = d.absorb p := by
  cases p with
  | uint u =>
    by_cases h : u.toNat < 0x8000000000000000
    · rw [Primitive.signed, Integer.toSigned_unsigned h, Integer.primitive, absorb, absorb,
        if_pos h, UInt64.toUInt64_toInt64]
    · rw [Primitive.signed, Integer.toSigned, if_neg h, Integer.primitive]
  | _ => rfl

theorem foldl_absorb_signed (ps : List Primitive) (d : Digest) :
    (ps.map Primitive.signed).foldl absorb d = ps.foldl absorb d := by
  rw [List.foldl_map]
  simp only [absorb_signed]

end Digest

namespace KeyOrder

/-- Pairs are arranged by their keys alone. -/
theorem primitives_signed (order : KeyOrder) (pairs : List (Bytes × List Primitive)) :
    (order.primitives pairs).map Primitive.signed =
      order.primitives (pairs.map fun pair => (pair.1, pair.2.map Primitive.signed)) := by
  have harrange : order.arrange (pairs.map fun pair => (pair.1, pair.2.map Primitive.signed)) =
      (order.arrange pairs).map fun pair => (pair.1, pair.2.map Primitive.signed) := by
    cases order with
    | preserve => rfl
    | sorted =>
      exact (List.map_mergeSort (f := fun pair : Bytes × List Primitive =>
        (pair.1, pair.2.map Primitive.signed)) fun a _ b _ => rfl).symm
  rw [primitives, primitives, harrange, List.map_flatMap, List.flatMap_map]
  rfl

end KeyOrder

namespace Tree

variable {g : Integer → Integer} {order : KeyOrder}

theorem absorbed_tree (n : Integer) : n.tree.absorbed order = [n.primitive] := by
  cases n <;> rfl

theorem absorbed_mapIntegers (hg : ∀ n, (g n).value = n.value) (t : Tree) :
    ((t.mapIntegers g).absorbed order).map Primitive.signed =
      (t.absorbed order).map Primitive.signed := by
  have hinteger : ∀ n : Integer, (((n.tree.mapIntegers g).absorbed order).map Primitive.signed) =
      (n.tree.absorbed order).map Primitive.signed := by
    intro n
    -- both sides are the one signed integer of the value, or the one too great for that
    have hsigned : ∀ n : Integer, n.primitive.signed = n.toSigned.primitive :=
      fun n => by cases n <;> rfl
    rw [mapIntegers_tree, absorbed_tree, absorbed_tree, List.map_singleton, List.map_singleton,
      hsigned, hsigned, Integer.toSigned_inj (hg n)]
  induction t using Tree.induct with
  | scalar t ht =>
    cases t with
    | int i => exact hinteger (.signed i)
    | uint u => exact hinteger (.unsigned u)
    | list items => exact Bool.noConfusion ht
    | map pairs => exact Bool.noConfusion ht
    | _ => rfl
  | list items ih =>
    -- the items absorb alike one by one, so they do in a row
    have hitems : ((items.map (mapIntegers g)).map (absorbed order)).map (List.map Primitive.signed) =
        (items.map (absorbed order)).map (List.map Primitive.signed) := by
      rw [List.map_map, List.map_map, List.map_map]
      exact List.map_congr_left ih
    rw [mapIntegers_list, absorbed, absorbed, absorbedItems_eq, absorbedItems_eq, List.map_append,
      List.map_append, List.map_flatten, List.map_flatten, hitems, List.length_map]
  | map pairs ih =>
    have hpairs : ((pairs.map fun kv => (kv.1, kv.2.mapIntegers g)).map
          fun kv => (kv.1, kv.2.absorbed order)).map
          (fun pair => (pair.1, pair.2.map Primitive.signed)) =
        (pairs.map fun kv => (kv.1, kv.2.absorbed order)).map
          fun pair => (pair.1, pair.2.map Primitive.signed) := by
      rw [List.map_map, List.map_map, List.map_map]
      exact List.map_congr_left fun kv hkv => congrArg (Prod.mk kv.1) (ih kv hkv)
    rw [mapIntegers_map, absorbed, absorbed, absorbedPairs_eq, absorbedPairs_eq, List.map_append,
      List.map_append, KeyOrder.primitives_signed, KeyOrder.primitives_signed, hpairs,
      List.length_map]

/-- **Replacing integers by others of the same values does not change a digest.** -/
theorem digest_mapIntegers (hg : ∀ n, (g n).value = n.value) (t : Tree) (o : FoldOptions) :
    (t.mapIntegers g).digest o = t.digest o := by
  rw [digest, digest, ← Digest.foldl_absorb_signed, absorbed_mapIntegers hg,
    Digest.foldl_absorb_signed]

end Tree

/-- A tree with its integers replaced folds to the digest of the tree. -/
theorem foldTreeOn_mapIntegers {g : Integer → Integer} {side : Side} {t : Tree} {o : FoldOptions}
    (hg : ∀ n, (g n).value = n.value) (h : t.depth ≤ o.depthLimit) (ht : t.Countable) :
    foldTreeOn side (t.mapIntegers g) o = .ok (t.digest o) := by
  have hdepth : (t.mapIntegers g).depth ≤ o.depthLimit := by rwa [Tree.depth_mapIntegers]
  rw [foldTreeOn_eq hdepth (Tree.countable_mapIntegers.mpr ht), Tree.digest_mapIntegers hg]

end TreeDigest
