import Mathlib.Algebra.BigOperators.Group.List.Basic
import Mathlib.Algebra.Ring.Nat
import Mathlib.Data.List.Forall2
import TreeDigest.Tree

/-!
# Trees

Facts about documents that have nothing to do with any format: how deep a tree is
in terms of its children, what it means for a property to hold everywhere in
a tree, and for a relation to hold of trees that differ inside.

`depth_list_le` and `depth_map_le` are all that is ever used about depth. A limit
on a container is a limit, one lower, on each of its children.
-/

namespace TreeDigest.Tree

/-! ## Induction

The recursor of a tree speaks of lists of trees and of lists of pairs on the way.
Here the hypothesis of a container is about its children alone.
-/

/-- What holds of scalars, and of a container once it holds of its children, holds of all trees. -/
theorem induct {motive : Tree → Prop}
    (scalar : ∀ t : Tree, t.isContainer = false → motive t)
    (list : ∀ items : List Tree, (∀ t ∈ items, motive t) → motive (.list items))
    (map : ∀ pairs : List (Bytes × Tree), (∀ kv ∈ pairs, motive kv.2) → motive (.map pairs))
    (t : Tree) : motive t := by
  refine @Tree.rec motive (fun items => ∀ t ∈ items, motive t)
    (fun pairs => ∀ kv ∈ pairs, motive kv.2) (fun kv => motive kv.2)
    (scalar _ rfl) (fun _ => scalar _ rfl) (fun _ => scalar _ rfl) (fun _ => scalar _ rfl)
    (fun _ => scalar _ rfl) (fun _ => scalar _ rfl) (fun items ih => list items ih)
    (fun pairs ih => map pairs ih) ?_ ?_ ?_ ?_ (fun _ _ ih => ih) t
  · simp
  · exact fun _ _ hitem hitems => List.forall_mem_cons.mpr ⟨hitem, hitems⟩
  · simp
  · exact fun _ _ hpair hpairs => List.forall_mem_cons.mpr ⟨hpair, hpairs⟩

/-! ## Depth -/

theorem deepestItem_le {items : List Tree} {best n : Nat} :
    deepestItem best items ≤ n ↔ best ≤ n ∧ ∀ t ∈ items, t.depth ≤ n := by
  induction items generalizing best with
  | nil => simp [deepestItem]
  | cons item items ih =>
    rw [deepestItem, ih]
    simp only [List.forall_mem_cons, Nat.max_le]
    exact and_assoc

theorem deepestPair_le {pairs : List (Bytes × Tree)} {best n : Nat} :
    deepestPair best pairs ≤ n ↔ best ≤ n ∧ ∀ p ∈ pairs, p.2.depth ≤ n := by
  induction pairs generalizing best with
  | nil => simp [deepestPair]
  | cons pair pairs ih =>
    obtain ⟨k, value⟩ := pair
    rw [deepestPair, ih]
    simp only [List.forall_mem_cons, Nat.max_le]
    exact and_assoc

/-- A list fits a limit if each of its items fits the limit below. -/
theorem depth_list_le {items : List Tree} {n : Nat} :
    (list items).depth ≤ n + 1 ↔ ∀ t ∈ items, t.depth ≤ n := by
  rw [depth, Nat.add_le_add_iff_right, deepestItem_le]
  simp

/-- A map fits a limit if each of its values fits the limit below. -/
theorem depth_map_le {pairs : List (Bytes × Tree)} {n : Nat} :
    (map pairs).depth ≤ n + 1 ↔ ∀ p ∈ pairs, p.2.depth ≤ n := by
  rw [depth, Nat.add_le_add_iff_right, deepestPair_le]
  simp

/-- A list that does not fit a limit has an item that does not fit the limit below. -/
theorem exists_deep_item {items : List Tree} {n : Nat} (h : n + 1 < (list items).depth) :
    ∃ t ∈ items, n < t.depth := by
  by_contra hnone
  have hle : (list items).depth ≤ n + 1 :=
    depth_list_le.mpr fun t ht => Nat.not_lt.mp fun hlt => hnone ⟨t, ht, hlt⟩
  omega

theorem exists_deep_value {pairs : List (Bytes × Tree)} {n : Nat} (h : n + 1 < (map pairs).depth) :
    ∃ kv ∈ pairs, n < kv.2.depth := by
  by_contra hnone
  have hle : (map pairs).depth ≤ n + 1 :=
    depth_map_le.mpr fun kv hkv => Nat.not_lt.mp fun hlt => hnone ⟨kv, hkv, hlt⟩
  omega

/-- The depth of a list, with what it says of its items. -/
theorem exists_depth_list (items : List Tree) :
    ∃ k, (list items).depth = k + 1 ∧ ∀ t ∈ items, t.depth ≤ k :=
  ⟨_, rfl, depth_list_le.mp (Nat.le_refl _)⟩

theorem exists_depth_map (pairs : List (Bytes × Tree)) :
    ∃ k, (map pairs).depth = k + 1 ∧ ∀ kv ∈ pairs, kv.2.depth ≤ k :=
  ⟨_, rfl, depth_map_le.mp (Nat.le_refl _)⟩

/-- A limit on a list is not zero, and the limit below holds for its items. -/
theorem exists_of_depth_list_le {items : List Tree} {n : Nat} (h : (list items).depth ≤ n) :
    ∃ k, n = k + 1 ∧ ∀ t ∈ items, t.depth ≤ k := by
  cases n with
  | zero => cases h
  | succ k => exact ⟨k, rfl, depth_list_le.mp h⟩

theorem exists_of_depth_map_le {pairs : List (Bytes × Tree)} {n : Nat} (h : (map pairs).depth ≤ n) :
    ∃ k, n = k + 1 ∧ ∀ kv ∈ pairs, kv.2.depth ≤ k := by
  cases n with
  | zero => cases h
  | succ k => exact ⟨k, rfl, depth_map_le.mp h⟩

theorem depth_list_pos (items : List Tree) : 1 ≤ (list items).depth := by
  rw [depth]; omega

theorem depth_map_pos (pairs : List (Bytes × Tree)) : 1 ≤ (map pairs).depth := by
  rw [depth]; omega

theorem depth_scalar {t : Tree} (h : t.isContainer = false) : t.depth = 0 := by
  cases t with
  | list items => exact Bool.noConfusion h
  | map pairs => exact Bool.noConfusion h
  | _ => rfl

/-! ## Nodes -/

theorem addItems_eq {items : List Tree} (h : ∀ t ∈ items, ∀ n, addNodes n t = n + t.nodes) (n : Nat) :
    addItems n items = n + (items.map nodes).sum := by
  induction items generalizing n with
  | nil => rfl
  | cons item items ih =>
    rw [List.forall_mem_cons] at h
    rw [addItems, h.1, ih h.2, List.map_cons, List.sum_cons, Nat.add_assoc]

theorem addPairs_eq {pairs : List (Bytes × Tree)}
    (h : ∀ kv ∈ pairs, ∀ n, addNodes n kv.2 = n + kv.2.nodes) (n : Nat) :
    addPairs n pairs = n + (pairs.map fun kv => kv.2.nodes).sum := by
  induction pairs generalizing n with
  | nil => rfl
  | cons pair pairs ih =>
    obtain ⟨k, value⟩ := pair
    rw [List.forall_mem_cons] at h
    rw [addPairs, h.1, ih h.2, List.map_cons, List.sum_cons, Nat.add_assoc]

theorem addNodes_eq (t : Tree) (n : Nat) : addNodes n t = n + t.nodes := by
  induction t using Tree.induct generalizing n with
  | scalar t ht =>
    cases t with
    | list items => exact Bool.noConfusion ht
    | map pairs => exact Bool.noConfusion ht
    | _ => rfl
  | list items ih =>
    rw [nodes, addNodes, addNodes, addItems_eq ih, addItems_eq ih]
    omega
  | map pairs ih =>
    rw [nodes, addNodes, addNodes, addPairs_eq ih, addPairs_eq ih]
    omega

theorem nodes_list (items : List Tree) : (list items).nodes = 1 + (items.map nodes).sum := by
  rw [nodes, addNodes, addItems_eq fun t _ => addNodes_eq t]

theorem nodes_map (pairs : List (Bytes × Tree)) :
    (map pairs).nodes = 1 + (pairs.map fun kv => kv.2.nodes).sum := by
  rw [nodes, addNodes, addPairs_eq fun kv _ => addNodes_eq kv.2]

theorem nodes_scalar {t : Tree} (h : t.isContainer = false) : t.nodes = 1 := by
  cases t with
  | list items => exact Bool.noConfusion h
  | map pairs => exact Bool.noConfusion h
  | _ => rfl

theorem nodes_pos (t : Tree) : 0 < t.nodes := by
  cases t with
  | list items => rw [nodes_list]; omega
  | map pairs => rw [nodes_map]; omega
  | _ => exact Nat.one_pos

/-! ## Keys -/

mutual

/-- How many keys the maps of a tree have. -/
def keys : Tree → Nat
  | .list items => keysOfItems items
  | .map pairs => keysOfPairs pairs
  | _ => 0

def keysOfItems : List Tree → Nat
  | [] => 0
  | item :: items => item.keys + keysOfItems items

def keysOfPairs : List (Bytes × Tree) → Nat
  | [] => 0
  | (_, value) :: pairs => 1 + value.keys + keysOfPairs pairs

end

theorem keysOfItems_eq (items : List Tree) : keysOfItems items = (items.map keys).sum := by
  induction items with
  | nil => rfl
  | cons item items ih => rw [keysOfItems, ih, List.map_cons, List.sum_cons]

theorem keysOfPairs_eq (pairs : List (Bytes × Tree)) :
    keysOfPairs pairs = (pairs.map fun kv => 1 + kv.2.keys).sum := by
  induction pairs with
  | nil => rfl
  | cons pair pairs ih =>
    obtain ⟨k, value⟩ := pair
    rw [keysOfPairs, ih, List.map_cons, List.sum_cons]

/-- Nodes and keys together. -/
def size (t : Tree) : Nat := t.nodes + t.keys

theorem size_scalar {t : Tree} (h : t.isContainer = false) : t.size = 1 := by
  cases t with
  | list items => exact Bool.noConfusion h
  | map pairs => exact Bool.noConfusion h
  | _ => rfl

theorem size_list (items : List Tree) : (list items).size = 1 + (items.map size).sum := by
  have hsum : (items.map size).sum = (items.map nodes).sum + (items.map keys).sum := List.sum_map_add
  rw [size, nodes_list, keys, keysOfItems_eq, hsum, Nat.add_assoc]

theorem size_map (pairs : List (Bytes × Tree)) :
    (map pairs).size = 1 + (pairs.map fun kv => 1 + kv.2.size).sum := by
  have hsum : (pairs.map fun kv => 1 + kv.2.size).sum =
      (pairs.map fun kv => kv.2.nodes).sum + (pairs.map fun kv => 1 + kv.2.keys).sum := by
    rw [← List.sum_map_add]
    exact congrArg List.sum (List.map_congr_left fun kv _ => Nat.add_left_comm ..)
  rw [size, nodes_map, keys, keysOfPairs_eq, hsum, Nat.add_assoc]

/-! ## Properties that hold everywhere -/

mutual

/-- A property holds of a tree and of every tree in it. -/
def All (p : Tree → Prop) : Tree → Prop
  | .list items => p (.list items) ∧ AllItems p items
  | .map pairs => p (.map pairs) ∧ AllPairs p pairs
  | scalar => p scalar

def AllItems (p : Tree → Prop) : List Tree → Prop
  | [] => True
  | item :: items => item.All p ∧ AllItems p items

def AllPairs (p : Tree → Prop) : List (Bytes × Tree) → Prop
  | [] => True
  | (_, value) :: pairs => value.All p ∧ AllPairs p pairs

end

variable {p q : Tree → Prop}

theorem allItems_iff {items : List Tree} : AllItems p items ↔ ∀ t ∈ items, t.All p := by
  induction items with
  | nil => simp [AllItems]
  | cons item items ih => rw [AllItems, ih, List.forall_mem_cons]

theorem allPairs_iff {pairs : List (Bytes × Tree)} :
    AllPairs p pairs ↔ ∀ kv ∈ pairs, kv.2.All p := by
  induction pairs with
  | nil => simp [AllPairs]
  | cons pair pairs ih =>
    obtain ⟨k, value⟩ := pair
    rw [AllPairs, ih, List.forall_mem_cons]

theorem all_list {items : List Tree} :
    (list items).All p ↔ p (.list items) ∧ ∀ t ∈ items, t.All p := by
  rw [All, allItems_iff]

theorem all_map {pairs : List (Bytes × Tree)} :
    (map pairs).All p ↔ p (.map pairs) ∧ ∀ kv ∈ pairs, kv.2.All p := by
  rw [All, allPairs_iff]

theorem All.mono (h : ∀ t, p t → q t) {t : Tree} : t.All p → t.All q := by
  induction t using Tree.induct with
  | scalar t ht => cases t <;> first | exact h _ | exact Bool.noConfusion ht
  | list items ih =>
    rw [all_list, all_list]
    exact fun ⟨hp, hall⟩ => ⟨h _ hp, fun t ht => ih t ht (hall t ht)⟩
  | map pairs ih =>
    rw [all_map, all_map]
    exact fun ⟨hp, hall⟩ => ⟨h _ hp, fun kv hkv => ih kv hkv (hall kv hkv)⟩

theorem All.and {t : Tree} (hp : t.All p) (hq : t.All q) : t.All fun s => p s ∧ q s := by
  induction t using Tree.induct with
  | scalar t ht => cases t <;> first | exact ⟨hp, hq⟩ | exact Bool.noConfusion ht
  | list items ih =>
    rw [all_list] at hp hq ⊢
    exact ⟨⟨hp.1, hq.1⟩, fun t ht => ih t ht (hp.2 t ht) (hq.2 t ht)⟩
  | map pairs ih =>
    rw [all_map] at hp hq ⊢
    exact ⟨⟨hp.1, hq.1⟩, fun kv hkv => ih kv hkv (hp.2 kv hkv) (hq.2 kv hkv)⟩

theorem all_congr (h : ∀ t, p t ↔ q t) {t : Tree} : t.All p ↔ t.All q :=
  ⟨.mono fun t => (h t).mp, .mono fun t => (h t).mpr⟩

theorem all_and {t : Tree} : (t.All fun s => p s ∧ q s) ↔ t.All p ∧ t.All q :=
  ⟨fun h => ⟨.mono (fun _ hs => hs.1) h, .mono (fun _ hs => hs.2) h⟩, fun h => h.1.and h.2⟩

/-! ## Relations that hold of trees that differ inside -/

/-- A relation of trees that can be gone along, and that a container around both does not end. -/
structure Congruence (R : Tree → Tree → Prop) : Prop where
  refl : ∀ t, R t t
  trans : ∀ {t t' t''}, R t t' → R t' t'' → R t t''
  item : ∀ {t t'} (before after), R t t' →
    R (.list (before ++ t :: after)) (.list (before ++ t' :: after))
  value : ∀ {t t'} (before after) (k : Bytes), R t t' →
    R (.map (before ++ (k, t) :: after)) (.map (before ++ (k, t') :: after))

namespace Congruence

variable {R : Tree → Tree → Prop}

/-- Every item may differ. -/
theorem items (hR : Congruence R) {items items' : List Tree} (h : List.Forall₂ R items items') :
    R (.list items) (.list items') := by
  have hbehind : ∀ before, R (.list (before ++ items)) (.list (before ++ items')) := by
    induction h with
    | nil => exact fun before => hR.refl _
    | @cons item item' items items' hitem _ ih =>
      intro before
      have hrest := ih (before ++ [item'])
      rw [List.append_assoc, List.append_assoc] at hrest
      exact hR.trans (hR.item before items hitem) hrest
  exact hbehind []

/-- Every value may differ. -/
theorem values (hR : Congruence R) {pairs pairs' : List (Bytes × Tree)}
    (h : List.Forall₂ (fun kv kv' => kv.1 = kv'.1 ∧ R kv.2 kv'.2) pairs pairs') :
    R (.map pairs) (.map pairs') := by
  have hbehind : ∀ before, R (.map (before ++ pairs)) (.map (before ++ pairs')) := by
    induction h with
    | nil => exact fun before => hR.refl _
    | @cons kv kv' pairs pairs' hkv _ ih =>
      intro before
      obtain ⟨k, value⟩ := kv
      obtain ⟨k', value'⟩ := kv'
      obtain ⟨rfl, hvalue⟩ := hkv
      have hrest := ih (before ++ [(k, value')])
      rw [List.append_assoc, List.append_assoc] at hrest
      exact hR.trans (hR.value before pairs k hvalue) hrest
  exact hbehind []

end Congruence

/-! ## Counts that fit 32 bits -/

/-- How many entries a container has. -/
def entries : Tree → Nat
  | .list items => items.length
  | .map pairs => pairs.length
  | _ => 0

/-- No container has as many entries as 32 bits cannot count. -/
def Countable (t : Tree) : Prop := t.All fun s => s.entries < 0x100000000

theorem countable_list {items : List Tree} :
    (list items).Countable ↔ items.length < 0x100000000 ∧ ∀ t ∈ items, t.Countable :=
  all_list

theorem countable_map {pairs : List (Bytes × Tree)} :
    (map pairs).Countable ↔ pairs.length < 0x100000000 ∧ ∀ kv ∈ pairs, kv.2.Countable :=
  all_map

theorem countable_scalar {t : Tree} (h : t.isContainer = false) : t.Countable := by
  cases t with
  | list items => exact Bool.noConfusion h
  | map pairs => exact Bool.noConfusion h
  | _ => show (0 : Nat) < 0x100000000; omega

/-- A list with one entry more than 32 bits can count. -/
def crowd (entry : Tree) : Tree := .list (List.replicate 0x100000000 entry)

theorem not_countable_crowd (entry : Tree) : ¬ (crowd entry).Countable := by
  rw [crowd, countable_list, List.length_replicate]
  exact fun h => absurd h.1 (by decide)

theorem depth_crowd {entry : Tree} (h : entry.isContainer = false) : (crowd entry).depth ≤ 1 :=
  depth_list_le.mpr fun t ht => by rw [List.eq_of_mem_replicate ht, depth_scalar h]

/-- The lengths at the root of a tree are below a bound. -/
def LengthsBelow (n : Nat) : Tree → Prop
  | .text octets => octets.length < n
  | .list items => items.length < n
  | .map pairs => pairs.length < n ∧ ∀ kv ∈ pairs, kv.1.length < n
  | _ => True

theorem LengthsBelow.mono {m n : Nat} (h : m ≤ n) {t : Tree} (ht : t.LengthsBelow m) :
    t.LengthsBelow n := by
  cases t with
  | text octets => exact Nat.lt_of_lt_of_le ht h
  | list items => exact Nat.lt_of_lt_of_le ht h
  | map pairs =>
    exact ⟨Nat.lt_of_lt_of_le ht.1 h, fun kv hkv => Nat.lt_of_lt_of_le (ht.2 kv hkv) h⟩
  | _ => trivial

/-- No container, string or key is so long that 32 bits cannot hold its length. -/
def Short (t : Tree) : Prop := t.All (LengthsBelow 0x100000000)

theorem short_list {items : List Tree} :
    (list items).Short ↔ items.length < 0x100000000 ∧ ∀ t ∈ items, t.Short :=
  all_list

theorem short_map {pairs : List (Bytes × Tree)} :
    (map pairs).Short ↔
      (pairs.length < 0x100000000 ∧ ∀ kv ∈ pairs, kv.1.length < 0x100000000) ∧
        ∀ kv ∈ pairs, kv.2.Short :=
  all_map

theorem Short.countable {t : Tree} (h : t.Short) : t.Countable := by
  refine All.mono (fun s hs => ?_) h
  cases s with
  | list items => exact hs
  | map pairs => exact hs.1
  | _ => show (0 : Nat) < 0x100000000; omega

end TreeDigest.Tree
