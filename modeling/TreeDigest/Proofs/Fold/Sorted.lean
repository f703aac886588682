import TreeDigest.Proofs.Fold.Depth

/-!
# Sorting pairs is folding a sorted tree

A folder that sorts pairs holds them back until their map closes. What it absorbs in
the end is what one that does not sort absorbs of another tree: the one in which the
pairs of every map stand in the order of their keys.

That tree is the same for all trees that differ in the order of pairs only. So the
order of pairs does not count, except among the pairs of one key: these keep the
order in which they came.
-/

namespace TreeDigest

/-! ## Pairs by their keys -/

section Pairs

variable {α β : Type} {pairs pairs' : List (Bytes × α)}

/-- Pairs in the order of their keys, those of one key as they came. -/
def byKey (pairs : List (Bytes × α)) : List (Bytes × α) :=
  pairs.mergeSort fun a b => decide (a.1 ≤ b.1)

/-- The pairs of one key, as they came. -/
def ofKey (k : Bytes) (pairs : List (Bytes × α)) : List (Bytes × α) :=
  pairs.filter fun kv => kv.1 = k

theorem mem_byKey {kv : Bytes × α} : kv ∈ byKey pairs ↔ kv ∈ pairs := List.mem_mergeSort

theorem byKey_perm (pairs : List (Bytes × α)) : (byKey pairs).Perm pairs := List.mergeSort_perm _ _

theorem length_byKey (pairs : List (Bytes × α)) : (byKey pairs).length = pairs.length :=
  List.length_mergeSort _

/-- Where pairs go does not depend on their values. -/
theorem byKey_mapValues (g : α → β) (pairs : List (Bytes × α)) :
    byKey (pairs.map fun kv => (kv.1, g kv.2)) = (byKey pairs).map fun kv => (kv.1, g kv.2) :=
  (List.map_mergeSort (f := fun kv : Bytes × α => (kv.1, g kv.2)) fun _ _ _ _ => rfl).symm

theorem key_le_trans (a b c : Bytes × α) (hab : decide (a.1 ≤ b.1) = true)
    (hbc : decide (b.1 ≤ c.1) = true) : decide (a.1 ≤ c.1) = true :=
  decide_eq_true (List.le_trans (of_decide_eq_true hab) (of_decide_eq_true hbc))

theorem key_le_total (a b : Bytes × α) : (decide (a.1 ≤ b.1) || decide (b.1 ≤ a.1)) = true := by
  rw [Bool.or_eq_true, decide_eq_true_iff, decide_eq_true_iff]
  exact List.le_total a.1 b.1

theorem byKey_ordered (pairs : List (Bytes × α)) :
    (byKey pairs).Pairwise fun a b => a.1 ≤ b.1 :=
  (List.pairwise_mergeSort key_le_trans key_le_total pairs).imp of_decide_eq_true

theorem ofKey_cons (k : Bytes) (kv : Bytes × α) (pairs : List (Bytes × α)) :
    ofKey k (kv :: pairs) = if kv.1 = k then kv :: ofKey k pairs else ofKey k pairs := by
  rw [ofKey, List.filter_cons]
  simp only [decide_eq_true_iff]
  rfl

theorem mem_ofKey {k : Bytes} {kv : Bytes × α} : kv ∈ ofKey k pairs ↔ kv ∈ pairs ∧ kv.1 = k := by
  rw [ofKey, List.mem_filter, decide_eq_true_iff]

/-- **Sorting keeps the pairs of each key as they came.** -/
theorem ofKey_byKey (k : Bytes) (pairs : List (Bytes × α)) : ofKey k (byKey pairs) = ofKey k pairs := by
  have hordered : (ofKey k pairs).Pairwise fun a b => decide (a.1 ≤ b.1) = true := by
    refine List.pairwise_of_forall_mem_list fun a ha b hb => decide_eq_true ?_
    rw [(mem_ofKey.mp ha).2, (mem_ofKey.mp hb).2]
    exact List.le_refl k
  have hsub : (ofKey k pairs).Sublist (byKey pairs) :=
    List.sublist_mergeSort key_le_trans key_le_total hordered List.filter_sublist
  have hsame : (ofKey k pairs).Sublist (ofKey k (byKey pairs)) := by
    have hfilter := hsub.filter fun kv => decide (kv.1 = k)
    simp only [ofKey, List.filter_filter, Bool.and_self] at hfilter
    exact hfilter
  exact (hsame.eq_of_length ((byKey_perm pairs).filter _).length_eq.symm).symm

/-- The first of ordered pairs has a least key. -/
theorem head_le {kv kv' : Bytes × α} (h : (kv :: pairs).Pairwise fun a b => a.1 ≤ b.1)
    (hmem : kv' ∈ kv :: pairs) : kv.1 ≤ kv'.1 := by
  rcases List.mem_cons.mp hmem with rfl | hmem
  · exact List.le_refl _
  · exact List.rel_of_pairwise_cons h hmem

/-- Pairs are among others if they are among those of their key. -/
theorem mem_iff_of_ofKey (h : ∀ k, ofKey k pairs = ofKey k pairs') (kv : Bytes × α) :
    kv ∈ pairs ↔ kv ∈ pairs' := by
  have hkey : kv ∈ ofKey kv.1 pairs ↔ kv ∈ ofKey kv.1 pairs' := by rw [h]
  simpa only [mem_ofKey, and_true] using hkey

/-- **Ordered pairs are settled by the pairs of each key.** -/
theorem eq_of_ofKey (h : pairs.Pairwise fun a b => a.1 ≤ b.1)
    (h' : pairs'.Pairwise fun a b => a.1 ≤ b.1) (hsame : ∀ k, ofKey k pairs = ofKey k pairs') :
    pairs = pairs' := by
  have hmem := mem_iff_of_ofKey hsame
  induction pairs generalizing pairs' with
  | nil => exact (List.eq_nil_iff_forall_not_mem.mpr fun kv hkv => nomatch (hmem kv).mpr hkv).symm
  | cons kv pairs ih =>
    cases pairs' with
    | nil => exact nomatch (hmem kv).mp (List.mem_cons_self ..)
    | cons kv' pairs' =>
      -- both first keys are least, so they are one key, and its first pairs are the same
      have hle : kv.1 ≤ kv'.1 := head_le h ((hmem kv').mpr (List.mem_cons_self ..))
      have hge : kv'.1 ≤ kv.1 := head_le h' ((hmem kv).mp (List.mem_cons_self ..))
      have hkey : kv.1 = kv'.1 := List.le_antisymm hle hge
      have hfirst := hsame kv.1
      rw [ofKey_cons, ofKey_cons, if_pos rfl, if_pos hkey.symm] at hfirst
      obtain rfl : kv = kv' := (List.cons.inj hfirst).1
      have hrest : ∀ k, ofKey k pairs = ofKey k pairs' := by
        intro k
        have hk := hsame k
        rw [ofKey_cons, ofKey_cons] at hk
        split at hk
        · exact (List.cons.inj hk).2
        · exact hk
      rw [ih h.of_cons h'.of_cons hrest (mem_iff_of_ofKey hrest)]

/-- Pairs that differ in the order of keys only are the same in the order of their keys. -/
theorem byKey_congr (h : ∀ k, ofKey k pairs = ofKey k pairs') : byKey pairs = byKey pairs' :=
  eq_of_ofKey (byKey_ordered pairs) (byKey_ordered pairs') fun k => by
    rw [ofKey_byKey, ofKey_byKey, h]

theorem ofKey_mapValues (g : α → β) (k : Bytes) (pairs : List (Bytes × α)) :
    ofKey k (pairs.map fun kv => (kv.1, g kv.2)) = (ofKey k pairs).map fun kv => (kv.1, g kv.2) := by
  rw [ofKey, ofKey, List.filter_map]
  rfl

end Pairs

/-! ## Sorted trees -/

namespace Tree

mutual

/-- A tree in which the pairs of every map are in the order of their keys. -/
def sorted : Tree → Tree
  | .list items => .list (sortedItems items)
  | .map pairs => .map (byKey (sortedPairs pairs))
  | scalar => scalar

def sortedItems : List Tree → List Tree
  | [] => []
  | item :: items => item.sorted :: sortedItems items

def sortedPairs : List (Bytes × Tree) → List (Bytes × Tree)
  | [] => []
  | (k, value) :: pairs => (k, value.sorted) :: sortedPairs pairs

end

theorem sorted_list (items : List Tree) : (list items).sorted = .list (items.map sorted) := by
  have hitems : sortedItems items = items.map sorted := by
    induction items with
    | nil => rfl
    | cons item items ih => rw [sortedItems, ih, List.map_cons]
  rw [sorted, hitems]

theorem sorted_map (pairs : List (Bytes × Tree)) :
    (map pairs).sorted = .map (byKey (pairs.map fun kv => (kv.1, kv.2.sorted))) := by
  have hpairs : sortedPairs pairs = pairs.map fun kv => (kv.1, kv.2.sorted) := by
    induction pairs with
    | nil => rfl
    | cons pair pairs ih => rw [sortedPairs, ih, List.map_cons]
  rw [sorted, hpairs]

theorem sorted_scalar {t : Tree} (h : t.isContainer = false) : t.sorted = t := by
  cases t with
  | list items => exact Bool.noConfusion h
  | map pairs => exact Bool.noConfusion h
  | _ => rfl

theorem sorted_crowd {entry : Tree} (h : entry.isContainer = false) :
    (crowd entry).sorted = crowd entry := by
  rw [crowd, sorted_list, List.map_replicate, sorted_scalar h]

/-- **What is absorbed of a tree by sorting is what is absorbed of the sorted tree.** -/
theorem absorbed_sorted (t : Tree) : t.absorbed .sorted = t.sorted.absorbed .preserve := by
  induction t using Tree.induct with
  | scalar t ht =>
    cases t with
    | list items => exact Bool.noConfusion ht
    | map pairs => exact Bool.noConfusion ht
    | _ => rfl
  | list items ih =>
    have hitems : items.map (absorbed .sorted) = (items.map sorted).map (absorbed .preserve) := by
      rw [List.map_map]
      exact List.map_congr_left ih
    rw [sorted_list, absorbed, absorbed, absorbedItems_eq, absorbedItems_eq, hitems, List.length_map]
  | map pairs ih =>
    -- sorting by keys goes past what the values absorb
    have hpairs : KeyOrder.sorted.primitives (pairs.map fun kv => (kv.1, kv.2.absorbed .sorted)) =
        KeyOrder.preserve.primitives ((byKey (pairs.map fun kv => (kv.1, kv.2.sorted))).map
          fun kv => (kv.1, kv.2.absorbed .preserve)) := by
      rw [← byKey_mapValues, List.map_map, List.map_congr_left fun kv hkv => by rw [ih kv hkv]]
      rfl
    rw [sorted_map, absorbed, absorbed, absorbedPairs_eq, absorbedPairs_eq, hpairs, length_byKey,
      List.length_map]

/-- What holds of every pair of a map holds of every pair of the sorted map. -/
theorem forall_mem_byKey_sorted {pairs : List (Bytes × Tree)} {p : Tree → Prop} :
    (∀ kv ∈ byKey (pairs.map fun kv => (kv.1, kv.2.sorted)), p kv.2) ↔
      ∀ kv ∈ pairs, p kv.2.sorted := by
  simp only [mem_byKey, List.forall_mem_map]

theorem depth_sorted_le {t : Tree} {n : Nat} : t.sorted.depth ≤ n ↔ t.depth ≤ n := by
  induction t using Tree.induct generalizing n with
  | scalar t ht => rw [sorted_scalar ht]
  | list items ih =>
    rw [sorted_list]
    cases n with
    | zero =>
      have h := depth_list_pos items
      have h' := depth_list_pos (items.map sorted)
      omega
    | succ n =>
      rw [depth_list_le, depth_list_le, List.forall_mem_map]
      exact forall₂_congr fun t ht => ih t ht
  | map pairs ih =>
    rw [sorted_map]
    cases n with
    | zero =>
      have h := depth_map_pos pairs
      have h' := depth_map_pos (byKey (pairs.map fun kv => (kv.1, kv.2.sorted)))
      omega
    | succ n =>
      rw [depth_map_le, depth_map_le, forall_mem_byKey_sorted (p := fun t => t.depth ≤ n)]
      exact forall₂_congr fun kv hkv => ih kv hkv

theorem depth_sorted (t : Tree) : t.sorted.depth = t.depth :=
  Nat.le_antisymm (depth_sorted_le.mpr (Nat.le_refl _)) (depth_sorted_le.mp (Nat.le_refl _))

theorem countable_sorted {t : Tree} : t.sorted.Countable ↔ t.Countable := by
  induction t using Tree.induct with
  | scalar t ht => rw [sorted_scalar ht]
  | list items ih =>
    rw [sorted_list, countable_list, countable_list, List.length_map, List.forall_mem_map]
    exact and_congr_right fun _ => forall₂_congr fun t ht => ih t ht
  | map pairs ih =>
    rw [sorted_map, countable_map, countable_map, length_byKey, List.length_map,
      forall_mem_byKey_sorted (p := Countable)]
    exact and_congr_right fun _ => forall₂_congr fun kv hkv => ih kv hkv

theorem digest_sorted (t : Tree) (o : FoldOptions) :
    t.digest { o with keyOrder := .sorted } = t.sorted.digest { o with keyOrder := .preserve } := by
  rw [digest, digest, absorbed_sorted]

end Tree

end TreeDigest
