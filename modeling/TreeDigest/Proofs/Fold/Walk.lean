import TreeDigest.Proofs.Fold.Value

/-!
# Walking a tree

A walk over a tree folds it as one value, and from a fresh folder that is a whole
document. So `foldTreeOn` has a closed form: within the limit it is
`Tree.digest`, on either side.
-/

namespace TreeDigest

namespace Folder

variable {f : Folder} {side : Side} {o : FoldOptions}

/-- Where no container is open, what is taken goes into the digest. -/
theorem takeAll_of_frames_nil (ps : List Primitive) (h : f.frames = []) :
    f.takeAll ps = { f with digest := ps.foldl Digest.absorb f.digest } := by
  induction ps generalizing f with
  | nil => rfl
  | cons p ps ih =>
    have hp : f.take p = { f with digest := f.digest.absorb p } := by
      unfold take
      rw [h]
      rfl
    rw [takeAll_cons, ih (by rw [hp]; exact h), hp]
    rfl

theorem start_admits {n : Nat} (h : n ≤ o.depthLimit) : (start side o).Admits n where
  expects := ⟨rfl, by simp [start]⟩
  room := by simp [HasRoom, start]
  depth_le := by
    show 0 + n ≤ o.depthLimit
    omega

/-- A fresh folder that has folded a value has folded a whole document. -/
theorem finish_start_folded (ps : List Primitive) :
    ((start side o).folded ps).finish = .ok (ps.foldl Digest.absorb ⟨o.seed⟩) := by
  rw [folded, takeAll_of_frames_nil ps rfl]
  rfl

theorem finish_start_foldedTree (t : Tree) :
    ((start side o).foldedTree t).finish = .ok (t.digest o) :=
  finish_start_folded _

theorem count_ok {n : Nat} (h : n < 0x100000000) : Folding.count n f = .ok n.toUInt32 f := by
  unfold Folding.count Folder.countOf
  rw [if_pos h]
  rfl

end Folder

namespace Folding

open Folder

theorem trees_ok {items seen : List Tree} {n m : Nat} {f : Folder} {declared : Option UInt32}
    (h : f.Admits (m + 1)) (hn : n < 0x100000000) (hd : ∀ d ∈ declared, d.toNat = n)
    (hfold : ∀ t ∈ items, ∀ g : Folder, g.Admits m → tree t g = .ok () (g.foldedTree t))
    (hlen : seen.length + items.length = n) :
    trees items (f.listOver declared seen) = .ok () (f.listOver declared (seen ++ items)) := by
  induction items generalizing seen with
  | nil => rw [List.append_nil]; rfl
  | cons item items ih =>
    rw [List.forall_mem_cons] at hfold
    rw [List.length_cons] at hlen
    have hroom : RoomAfter declared seen.length := .of_lt hn hd (by omega)
    rw [trees, Steps.bind_ok (hfold.1 _ (listOver_admits h hroom)), listOver_foldedTree,
      ih hfold.2 (by rw [List.length_append, List.length_singleton]; omega), List.append_assoc,
      List.singleton_append]

theorem members_ok {pairs seen : List (Bytes × Tree)} {n m : Nat} {f : Folder}
    {declared : Option UInt32} (h : f.Admits (m + 1)) (hn : n < 0x100000000)
    (hd : ∀ d ∈ declared, d.toNat = n)
    (hfold : ∀ kv ∈ pairs, ∀ g : Folder, g.Admits m → tree kv.2 g = .ok () (g.foldedTree kv.2))
    (hlen : seen.length + pairs.length = n) :
    members pairs (f.mapOver declared seen) = .ok () (f.mapOver declared (seen ++ pairs)) := by
  induction pairs generalizing seen with
  | nil => rw [List.append_nil]; rfl
  | cons pair pairs ih =>
    obtain ⟨k, value⟩ := pair
    rw [List.forall_mem_cons] at hfold
    rw [List.length_cons] at hlen
    have hroom : RoomAfter declared seen.length := .of_lt hn hd (by omega)
    rw [members, Steps.bind_ok key_tree, Steps.bind_ok (hfold.1 _ (keyOver_admits h hroom)),
      keyOver_foldedTree, ih hfold.2 (by rw [List.length_append, List.length_singleton]; omega),
      List.append_assoc, List.singleton_append]

/-- **A walk over a tree folds it as one value.** -/
theorem tree_ok {t : Tree} {f : Folder} (h : f.Admits t.depth) (ht : t.Countable) :
    tree t f = .ok () (f.foldedTree t) := by
  induction t using Tree.induct generalizing f with
  | scalar t hscalar =>
    cases t with
    | list items => exact Bool.noConfusion hscalar
    | map pairs => exact Bool.noConfusion hscalar
    | _ => exact scalar_ok h
  | list items ih =>
    obtain ⟨hlen, hitems⟩ := Tree.countable_list.mp ht
    obtain ⟨m, hm, hdepth⟩ := Tree.exists_depth_list items
    rw [hm] at h
    -- wherever an item stands in the list, the folder there admits it
    have hfold : ∀ t ∈ items, ∀ g : Folder, g.Admits m → tree t g = .ok () (g.foldedTree t) :=
      fun t ht g hg => ih t ht (hg.mono (hdepth t ht)) (hitems t ht)
    have hdeclared := declared_eq hlen
    rw [tree, Steps.bind_ok (count_ok hlen), Steps.bind_ok (beginList_tree h),
      Steps.bind_ok (trees_ok h hlen hdeclared hfold (Nat.zero_add _)), List.nil_append,
      endList_tree h.room hlen hdeclared]
  | map pairs ih =>
    obtain ⟨hlen, hpairs⟩ := Tree.countable_map.mp ht
    obtain ⟨m, hm, hdepth⟩ := Tree.exists_depth_map pairs
    rw [hm] at h
    have hfold : ∀ kv ∈ pairs, ∀ g : Folder, g.Admits m →
        tree kv.2 g = .ok () (g.foldedTree kv.2) :=
      fun kv hkv g hg => ih kv hkv (hg.mono (hdepth kv hkv)) (hpairs kv hkv)
    have hdeclared := declared_eq hlen
    rw [tree, Steps.bind_ok (count_ok hlen), Steps.bind_ok (beginMap_tree h),
      Steps.bind_ok (members_ok h hlen hdeclared hfold (Nat.zero_add _)), List.nil_append,
      endMap_tree h.room hlen hdeclared]

end Folding

/-- **A tree within the limit has a digest, the same one on either side.** -/
theorem foldTreeOn_eq {side : Side} {t : Tree} {o : FoldOptions} (h : t.depth ≤ o.depthLimit)
    (ht : t.Countable) : foldTreeOn side t o = .ok (t.digest o) := by
  unfold foldTreeOn
  rw [Folding.tree_ok (Folder.start_admits h) ht]
  exact Folder.finish_start_foldedTree t

end TreeDigest
