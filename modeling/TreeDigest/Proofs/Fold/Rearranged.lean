import TreeDigest.Proofs.Fold.Sorted

/-!
# Trees that differ in the order of pairs

Pairs of a map may change places as long as those of one key stay in their order, in
any map of a tree and in as many as one likes. Every tree can be rearranged into the
sorted one, and two trees can be rearranged into each other just if they are the same
when sorted.

A rearranged tree is as deep as the tree, has as many entries everywhere, and has the
same digest where pairs are sorted.
-/

namespace TreeDigest

variable {α : Type}

/-- The same pairs in another order, but for those of one key. -/
def Reordered (pairs pairs' : List (Bytes × α)) : Prop :=
  pairs.Perm pairs' ∧ ∀ k, ofKey k pairs = ofKey k pairs'

namespace Reordered

variable {pairs pairs' : List (Bytes × α)}

theorem symm (h : Reordered pairs pairs') : Reordered pairs' pairs :=
  ⟨h.1.symm, fun k => (h.2 k).symm⟩

/-- The pairs of each key tell all, even that there are as many of them. -/
theorem of_ofKey (h : ∀ k, ofKey k pairs = ofKey k pairs') : Reordered pairs pairs' := by
  have hsorted := (byKey_perm pairs).symm
  rw [byKey_congr h] at hsorted
  exact ⟨hsorted.trans (byKey_perm pairs'), h⟩

theorem byKey (pairs : List (Bytes × α)) : Reordered pairs (byKey pairs) :=
  .of_ofKey fun k => (ofKey_byKey k pairs).symm

theorem mapValues {β : Type} (g : α → β) (h : Reordered pairs pairs') :
    Reordered (pairs.map fun kv => (kv.1, g kv.2)) (pairs'.map fun kv => (kv.1, g kv.2)) :=
  .of_ofKey fun k => by rw [ofKey_mapValues, ofKey_mapValues, h.2]

end Reordered

namespace Tree

/-- A tree with pairs of some of its maps reordered. -/
inductive Rearranged : Tree → Tree → Prop
  | refl (t : Tree) : Rearranged t t
  | trans {t t' t'' : Tree} : Rearranged t t' → Rearranged t' t'' → Rearranged t t''
  | map {pairs pairs' : List (Bytes × Tree)} : Reordered pairs pairs' →
      Rearranged (.map pairs) (.map pairs')
  | item {t t' : Tree} (before after : List Tree) : Rearranged t t' →
      Rearranged (.list (before ++ t :: after)) (.list (before ++ t' :: after))
  | value {t t' : Tree} (before after : List (Bytes × Tree)) (k : Bytes) : Rearranged t t' →
      Rearranged (.map (before ++ (k, t) :: after)) (.map (before ++ (k, t') :: after))

namespace Rearranged

variable {t t' : Tree}

theorem symm (h : Rearranged t t') : Rearranged t' t := by
  induction h with
  | refl t => exact refl t
  | trans _ _ ih ih' => exact trans ih' ih
  | map h => exact map h.symm
  | item before after _ ih => exact item before after ih
  | value before after k _ ih => exact value before after k ih

theorem congruence : Congruence Rearranged := ⟨refl, trans, item, value⟩

/-! ## Rearranging entries -/

/-- Each item may be rearranged. -/
theorem items {items items' : List Tree} (h : List.Forall₂ Rearranged items items') :
    Rearranged (.list items) (.list items') :=
  congruence.items h

/-- A pair with the same key and a rearranged value. -/
def SameKey (kv kv' : Bytes × Tree) : Prop := kv.1 = kv'.1 ∧ Rearranged kv.2 kv'.2

/-- Each value may be rearranged. -/
theorem values {pairs pairs' : List (Bytes × Tree)} (h : List.Forall₂ SameKey pairs pairs') :
    Rearranged (.map pairs) (.map pairs') :=
  congruence.values h

/-! ## The sorted tree -/

/-- **A tree can be rearranged into the sorted one.** -/
theorem sorted (t : Tree) : Rearranged t t.sorted := by
  induction t using Tree.induct with
  | scalar t ht => rw [sorted_scalar ht]; exact refl t
  | list items ih =>
    rw [sorted_list]
    exact .items (List.forall₂_map_right_iff.mpr (List.forall₂_same.mpr ih))
  | map pairs ih =>
    have hvalues : Rearranged (.map pairs) (.map (pairs.map fun kv => (kv.1, kv.2.sorted))) :=
      .values (List.forall₂_map_right_iff.mpr (List.forall₂_same.mpr fun kv hkv => ⟨rfl, ih kv hkv⟩))
    rw [sorted_map]
    exact hvalues.trans (.map (.byKey _))

/-- **Trees that are rearranged are the same when they are sorted.** -/
theorem sorted_eq (h : Rearranged t t') : t.sorted = t'.sorted := by
  induction h with
  | refl t => rfl
  | trans _ _ ih ih' => exact ih.trans ih'
  | map h =>
    rw [sorted_map, sorted_map]
    exact congrArg Tree.map (byKey_congr (h.mapValues Tree.sorted).2)
  | item before after _ ih => simp only [sorted_list, List.map_append, List.map_cons, ih]
  | value before after k _ ih => simp only [sorted_map, List.map_append, List.map_cons, ih]

end Rearranged

/-- Trees are alike up to the order of pairs when they are the same once sorted. -/
theorem rearranged_iff {t t' : Tree} : Rearranged t t' ↔ t.sorted = t'.sorted := by
  constructor
  · exact Rearranged.sorted_eq
  · intro h
    have hback := (Rearranged.sorted t').symm
    rw [← h] at hback
    exact (Rearranged.sorted t).trans hback

namespace Rearranged

variable {t t' : Tree} {o : FoldOptions}

theorem depth_eq (h : Rearranged t t') : t.depth = t'.depth := by
  rw [← depth_sorted t, h.sorted_eq, depth_sorted]

theorem countable_iff (h : Rearranged t t') : t.Countable ↔ t'.Countable := by
  rw [← countable_sorted (t := t), h.sorted_eq, countable_sorted]

/-- **Rearranging does not change the digest where pairs are sorted.** -/
theorem digest_eq (h : Rearranged t t') (ho : o.keyOrder = .sorted) : t.digest o = t'.digest o := by
  have hsorted : { o with keyOrder := .sorted } = o := by rw [← ho]
  rw [← hsorted, digest_sorted, digest_sorted, h.sorted_eq]

end Rearranged

end Tree

end TreeDigest
