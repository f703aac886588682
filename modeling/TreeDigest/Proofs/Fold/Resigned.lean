import TreeDigest.Proofs.Fold.Signedness
import TreeDigest.Proofs.Fold.Stops

/-!
# Trees that differ in the sign of integers

A tree is *resigned* when some of its integers are replaced by the integers of the other kind
with the same values, at as many places as one likes. `Resigned.congr` is the induction that
everything goes through: what is put together from the parts of a tree, and gives the same
for a signed integer and the unsigned one of its value, gives the same for resigned trees.

Folding is of that kind but for the digest, which is one for resigned trees since
`mapIntegers` makes them one tree (`resigned_iff`).
-/

namespace TreeDigest

/-- What gives the same for the two integers of every value depends on values alone. -/
theorem Integer.congr_value {β : Type} {f : Integer → β} {m n : Integer}
    (h : ∀ u : UInt64, u.toNat < 0x8000000000000000 → f (.signed u.toInt64) = f (.unsigned u))
    (hvalue : m.value = n.value) : f m = f n := by
  have hsigned : ∀ n : Integer, f n.toSigned = f n := by
    intro n
    cases n with
    | signed i => rfl
    | unsigned u =>
      by_cases hu : u.toNat < 0x8000000000000000
      · rw [toSigned_unsigned hu, h u hu]
      · rw [toSigned, if_neg hu]
  rw [← hsigned m, toSigned_inj hvalue, hsigned]

namespace Tree

/-- A tree with some of its integers replaced by integers of either kind with the same values. -/
inductive Resigned : Tree → Tree → Prop
  | refl (t : Tree) : Resigned t t
  | trans {t t' t'' : Tree} : Resigned t t' → Resigned t' t'' → Resigned t t''
  | integer {m n : Integer} : m.value = n.value → Resigned m.tree n.tree
  | item {t t' : Tree} (before after : List Tree) : Resigned t t' →
      Resigned (.list (before ++ t :: after)) (.list (before ++ t' :: after))
  | value {t t' : Tree} (before after : List (Bytes × Tree)) (k : Bytes) : Resigned t t' →
      Resigned (.map (before ++ (k, t) :: after)) (.map (before ++ (k, t') :: after))

namespace Resigned

variable {t t' : Tree}

theorem symm (h : Resigned t t') : Resigned t' t := by
  induction h with
  | refl t => exact refl t
  | trans _ _ ih ih' => exact trans ih' ih
  | integer hvalue => exact integer hvalue.symm
  | item before after _ ih => exact item before after ih
  | value before after k _ ih => exact value before after k ih

theorem congruence : Congruence Resigned := ⟨refl, trans, item, value⟩

/-- **What does not tell the integers of a value apart does not tell resigned trees apart.** -/
theorem congr {β : Type} {F : Tree → β} (h : Resigned t t')
    (hinteger : ∀ u : UInt64, u.toNat < 0x8000000000000000 → F (.int u.toInt64) = F (.uint u))
    (hitem : ∀ {t t' : Tree} (before after : List Tree), F t = F t' →
      F (.list (before ++ t :: after)) = F (.list (before ++ t' :: after)))
    (hvalue : ∀ {t t' : Tree} (before after : List (Bytes × Tree)) (k : Bytes), F t = F t' →
      F (.map (before ++ (k, t) :: after)) = F (.map (before ++ (k, t') :: after))) :
    F t = F t' := by
  induction h with
  | refl t => rfl
  | trans _ _ ih ih' => exact ih.trans ih'
  | integer h => exact Integer.congr_value (f := fun n => F n.tree) hinteger h
  | item before after _ ih => exact hitem before after ih
  | value before after k _ ih => exact hvalue before after k ih

/-- A property of all subtrees, if at each of them it is one of lengths and keys. -/
theorem all_iff {p : Tree → Prop} (h : Resigned t t')
    (hinteger : ∀ u : UInt64, u.toNat < 0x8000000000000000 → (p (.int u.toInt64) ↔ p (.uint u)))
    (hlist : ∀ {items items' : List Tree}, items.length = items'.length →
      (p (.list items) ↔ p (.list items')))
    (hmap : ∀ {pairs pairs' : List (Bytes × Tree)}, pairs.map Prod.fst = pairs'.map Prod.fst →
      (p (.map pairs) ↔ p (.map pairs'))) : t.All p ↔ t'.All p := by
  refine iff_of_eq (h.congr (F := fun t => t.All p) (fun u hu => propext (hinteger u hu))
    (fun {t t'} before after ih => propext ?_) fun {t t'} before after k ih => propext ?_)
  · have hlength : (before ++ t :: after).length = (before ++ t' :: after).length := by simp
    rw [all_list, all_list, hlist hlength, List.forall_mem_append, List.forall_mem_append,
      List.forall_mem_cons, List.forall_mem_cons, ih]
  · have hkeys : (before ++ (k, t) :: after).map Prod.fst =
        (before ++ (k, t') :: after).map Prod.fst := by simp
    rw [all_map, all_map, hmap hkeys, List.forall_mem_append, List.forall_mem_append,
      List.forall_mem_cons, List.forall_mem_cons, ih]

/-! ## One tree for all that are resigned -/

/-- A tree can be resigned by any rule that keeps values. -/
theorem mapIntegers {g : Integer → Integer} (hg : ∀ n, (g n).value = n.value) (t : Tree) :
    Resigned t (t.mapIntegers g) := by
  induction t using Tree.induct with
  | scalar t hscalar =>
    cases t with
    | list items => exact Bool.noConfusion hscalar
    | map pairs => exact Bool.noConfusion hscalar
    | int i => exact integer (m := .signed i) (hg _).symm
    | uint u => exact integer (m := .unsigned u) (hg _).symm
    | _ => exact refl _
  | list items ih =>
    rw [mapIntegers_list]
    exact congruence.items (List.forall₂_map_right_iff.mpr (List.forall₂_same.mpr ih))
  | map pairs ih =>
    rw [mapIntegers_map]
    exact congruence.values (List.forall₂_map_right_iff.mpr (List.forall₂_same.mpr fun kv hkv =>
      ⟨rfl, ih kv hkv⟩))

theorem mapIntegers_eq (h : Resigned t t') :
    t.mapIntegers .toSigned = t'.mapIntegers .toSigned :=
  h.congr
    (fun u hu => congrArg Integer.tree (Integer.toSigned_unsigned hu).symm)
    (fun before after ih => by simp only [mapIntegers_list, List.map_append, List.map_cons, ih])
    (fun before after k ih => by simp only [mapIntegers_map, List.map_append, List.map_cons, ih])

end Resigned

/-- Trees are alike up to the sign of integers when they are the same once all integers are signed
that can be. -/
theorem resigned_iff {t t' : Tree} :
    Resigned t t' ↔ t.mapIntegers .toSigned = t'.mapIntegers .toSigned := by
  constructor
  · exact Resigned.mapIntegers_eq
  · intro h
    have hback := (Resigned.mapIntegers Integer.value_toSigned t').symm
    rw [← h] at hback
    exact (Resigned.mapIntegers Integer.value_toSigned t).trans hback

/-! ## Folding -/

namespace Resigned

variable {t t' : Tree}

theorem stop?_eq (h : Resigned t t') : t.stop? = t'.stop? := by
  refine h.congr (fun _ _ => rfl) (fun {t t'} before after ih => ?_)
    fun {t t'} before after k ih => ?_
  · have hitems : stopItems? (before ++ t :: after) = stopItems? (before ++ t' :: after) := by
      funext levels
      rw [stopItems?_append, stopItems?_append, stopItems?, stopItems?, ih]
    funext levels
    rw [stop?, stop?, hitems, List.length_append, List.length_append, List.length_cons,
      List.length_cons]
  · have hpairs : stopPairs? (before ++ (k, t) :: after) =
        stopPairs? (before ++ (k, t') :: after) := by
      funext levels
      rw [stopPairs?_append, stopPairs?_append, stopPairs?, stopPairs?, ih]
    funext levels
    rw [stop?, stop?, hpairs, List.length_append, List.length_append, List.length_cons,
      List.length_cons]

theorem digest_eq (h : Resigned t t') (o : FoldOptions) : t.digest o = t'.digest o := by
  rw [← digest_mapIntegers Integer.value_toSigned t, h.mapIntegers_eq,
    digest_mapIntegers Integer.value_toSigned]

theorem depth_eq (h : Resigned t t') : t.depth = t'.depth := by
  rw [← depth_mapIntegers t, h.mapIntegers_eq, depth_mapIntegers]

theorem countable_iff (h : Resigned t t') : t.Countable ↔ t'.Countable := by
  rw [← countable_mapIntegers, h.mapIntegers_eq, countable_mapIntegers]

/-- **Folding does not tell resigned trees apart**, also where it fails. -/
theorem foldTreeOn_eq (h : Resigned t t') (side : Side) (o : FoldOptions) :
    foldTreeOn side t o = foldTreeOn side t' o := by
  rw [foldTreeOn_eq_stop, foldTreeOn_eq_stop, h.stop?_eq, h.digest_eq]

end Resigned

end Tree

end TreeDigest
