import TreeDigest.Proofs.Fold.Rearranged
import TreeDigest.Proofs.Json.Collapse

/-!
# Collapsing rearranged trees

Which value of a key is the last does not depend on where the other keys stand. So
trees that differ in the order of pairs only still do so once each of their keys is
kept once.
-/

namespace TreeDigest.Json

open TreeDigest.Tree (Rearranged)
open TreeDigest.Tree.Rearranged (SameKey)

variable {k : Bytes} {pairs pairs' : List (Bytes × Tree)}

/-! ## The pairs of one key -/

/-- Each key is kept once. -/
theorem filter_firstKeys (k : Bytes) (ks : List Bytes) :
    ((firstKeys ks).filter fun j => j = k) = if k ∈ ks then [k] else [] := by
  induction ks with
  | nil => rfl
  | cons j ks ih =>
    rw [firstKeys, List.filter_cons, List.filter_filter]
    by_cases hj : j = k
    · -- of the keys behind it none is the same
      have hnone : ((firstKeys ks).filter fun i => decide (i = k) && decide (i ≠ j)) = [] := by
        rw [List.filter_eq_nil_iff]
        intro i _
        simp [hj]
      rw [hnone, if_pos (decide_eq_true hj), if_pos (hj ▸ List.mem_cons_self ..), hj]
    · have hrest : ((firstKeys ks).filter fun i => decide (i = k) && decide (i ≠ j)) =
          (firstKeys ks).filter fun i => i = k := by
        refine List.filter_congr fun i _ => ?_
        by_cases hi : i = k
        · simp [hi, Ne.symm hj]
        · simp [hi]
      rw [hrest, ih, if_neg (by simp [hj])]
      simp [Ne.symm hj]

/-- The last value of a key is that of the last of its pairs. -/
theorem lastValue?_ofKey (k : Bytes) (pairs : List (Bytes × Tree)) :
    lastValue? k (ofKey k pairs) = lastValue? k pairs := by
  induction pairs with
  | nil => rfl
  | cons pair pairs ih =>
    rw [ofKey_cons]
    by_cases hk : pair.1 = k
    · rw [if_pos hk, lastValue?, ih, lastValue?]
    · rw [if_neg hk, ih, lastValue?, if_neg hk, Option.or_none]

theorem lastValue?_eq_none (h : k ∉ pairs.map Prod.fst) : lastValue? k pairs = none := by
  rw [Option.eq_none_iff_forall_ne_some]
  intro value hvalue
  exact h (List.mem_map_of_mem (mem_of_lastValue? hvalue))

theorem ofKey_oncePerKey (k : Bytes) (pairs : List (Bytes × Tree)) :
    ofKey k (oncePerKey pairs) = ((lastValue? k pairs).map fun value => (k, value)).toList := by
  have hkey : ofKey k (oncePerKey pairs) =
      ((firstKeys (pairs.map Prod.fst)).filter fun j => j = k).filterMap fun j =>
        (lastValue? j pairs).map fun value => (j, value) := by
    rw [ofKey, oncePerKey, List.filter_filterMap, List.filterMap_filter]
    refine List.filterMap_congr fun j _ => ?_
    cases hvalue : lastValue? j pairs with
    | none => simp
    | some value => by_cases hj : j = k <;> simp [hj]
  rw [hkey, filter_firstKeys]
  by_cases hk : k ∈ pairs.map Prod.fst
  · rw [if_pos hk, List.filterMap_cons, List.filterMap_nil]
    cases lastValue? k pairs <;> rfl
  · rw [if_neg hk, lastValue?_eq_none hk]
    rfl

/-- **Reordered pairs are reordered when each key is kept once.** -/
theorem oncePerKey_reordered (h : Reordered pairs pairs') :
    Reordered (oncePerKey pairs) (oncePerKey pairs') := by
  refine .of_ofKey fun k => ?_
  rw [ofKey_oncePerKey, ofKey_oncePerKey, ← lastValue?_ofKey, h.2, lastValue?_ofKey]

/-! ## Rearranged values -/

theorem lastValue?_sameKey (h : List.Forall₂ SameKey pairs pairs') :
    Option.Rel Rearranged (lastValue? k pairs) (lastValue? k pairs') := by
  induction h with
  | nil => exact .none
  | @cons kv kv' pairs pairs' hkv _ ih =>
    obtain ⟨hkey, hvalue⟩ := hkv
    rw [lastValue?, lastValue?, ← hkey]
    generalize lastValue? k pairs = value? at ih ⊢
    generalize lastValue? k pairs' = value?' at ih ⊢
    cases ih with
    | some hlast => exact .some hlast
    | none =>
      dsimp only [Option.or]
      split
      · exact .some hvalue
      · exact .none

theorem oncePerKey_sameKey (h : List.Forall₂ SameKey pairs pairs') :
    List.Forall₂ SameKey (oncePerKey pairs) (oncePerKey pairs') := by
  have hkeys : pairs.map Prod.fst = pairs'.map Prod.fst := by
    rw [← List.forall₂_eq_eq_eq, List.forall₂_map_left_iff, List.forall₂_map_right_iff]
    exact h.imp fun _ _ hkv => hkv.1
  rw [oncePerKey, oncePerKey, ← hkeys]
  induction firstKeys (pairs.map Prod.fst) with
  | nil => exact .nil
  | cons k ks ih =>
    have hlast := lastValue?_sameKey (k := k) h
    rw [List.filterMap_cons, List.filterMap_cons]
    generalize lastValue? k pairs = value? at hlast
    generalize lastValue? k pairs' = value?' at hlast
    cases hlast with
    | none => exact ih
    | some hvalue => exact .cons ⟨rfl, hvalue⟩ ih

/-- **Trees that are rearranged are so when each key is kept once.** -/
theorem collapse_rearranged {t t' : Tree} (h : Rearranged t t') :
    Rearranged (collapse t) (collapse t') := by
  induction h with
  | refl t => exact .refl _
  | trans _ _ ih ih' => exact ih.trans ih'
  | map h =>
    rw [collapse_map, collapse_map]
    exact .map (oncePerKey_reordered (h.mapValues collapse))
  | item before after _ ih =>
    simp only [collapse_list, List.map_append, List.map_cons]
    exact ih.item _ _
  | value before after k _ ih =>
    have hrefl : ∀ pairs : List (Bytes × Tree), List.Forall₂ SameKey pairs pairs := fun pairs =>
      List.forall₂_same.mpr fun kv _ => ⟨rfl, .refl kv.2⟩
    simp only [collapse_map, List.map_append, List.map_cons]
    exact .values (oncePerKey_sameKey (List.rel_append (hrefl _) (.cons ⟨rfl, ih⟩ (hrefl _))))

end TreeDigest.Json
