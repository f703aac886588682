import Mathlib.Data.List.Basic
import TreeDigest.Proofs.Fold.Signedness
import TreeDigest.Proofs.Json.Form

/-!
# Trees in which each key occurs once

What is built of an object has each of its keys once, where it stood first, with the
value that stood last. The builder finds that by hashing; here it is said of the list
of pairs itself, `oncePerKey`, and then of whole trees, `collapse`.

A collapsed tree has no pair that the tree had not, and a tree in which no key occurs
twice is its own.
-/

namespace TreeDigest.Json

variable {k : Bytes} {pairs : List (Bytes × Tree)} {values : Std.HashMap Bytes Tree}

/-! ## Lists of pairs -/

/-- Every key once, where it stands first. -/
def firstKeys : List Bytes → List Bytes
  | [] => []
  | k :: ks => k :: (firstKeys ks).filter fun j => j ≠ k

/-- The value of a key that stands last. -/
def lastValue? (k : Bytes) : List (Bytes × Tree) → Option Tree
  | [] => none
  | (j, value) :: pairs => (lastValue? k pairs).or (if j = k then some value else none)

/-- Each key once, where it stands first, with the value that stands last. -/
def oncePerKey (pairs : List (Bytes × Tree)) : List (Bytes × Tree) :=
  (firstKeys (pairs.map Prod.fst)).filterMap fun k => (lastValue? k pairs).map fun value => (k, value)

/-! ## Finding them by hashing -/

theorem getElem?_lastValues (k : Bytes) (pairs : List (Bytes × Tree)) :
    (lastValues pairs)[k]? = lastValue? k pairs := by
  have hinsert : ∀ values : Std.HashMap Bytes Tree,
      (pairs.foldl (fun values kv => values.insert kv.1 kv.2) values)[k]? =
        (lastValue? k pairs).or values[k]? := by
    induction pairs with
    | nil => exact fun _ => rfl
    | cons pair pairs ih =>
      intro values
      rw [List.foldl_cons, ih, lastValue?, Option.or_assoc, Std.HashMap.getElem?_insert]
      congr 1
      by_cases hk : pair.1 = k
      · rw [if_pos (beq_iff_eq.mpr hk), if_pos hk]
        rfl
      · rw [if_neg (fun h => hk (eq_of_beq h)), if_neg hk]
        rfl
  have hlast : (lastValues pairs)[k]? =
      (lastValue? k pairs).or (∅ : Std.HashMap Bytes Tree)[k]? := hinsert ∅
  rw [hlast, Std.HashMap.getElem?_empty, Option.or_none]

/-- A key with its value in a map. -/
def placed (values : Std.HashMap Bytes Tree) (k : Bytes) : Option (Bytes × Tree) :=
  values[k]?.map fun value => (k, value)

/-- Without a key, a map has all others. -/
theorem filterMap_placed_erase (ks : List Bytes) :
    ks.filterMap (placed (values.erase k)) = (ks.filter fun j => j ≠ k).filterMap (placed values) := by
  rw [List.filterMap_filter]
  refine List.filterMap_congr fun j _ => ?_
  rw [placed, Std.HashMap.getElem?_erase]
  by_cases hj : j = k
  · simp [hj]
  · simp [hj, Ne.symm hj, placed]

theorem firstPlacesOnto_eq (taken : List (Bytes × Tree)) (values : Std.HashMap Bytes Tree)
    (pairs : List (Bytes × Tree)) :
    firstPlacesOnto taken values pairs =
      ((firstKeys (pairs.map Prod.fst)).filterMap (placed values)).reverse ++ taken := by
  induction pairs generalizing taken values with
  | nil => rfl
  | cons pair pairs ih =>
    rw [firstPlacesOnto, List.map_cons, firstKeys]
    cases hvalue : values[pair.1]? with
    | some value =>
      -- from here on the key is erased, as it is from the keys that follow
      have hplaced : placed values pair.1 = some (pair.1, value) := by rw [placed, hvalue]; rfl
      dsimp only
      rw [ih, filterMap_placed_erase, List.filterMap_cons_some hplaced, List.reverse_cons,
        List.append_assoc]
      rfl
    | none =>
      have hplaced : placed values pair.1 = none := by rw [placed, hvalue]; rfl
      have hsame : ∀ ks : List Bytes, (ks.filter fun j => j ≠ pair.1).filterMap (placed values) =
          ks.filterMap (placed values) := by
        intro ks
        rw [← filterMap_placed_erase]
        refine List.filterMap_congr fun j _ => ?_
        rw [placed, placed, Std.HashMap.getElem?_erase]
        by_cases hj : j = pair.1
        · rw [hj, if_pos BEq.rfl, hvalue]
        · rw [if_neg fun h => hj (eq_of_beq h).symm]
      dsimp only
      rw [ih, List.filterMap_cons_none hplaced, hsame]

/-- **Of each key, the place is the first and the value the last.** -/
theorem distinct_eq (pairs : List (Bytes × Tree)) : distinct pairs = oncePerKey pairs := by
  rw [distinct, firstPlacesOnto_eq, List.append_nil, List.reverse_reverse]
  exact List.filterMap_congr fun k _ => by rw [placed, getElem?_lastValues]

/-! ## What is kept -/

theorem length_firstKeys_le (ks : List Bytes) : (firstKeys ks).length ≤ ks.length := by
  induction ks with
  | nil => exact Nat.le_refl _
  | cons k ks ih =>
    exact Nat.succ_le_succ (Nat.le_trans (List.length_filter_le _ _) ih)

theorem length_oncePerKey_le (pairs : List (Bytes × Tree)) :
    (oncePerKey pairs).length ≤ pairs.length := by
  refine Nat.le_trans (List.length_filterMap_le _ _) (Nat.le_trans (length_firstKeys_le _) ?_)
  rw [List.length_map]

theorem mem_of_lastValue? {value : Tree} (h : lastValue? k pairs = some value) :
    (k, value) ∈ pairs := by
  induction pairs with
  | nil => cases h
  | cons pair pairs ih =>
    rw [lastValue?, Option.or_eq_some_iff] at h
    rcases h with h | ⟨-, h⟩
    · exact List.mem_cons_of_mem _ (ih h)
    · split at h
      · rename_i hk
        cases h
        rw [← hk]
        exact List.mem_cons_self ..
      · cases h

/-- What is kept was there. -/
theorem mem_of_mem_oncePerKey {kv : Bytes × Tree} (h : kv ∈ oncePerKey pairs) : kv ∈ pairs := by
  rw [oncePerKey, List.mem_filterMap] at h
  obtain ⟨k, -, hvalue⟩ := h
  obtain ⟨value, hlast, rfl⟩ := Option.map_eq_some_iff.mp hvalue
  exact mem_of_lastValue? hlast

theorem lastValue?_map (g : Tree → Tree) (k : Bytes) (pairs : List (Bytes × Tree)) :
    lastValue? k (pairs.map fun kv => (kv.1, g kv.2)) = (lastValue? k pairs).map g := by
  induction pairs with
  | nil => rfl
  | cons pair pairs ih =>
    rw [List.map_cons, lastValue?, ih, lastValue?, Option.map_or]
    split <;> rfl

/-- Which pairs are kept does not depend on the values. -/
theorem oncePerKey_mapValues (g : Tree → Tree) (pairs : List (Bytes × Tree)) :
    oncePerKey (pairs.map fun kv => (kv.1, g kv.2)) =
      (oncePerKey pairs).map fun kv => (kv.1, g kv.2) := by
  rw [oncePerKey, oncePerKey, List.map_filterMap, List.map_map]
  refine List.filterMap_congr fun k _ => ?_
  rw [lastValue?_map, Option.map_map, Option.map_map]
  rfl

theorem firstKeys_of_nodup {ks : List Bytes} (h : ks.Nodup) : firstKeys ks = ks := by
  induction ks with
  | nil => rfl
  | cons k ks ih =>
    rw [List.nodup_cons] at h
    rw [firstKeys, ih h.2, List.filter_eq_self.mpr]
    intro j hj
    exact decide_eq_true fun heq => h.1 (heq ▸ hj)

theorem lastValue?_of_nodup {kv : Bytes × Tree} (h : (pairs.map Prod.fst).Nodup) (hkv : kv ∈ pairs) :
    lastValue? kv.1 pairs = some kv.2 := by
  induction pairs with
  | nil => cases hkv
  | cons pair pairs ih =>
    rw [List.map_cons, List.nodup_cons] at h
    rw [lastValue?]
    rcases List.mem_cons.mp hkv with rfl | hkv
    · cases hlast : lastValue? kv.1 pairs with
      | none => rw [if_pos rfl]; rfl
      | some value => exact absurd (List.mem_map_of_mem (mem_of_lastValue? hlast)) h.1
    · rw [ih h.2 hkv]
      rfl

/-- Keys that are told apart are all kept. -/
theorem oncePerKey_of_nodup (h : (pairs.map Prod.fst).Nodup) : oncePerKey pairs = pairs := by
  have hkept : ∀ kv ∈ pairs, (lastValue? kv.1 pairs).map (fun value => (kv.1, value)) = some kv :=
    fun kv hkv => by rw [lastValue?_of_nodup h hkv]; rfl
  rw [oncePerKey, firstKeys_of_nodup h, List.filterMap_map]
  exact (List.filterMap_congr hkept).trans List.filterMap_some

/-! ## Trees -/

mutual

/-- A tree with each map collapsed. -/
def collapse : Tree → Tree
  | .list items => .list (collapseItems items)
  | .map pairs => .map (oncePerKey (collapsePairs pairs))
  | scalar => scalar

def collapseItems : List Tree → List Tree
  | [] => []
  | item :: items => collapse item :: collapseItems items

def collapsePairs : List (Bytes × Tree) → List (Bytes × Tree)
  | [] => []
  | (k, value) :: pairs => (k, collapse value) :: collapsePairs pairs

end

theorem collapse_list (items : List Tree) : collapse (.list items) = .list (items.map collapse) := by
  have hitems : collapseItems items = items.map collapse := by
    induction items with
    | nil => rfl
    | cons item items ih => rw [collapseItems, ih, List.map_cons]
  rw [collapse, hitems]

theorem collapse_map (pairs : List (Bytes × Tree)) :
    collapse (.map pairs) = .map (oncePerKey (pairs.map fun kv => (kv.1, collapse kv.2))) := by
  have hpairs : collapsePairs pairs = pairs.map fun kv => (kv.1, collapse kv.2) := by
    induction pairs with
    | nil => rfl
    | cons pair pairs ih => rw [collapsePairs, ih, List.map_cons]
  rw [collapse, hpairs]

theorem collapse_scalar {t : Tree} (h : t.isContainer = false) : collapse t = t := by
  cases t with
  | list items => exact Bool.noConfusion h
  | map pairs => exact Bool.noConfusion h
  | _ => rfl

/-- **A tree in which no key occurs twice is left as it is.** -/
theorem collapse_of_distinct {t : Tree} (h : Distinct t) : collapse t = t := by
  induction t using Tree.induct with
  | scalar t hscalar => exact collapse_scalar hscalar
  | list items ih =>
    have hitems := distinct_list.mp h
    rw [collapse_list, List.map_congr_left fun t ht => ih t ht (hitems t ht), List.map_id']
  | map pairs ih =>
    obtain ⟨hnodup, hpairs⟩ := distinct_map.mp h
    have hvalues : ∀ kv ∈ pairs, (kv.1, collapse kv.2) = kv := fun kv hkv => by
      rw [ih kv hkv (hpairs kv hkv)]
    rw [collapse_map, List.map_congr_left hvalues, List.map_id', oncePerKey_of_nodup hnodup]

/-- Collapsing and replacing integers do not depend on each other. -/
theorem collapse_mapIntegers (g : Integer → Integer) (t : Tree) :
    collapse (t.mapIntegers g) = (collapse t).mapIntegers g := by
  induction t using Tree.induct with
  | scalar t hscalar =>
    rw [collapse_scalar hscalar, collapse_scalar ((Tree.isContainer_mapIntegers t).trans hscalar)]
  | list items ih =>
    rw [Tree.mapIntegers_list, collapse_list, collapse_list, Tree.mapIntegers_list, List.map_map,
      List.map_map]
    exact congrArg Tree.list (List.map_congr_left ih)
  | map pairs ih =>
    have hvalues : ∀ kv ∈ pairs, (kv.1, collapse (kv.2.mapIntegers g)) =
        (kv.1, (collapse kv.2).mapIntegers g) := fun kv hkv => by rw [ih kv hkv]
    have hpairs : (pairs.map fun kv => (kv.1, (collapse kv.2).mapIntegers g)) =
        (pairs.map fun kv => (kv.1, collapse kv.2)).map fun kv => (kv.1, kv.2.mapIntegers g) := by
      rw [List.map_map]
      rfl
    rw [Tree.mapIntegers_map, collapse_map, collapse_map, Tree.mapIntegers_map, List.map_map,
      ← oncePerKey_mapValues, ← hpairs]
    exact congrArg (fun pairs => Tree.map (oncePerKey pairs)) (List.map_congr_left hvalues)

theorem collapse_countable {t : Tree} (h : t.Countable) : (collapse t).Countable := by
  induction t using Tree.induct with
  | scalar t hscalar => rwa [collapse_scalar hscalar]
  | list items ih =>
    obtain ⟨hlen, hitems⟩ := Tree.countable_list.mp h
    rw [collapse_list, Tree.countable_list, List.length_map, List.forall_mem_map]
    exact ⟨hlen, fun t ht => ih t ht (hitems t ht)⟩
  | map pairs ih =>
    obtain ⟨hlen, hpairs⟩ := Tree.countable_map.mp h
    have hcollapsed : ∀ kv ∈ pairs.map fun kv => (kv.1, collapse kv.2), kv.2.Countable := by
      rw [List.forall_mem_map]
      exact fun kv hkv => ih kv hkv (hpairs kv hkv)
    rw [collapse_map, Tree.countable_map]
    refine ⟨Nat.lt_of_le_of_lt (length_oncePerKey_le _) ?_, fun kv hkv => ?_⟩
    · rwa [List.length_map]
    · exact hcollapsed kv (mem_of_mem_oncePerKey hkv)

end TreeDigest.Json
