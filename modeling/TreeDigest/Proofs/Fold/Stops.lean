import TreeDigest.Proofs.Fold.Depth

/-!
# What stops a walk over a tree

A walk counts the entries of a container before it opens it, and goes through them before
it comes to what follows. So when there are several things wrong with a tree, the one that
is met first decides what the walk fails with. `Tree.stop?` says which one that is, by
recursion on the tree and with no folder in it. With that, folding has a closed form for
every tree (`foldTreeOn_eq_stop`), and two trees that are stopped by the same thing fail alike.
-/

namespace TreeDigest

/-- What can stop a walk: a container too many in depth, or entries too many to be counted. -/
inductive Stop where
  | deep
  | overfull

/-- The error of a stop, on a side with a limit. -/
def Stop.error (side : Side) (limit : Nat) : Stop → Error
  | .deep => side.depthExceeded limit
  | .overfull => .protocol .countOverflow

/-! ## The first stop of a tree -/

namespace Tree

/-- What stops a container with a number of entries, and else what stops these one level lower. -/
def stopWithin? (entries levels : Nat) (inside : Nat → Option Stop) : Option Stop :=
  if entries < 0x100000000 then
    match levels with
    | 0 => some .deep
    | levels + 1 => inside levels
  else some .overfull

mutual

/-- What stops a walk over a tree first, where containers may nest so many levels deeper. -/
def stop? : Tree → Nat → Option Stop
  | .list items, levels => stopWithin? items.length levels (stopItems? items)
  | .map pairs, levels => stopWithin? pairs.length levels (stopPairs? pairs)
  | _, _ => none

def stopItems? : List Tree → Nat → Option Stop
  | [], _ => none
  | item :: items, levels => (stop? item levels).or (stopItems? items levels)

def stopPairs? : List (Bytes × Tree) → Nat → Option Stop
  | [], _ => none
  | (_, value) :: pairs, levels => (stop? value levels).or (stopPairs? pairs levels)

end

variable {levels : Nat} {stop : Stop}

theorem stop?_scalar {t : Tree} (h : t.isContainer = false) : t.stop? levels = none := by
  cases t with
  | list items => cases h
  | map pairs => cases h
  | _ => rfl

theorem stopWithin?_eq_none_iff {entries : Nat} {inside : Nat → Option Stop} :
    stopWithin? entries levels inside = none ↔
      entries < 0x100000000 ∧ ∃ n, levels = n + 1 ∧ inside n = none := by
  unfold stopWithin?
  by_cases h : entries < 0x100000000
  · cases levels with
    | zero => simp [h]
    | succ n => simp [h]
  · simp [h]

theorem stopWithin?_eq_some_iff {entries : Nat} {inside : Nat → Option Stop} :
    stopWithin? entries levels inside = some stop ↔
      ¬ entries < 0x100000000 ∧ stop = .overfull ∨
      entries < 0x100000000 ∧ levels = 0 ∧ stop = .deep ∨
      entries < 0x100000000 ∧ ∃ n, levels = n + 1 ∧ inside n = some stop := by
  unfold stopWithin?
  by_cases h : entries < 0x100000000
  · cases levels with
    | zero => simp [h, eq_comm]
    | succ n => simp [h]
  · simp [h, eq_comm]

theorem stopItems?_eq_none_iff {items : List Tree} :
    stopItems? items levels = none ↔ ∀ t ∈ items, t.stop? levels = none := by
  induction items with
  | nil => simp [stopItems?]
  | cons item items ih => rw [stopItems?, Option.or_eq_none_iff, ih, List.forall_mem_cons]

theorem stopPairs?_eq_none_iff {pairs : List (Bytes × Tree)} :
    stopPairs? pairs levels = none ↔ ∀ kv ∈ pairs, kv.2.stop? levels = none := by
  induction pairs with
  | nil => simp [stopPairs?]
  | cons pair pairs ih => rw [stopPairs?, Option.or_eq_none_iff, ih, List.forall_mem_cons]

theorem exists_stop_item {items : List Tree} (h : stopItems? items levels = some stop) :
    ∃ t ∈ items, t.stop? levels = some stop := by
  induction items with
  | nil => cases h
  | cons item items ih =>
    rw [stopItems?, Option.or_eq_some_iff] at h
    rcases h with h | ⟨-, h⟩
    · exact ⟨item, List.mem_cons_self .., h⟩
    · obtain ⟨t, ht, hstop⟩ := ih h
      exact ⟨t, List.mem_cons_of_mem _ ht, hstop⟩

theorem exists_stop_value {pairs : List (Bytes × Tree)} (h : stopPairs? pairs levels = some stop) :
    ∃ kv ∈ pairs, kv.2.stop? levels = some stop := by
  induction pairs with
  | nil => cases h
  | cons pair pairs ih =>
    rw [stopPairs?, Option.or_eq_some_iff] at h
    rcases h with h | ⟨-, h⟩
    · exact ⟨pair, List.mem_cons_self .., h⟩
    · obtain ⟨kv, hkv, hstop⟩ := ih h
      exact ⟨kv, List.mem_cons_of_mem _ hkv, hstop⟩

/-- **Nothing stops a walk over a tree that can be counted and is not too deep.** -/
theorem stop?_eq_none_iff {t : Tree} : t.stop? levels = none ↔ t.Countable ∧ t.depth ≤ levels := by
  induction t using Tree.induct generalizing levels with
  | scalar t hscalar =>
    rw [stop?_scalar hscalar, depth_scalar hscalar]
    simp [countable_scalar hscalar]
  | list items ih =>
    rw [stop?, stopWithin?_eq_none_iff, countable_list]
    constructor
    · rintro ⟨hlen, n, rfl, hitems⟩
      have hall := fun t ht => (ih t ht).mp (stopItems?_eq_none_iff.mp hitems t ht)
      exact ⟨⟨hlen, fun t ht => (hall t ht).1⟩, depth_list_le.mpr fun t ht => (hall t ht).2⟩
    · rintro ⟨⟨hlen, hcount⟩, hdepth⟩
      obtain ⟨n, rfl, hdepths⟩ := exists_of_depth_list_le hdepth
      exact ⟨hlen, n, rfl, stopItems?_eq_none_iff.mpr fun t ht =>
        (ih t ht).mpr ⟨hcount t ht, hdepths t ht⟩⟩
  | map pairs ih =>
    rw [stop?, stopWithin?_eq_none_iff, countable_map]
    constructor
    · rintro ⟨hlen, n, rfl, hpairs⟩
      have hall := fun kv hkv => (ih kv hkv).mp (stopPairs?_eq_none_iff.mp hpairs kv hkv)
      exact ⟨⟨hlen, fun kv hkv => (hall kv hkv).1⟩, depth_map_le.mpr fun kv hkv => (hall kv hkv).2⟩
    · rintro ⟨⟨hlen, hcount⟩, hdepth⟩
      obtain ⟨n, rfl, hdepths⟩ := exists_of_depth_map_le hdepth
      exact ⟨hlen, n, rfl, stopPairs?_eq_none_iff.mpr fun kv hkv =>
        (ih kv hkv).mpr ⟨hcount kv hkv, hdepths kv hkv⟩⟩

/-- Only a tree with entries that cannot be counted is stopped for that. -/
theorem not_countable_of_overfull {t : Tree} (h : t.stop? levels = some .overfull) :
    ¬ t.Countable := by
  induction t using Tree.induct generalizing levels with
  | scalar t hscalar => rw [stop?_scalar hscalar] at h; cases h
  | list items ih =>
    rw [countable_list]
    rintro ⟨hlen, hitems⟩
    rw [stop?, stopWithin?_eq_some_iff] at h
    rcases h with ⟨hnot, -⟩ | ⟨-, -, hdeep⟩ | ⟨-, n, -, hinside⟩
    · exact hnot hlen
    · cases hdeep
    · obtain ⟨t, ht, hstop⟩ := exists_stop_item hinside
      exact ih t ht hstop (hitems t ht)
  | map pairs ih =>
    rw [countable_map]
    rintro ⟨hlen, hpairs⟩
    rw [stop?, stopWithin?_eq_some_iff] at h
    rcases h with ⟨hnot, -⟩ | ⟨-, -, hdeep⟩ | ⟨-, n, -, hinside⟩
    · exact hnot hlen
    · cases hdeep
    · obtain ⟨kv, hkv, hstop⟩ := exists_stop_value hinside
      exact ih kv hkv hstop (hpairs kv hkv)

/-- Only a tree that nests deeper than the levels there are is stopped for its depth. -/
theorem lt_depth_of_deep {t : Tree} (h : t.stop? levels = some .deep) : levels < t.depth := by
  induction t using Tree.induct generalizing levels with
  | scalar t hscalar => rw [stop?_scalar hscalar] at h; cases h
  | list items ih =>
    rw [stop?, stopWithin?_eq_some_iff] at h
    rcases h with ⟨-, hover⟩ | ⟨-, rfl, -⟩ | ⟨-, n, rfl, hinside⟩
    · cases hover
    · exact depth_list_pos items
    · obtain ⟨t, ht, hstop⟩ := exists_stop_item hinside
      by_contra hle
      exact absurd (depth_list_le.mp (Nat.le_of_not_lt hle) t ht) (Nat.not_le_of_lt (ih t ht hstop))
  | map pairs ih =>
    rw [stop?, stopWithin?_eq_some_iff] at h
    rcases h with ⟨-, hover⟩ | ⟨-, rfl, -⟩ | ⟨-, n, rfl, hinside⟩
    · cases hover
    · exact depth_map_pos pairs
    · obtain ⟨kv, hkv, hstop⟩ := exists_stop_value hinside
      by_contra hle
      exact absurd (depth_map_le.mp (Nat.le_of_not_lt hle) kv hkv)
        (Nat.not_le_of_lt (ih kv hkv hstop))

/-- A tree that is not too deep and cannot be counted is stopped for its entries. -/
theorem stop?_overfull {t : Tree} (ht : ¬ t.Countable) (h : t.depth ≤ levels) :
    t.stop? levels = some .overfull := by
  cases hstop : t.stop? levels with
  | none => exact absurd (stop?_eq_none_iff.mp hstop).1 ht
  | some stop =>
    cases stop with
    | deep => exact absurd (lt_depth_of_deep hstop) (Nat.not_lt_of_le h)
    | overfull => rfl

/-- The entries of a list that is too long are counted before it is opened. -/
theorem stop?_crowd (entry : Tree) : (crowd entry).stop? levels = some .overfull := by
  rw [crowd, stop?, stopWithin?_eq_some_iff, List.length_replicate]
  exact .inl ⟨by decide, rfl⟩

/-! ### Entries one after the other -/

theorem stopItems?_append (items more : List Tree) (levels : Nat) :
    stopItems? (items ++ more) levels = (stopItems? items levels).or (stopItems? more levels) := by
  induction items with
  | nil => rfl
  | cons item items ih => rw [List.cons_append, stopItems?, ih, stopItems?, Option.or_assoc]

theorem stopPairs?_append (pairs more : List (Bytes × Tree)) (levels : Nat) :
    stopPairs? (pairs ++ more) levels = (stopPairs? pairs levels).or (stopPairs? more levels) := by
  induction pairs with
  | nil => rfl
  | cons pair pairs ih => rw [List.cons_append, stopPairs?, ih, stopPairs?, Option.or_assoc]

end Tree

/-! ## The walk -/

namespace Folding

open Folder

variable {f : Folder} {declared : Option UInt32} {n m : Nat} {stop : Stop}

/-- A walk fails with what stops it, from wherever the levels left are those that are left. -/
def StopsAt (t : Tree) : Prop :=
  ∀ {levels : Nat} {f : Folder} {stop : Stop}, f.Admits levels → f.limit = f.depth + levels →
    t.stop? levels = some stop → ∃ f', tree t f = .error (stop.error f.side f.limit) f'

/-- Items are walked up to the first one that stops the walk. -/
theorem trees_stop {items : List Tree} (h : f.Admits (m + 1)) (hlimit : f.limit = f.depth + (m + 1))
    (hn : n < 0x100000000) (hd : ∀ d ∈ declared, d.toNat = n) (hstops : ∀ t ∈ items, StopsAt t) :
    ∀ {seen : List Tree}, seen.length + items.length = n → Tree.stopItems? items m = some stop →
      ∃ f', trees items (f.listOver declared seen) = .error (stop.error f.side f.limit) f' := by
  induction items with
  | nil =>
    intro seen _ hstop
    cases hstop
  | cons item items ih =>
    intro seen hlen hstop
    rw [List.forall_mem_cons] at hstops
    rw [List.length_cons] at hlen
    have hroom : RoomAfter declared seen.length := .of_lt hn hd (by omega)
    have hadmits := listOver_admits h hroom
    rw [Tree.stopItems?] at hstop
    cases hitem : item.stop? m with
    | none =>
      obtain ⟨hcount, hdepth⟩ := Tree.stop?_eq_none_iff.mp hitem
      rw [hitem, Option.none_or] at hstop
      rw [trees, Steps.bind_ok (tree_ok (hadmits.mono hdepth) hcount), listOver_foldedTree]
      exact ih hstops.2 (by rw [List.length_append, List.length_singleton]; omega) hstop
    | some first =>
      rw [hitem, Option.some_or, Option.some.injEq] at hstop
      subst hstop
      have hfirst := hstops.1 hadmits (by rw [limit_listOver, depth_listOver]; omega) hitem
      rw [side_listOver, limit_listOver] at hfirst
      exact Steps.bind_fails hfirst

/-- Pairs are walked up to the first value that stops the walk. -/
theorem members_stop {pairs : List (Bytes × Tree)} (h : f.Admits (m + 1))
    (hlimit : f.limit = f.depth + (m + 1)) (hn : n < 0x100000000)
    (hd : ∀ d ∈ declared, d.toNat = n) (hstops : ∀ kv ∈ pairs, StopsAt kv.2) :
    ∀ {seen : List (Bytes × Tree)}, seen.length + pairs.length = n →
      Tree.stopPairs? pairs m = some stop →
      ∃ f', members pairs (f.mapOver declared seen) = .error (stop.error f.side f.limit) f' := by
  induction pairs with
  | nil =>
    intro seen _ hstop
    cases hstop
  | cons pair pairs ih =>
    intro seen hlen hstop
    obtain ⟨k, value⟩ := pair
    rw [List.forall_mem_cons] at hstops
    rw [List.length_cons] at hlen
    have hroom : RoomAfter declared seen.length := .of_lt hn hd (by omega)
    have hadmits := keyOver_admits (k := k) h hroom
    rw [members, Steps.bind_ok key_tree]
    rw [Tree.stopPairs?] at hstop
    cases hvalue : value.stop? m with
    | none =>
      obtain ⟨hcount, hdepth⟩ := Tree.stop?_eq_none_iff.mp hvalue
      rw [hvalue, Option.none_or] at hstop
      rw [Steps.bind_ok (tree_ok (hadmits.mono hdepth) hcount), keyOver_foldedTree]
      exact ih hstops.2 (by rw [List.length_append, List.length_singleton]; omega) hstop
    | some first =>
      rw [hvalue, Option.some_or, Option.some.injEq] at hstop
      subst hstop
      have hfirst := hstops.1 hadmits (by rw [limit_keyOver, depth_keyOver]; omega) hvalue
      rw [side_keyOver, limit_keyOver] at hfirst
      exact Steps.bind_fails hfirst

/-- **A walk over a tree fails with what stops it first.** -/
theorem tree_stops (t : Tree) : StopsAt t := by
  induction t using Tree.induct with
  | scalar t hscalar =>
    intro levels f stop _ _ hstop
    rw [Tree.stop?_scalar hscalar] at hstop
    cases hstop
  | list items ih =>
    intro levels f stop h hlimit hstop
    rw [Tree.stop?, Tree.stopWithin?_eq_some_iff] at hstop
    rcases hstop with ⟨hlen, rfl⟩ | ⟨hlen, rfl, rfl⟩ | ⟨hlen, m, rfl, hinside⟩
    · exact Steps.bind_fails ⟨f, count_overflows hlen⟩
    · rw [tree, Steps.bind_ok (count_ok hlen)]
      exact Steps.bind_fails ⟨f, beginList_refuses h.expects (Nat.le_of_eq hlimit)⟩
    · rw [tree, Steps.bind_ok (count_ok hlen), Steps.bind_ok (beginList_tree h)]
      exact Steps.bind_fails
        (trees_stop h hlimit hlen (declared_eq hlen) ih (Nat.zero_add _) hinside)
  | map pairs ih =>
    intro levels f stop h hlimit hstop
    rw [Tree.stop?, Tree.stopWithin?_eq_some_iff] at hstop
    rcases hstop with ⟨hlen, rfl⟩ | ⟨hlen, rfl, rfl⟩ | ⟨hlen, m, rfl, hinside⟩
    · exact Steps.bind_fails ⟨f, count_overflows hlen⟩
    · rw [tree, Steps.bind_ok (count_ok hlen)]
      exact Steps.bind_fails ⟨f, beginMap_refuses h.expects (Nat.le_of_eq hlimit)⟩
    · rw [tree, Steps.bind_ok (count_ok hlen), Steps.bind_ok (beginMap_tree h)]
      exact Steps.bind_fails
        (members_stop h hlimit hlen (declared_eq hlen) ih (Nat.zero_add _) hinside)

end Folding

/-! ## At the top -/

variable {side : Side} {t : Tree} {o : FoldOptions}

/-- A walk from the start that is stopped. -/
theorem Folding.tree_start_stop (side : Side) {stop : Stop}
    (hstop : t.stop? o.depthLimit = some stop) :
    ∃ f', Folding.tree t (.start side o) = .error (stop.error side o.depthLimit) f' :=
  Folding.tree_stops t (Folder.start_admits (Nat.le_refl _)) (Nat.zero_add _).symm hstop

/-- **What folding any tree gives:** its digest, or the error of what stops the walk first. -/
theorem foldTreeOn_eq_stop (side : Side) (t : Tree) (o : FoldOptions) :
    foldTreeOn side t o = match t.stop? o.depthLimit with
      | none => .ok (t.digest o)
      | some stop => .error (stop.error side o.depthLimit) := by
  cases hstop : t.stop? o.depthLimit with
  | none =>
    obtain ⟨hcount, hdepth⟩ := Tree.stop?_eq_none_iff.mp hstop
    exact foldTreeOn_eq hdepth hcount
  | some stop =>
    obtain ⟨f', hwalk⟩ := Folding.tree_start_stop side hstop
    rw [foldTreeOn, hwalk]

/-- What folding a tree gives whose entries cannot be counted, if it fits the limit. -/
theorem foldTreeOn_overflow (ht : ¬ t.Countable) (h : t.depth ≤ o.depthLimit) :
    foldTreeOn side t o = .error (.protocol .countOverflow) := by
  rw [foldTreeOn_eq_stop, Tree.stop?_overfull ht h]
  rfl

end TreeDigest
