import TreeDigest.Proofs.Fold.Acceptance

/-!
# Trees beyond the limit

A folder that is handed a traversal of a tree stops at the first container that is
one too many, and names its limit. So what folding a tree gives is settled for
every tree whose entries can be counted: its digest if it fits, and that one error
if it does not.

A walk over a tree is a traversal too, the one that declares every count. With it
what is known of traversals holds of `foldTreeOn`, and a walk that succeeds tells
that the tree fits.
-/

namespace TreeDigest

namespace Folding

open Folder

theorem events_append_eq (es fs : List Event) :
    events (es ++ fs) = (do events es; events fs) := by
  induction es with
  | nil => rfl
  | cons e es ih => rw [List.cons_append, events, ih, events, bind_assoc]

/-- Events that are refused are refused whatever comes after them. -/
theorem events_append_error {es fs : List Event} {f : Folder} {e : Error}
    (h : ∃ f', events es f = .error e f') : ∃ f', events (es ++ fs) f = .error e f' := by
  rw [events_append_eq]
  exact Steps.bind_fails h

/-! ## Refusing a traversal -/

/-- Every traversal of a tree is refused where the limit leaves too little for it. -/
def Refused (t : Tree) : Prop :=
  ∀ {es : List Event} {f : Folder}, Traversal t es → f.Admits 0 → f.limit < f.depth + t.depth →
    ∃ f', events es f = .error (f.side.depthExceeded f.limit) f'

variable {f : Folder} {declared : Option UInt32} {n m : Nat}

/-- Items of which one is too deep are folded up to that one. -/
theorem events_items_refused {items : List Tree} (h : f.Admits (m + 1))
    (hlimit : f.limit = f.depth + (m + 1)) (hn : n < 0x100000000) (hd : ∀ d ∈ declared, d.toNat = n)
    (hcount : ∀ t ∈ items, t.Countable) (hrefused : ∀ t ∈ items, Refused t)
    (hdeep : ∃ t ∈ items, m < t.depth) :
    ∀ {body : List Event} {seen : List Tree}, ItemsTraversal items body →
      seen.length + items.length = n →
      ∃ f', events body (f.listOver declared seen) = .error (f.side.depthExceeded f.limit) f' := by
  induction items with
  | nil =>
    obtain ⟨t, ht, -⟩ := hdeep
    cases ht
  | cons item items ih =>
    intro body seen hbody hlen
    rw [List.forall_mem_cons] at hcount hrefused
    rw [List.length_cons] at hlen
    have hroom : RoomAfter declared seen.length := .of_lt hn hd (by omega)
    have hadmits : (f.listOver declared seen).Admits m := listOver_admits h hroom
    cases hbody with
    | cons hitem hitems =>
      by_cases hfits : item.depth ≤ m
      · -- this one is folded, so the deep one is among the rest
        have hfirst := events_traversal hcount.1 hitem (hadmits.mono hfits)
        rw [listOver_foldedTree] at hfirst
        rw [events_append hfirst]
        refine ih hcount.2 hrefused.2 ?_ hitems
          (by rw [List.length_append, List.length_singleton]; omega)
        obtain ⟨t, ht, hm⟩ := hdeep
        rcases List.mem_cons.mp ht with rfl | ht
        · omega
        · exact ⟨t, ht, hm⟩
      · have hfirst := hrefused.1 hitem (hadmits.mono (Nat.zero_le m))
          (by rw [limit_listOver, depth_listOver]; omega)
        rw [side_listOver, limit_listOver] at hfirst
        exact events_append_error hfirst

/-- Pairs of which one has too deep a value are folded up to that one. -/
theorem events_pairs_refused {pairs : List (Bytes × Tree)} (h : f.Admits (m + 1))
    (hlimit : f.limit = f.depth + (m + 1)) (hn : n < 0x100000000) (hd : ∀ d ∈ declared, d.toNat = n)
    (hcount : ∀ kv ∈ pairs, kv.2.Countable) (hrefused : ∀ kv ∈ pairs, Refused kv.2)
    (hdeep : ∃ kv ∈ pairs, m < kv.2.depth) :
    ∀ {body : List Event} {seen : List (Bytes × Tree)}, PairsTraversal pairs body →
      seen.length + pairs.length = n →
      ∃ f', events body (f.mapOver declared seen) = .error (f.side.depthExceeded f.limit) f' := by
  induction pairs with
  | nil =>
    obtain ⟨kv, hkv, -⟩ := hdeep
    cases hkv
  | cons pair pairs ih =>
    intro body seen hbody hlen
    rw [List.forall_mem_cons] at hcount hrefused
    rw [List.length_cons] at hlen
    have hroom : RoomAfter declared seen.length := .of_lt hn hd (by omega)
    cases hbody with
    | @cons k value pairs es fs hvalue hpairs =>
      have hadmits : (f.keyOver declared seen k).Admits m := keyOver_admits h hroom
      have hvalueRefused : Refused value := hrefused.1
      rw [events, Steps.bind_ok key_tree]
      by_cases hfits : value.depth ≤ m
      · have hfirst := events_traversal hcount.1 hvalue (hadmits.mono hfits)
        rw [keyOver_foldedTree] at hfirst
        rw [events_append hfirst]
        refine ih hcount.2 hrefused.2 ?_ hpairs
          (by rw [List.length_append, List.length_singleton]; omega)
        obtain ⟨kv, hkv, hm⟩ := hdeep
        rcases List.mem_cons.mp hkv with rfl | hkv
        · exact absurd hfits (Nat.not_le.mpr hm)
        · exact ⟨kv, hkv, hm⟩
      · have hfirst := hvalueRefused hvalue (hadmits.mono (Nat.zero_le m))
          (by rw [limit_keyOver, depth_keyOver]; omega)
        rw [side_keyOver, limit_keyOver] at hfirst
        exact events_append_error hfirst

/-- What is left of a limit that is not used up, for the entries of one more container. -/
theorem exists_levels (h : f.Admits 0) (hopen : f.depth < f.limit) :
    ∃ m, f.limit = f.depth + (m + 1) ∧ f.Admits (m + 1) :=
  ⟨f.limit - f.depth - 1, by omega, h.expects, h.room, by omega⟩

/-- **A traversal of a tree that is too deep is refused with the limit.** -/
theorem events_refused {t : Tree} (ht : t.Countable) : Refused t := by
  induction t using Tree.induct with
  | scalar t hscalar =>
    intro es f _ hf hdeep
    have hdepth := hf.depth_le
    rw [Tree.depth_scalar hscalar] at hdeep
    omega
  | list items ih =>
    intro es f h hf hdeep
    obtain ⟨hlen, hitems⟩ := Tree.countable_list.mp ht
    cases h with
    | list hdeclared hbody =>
      by_cases hopen : f.depth < f.limit
      · obtain ⟨m, hlimit, hadmits⟩ := exists_levels hf hopen
        have hexists : ∃ t ∈ items, m < t.depth := Tree.exists_deep_item (by omega)
        have hlength : ([] : List Tree).length + items.length = items.length := Nat.zero_add _
        rw [events, Steps.bind_ok (beginList_tree hadmits)]
        exact events_append_error (events_items_refused hadmits hlimit hlen hdeclared hitems
          (fun t ht => ih t ht (hitems t ht)) hexists hbody hlength)
      · exact Steps.bind_fails ⟨f, beginList_refuses hf.expects (Nat.not_lt.mp hopen)⟩
  | map pairs ih =>
    intro es f h hf hdeep
    obtain ⟨hlen, hpairs⟩ := Tree.countable_map.mp ht
    cases h with
    | map hdeclared hbody =>
      by_cases hopen : f.depth < f.limit
      · obtain ⟨m, hlimit, hadmits⟩ := exists_levels hf hopen
        have hexists : ∃ kv ∈ pairs, m < kv.2.depth := Tree.exists_deep_value (by omega)
        have hlength : ([] : List (Bytes × Tree)).length + pairs.length = pairs.length :=
          Nat.zero_add _
        rw [events, Steps.bind_ok (beginMap_tree hadmits)]
        exact events_append_error (events_pairs_refused hadmits hlimit hlen hdeclared hpairs
          (fun kv hkv => ih kv hkv (hpairs kv hkv)) hexists hbody hlength)
      · exact Steps.bind_fails ⟨f, beginMap_refuses hf.expects (Nat.not_lt.mp hopen)⟩

end Folding

variable {side : Side} {o : FoldOptions} {t : Tree} {es : List Event}

theorem Folding.events_start_refused (side : Side) (h : Traversal t es) (ht : t.Countable)
    (hdepth : ¬ t.depth ≤ o.depthLimit) :
    ∃ f', Folding.events es (.start side o) = .error (side.depthExceeded o.depthLimit) f' := by
  have hdeep : (Folder.start side o).limit < (Folder.start side o).depth + t.depth := by
    show o.depthLimit < 0 + t.depth
    omega
  exact events_refused ht h (Folder.start_admits (Nat.zero_le _)) hdeep

/-- **What folding a traversal gives**: the digest of its tree if that fits, else the limit. -/
theorem foldEvents_eq (h : Traversal t es) (ht : t.Countable) :
    foldEvents side es o = if t.depth ≤ o.depthLimit then .ok (t.digest o)
      else .error (side.depthExceeded o.depthLimit) := by
  by_cases hdepth : t.depth ≤ o.depthLimit
  · rw [if_pos hdepth, foldEvents_traversal ⟨h, ht, hdepth⟩]
  · obtain ⟨f', hrefused⟩ := Folding.events_start_refused side h ht hdepth
    rw [if_neg hdepth, foldEvents, hrefused]

/-- **A traversal has a digest if and only if its tree can be counted and fits the limit.** -/
theorem foldEvents_eq_ok_iff (h : Traversal t es) {d : Digest} :
    foldEvents side es o = .ok d ↔ (t.Countable ∧ t.depth ≤ o.depthLimit) ∧ t.digest o = d := by
  constructor
  · intro hok
    obtain ⟨t', h', ht, hdepth⟩ := traversal_of_foldEvents hok
    obtain rfl := traversal_unique h h'
    rw [foldEvents_traversal ⟨h, ht, hdepth⟩] at hok
    exact ⟨⟨ht, hdepth⟩, Except.ok.inj hok⟩
  · rintro ⟨⟨ht, hdepth⟩, rfl⟩
    exact foldEvents_traversal ⟨h, ht, hdepth⟩

/-- A beginning of a traversal is refused for nothing but its depth. -/
theorem Folding.events_begun {fs : List Event} {e : Error} {f : Folder} (h : Traversal t fs)
    (ht : t.Countable) (hbegun : es <+: fs)
    (herror : Folding.events es (.start side o) = .error e f) :
    e = side.depthExceeded o.depthLimit := by
  obtain ⟨more, rfl⟩ := hbegun
  obtain ⟨f₁, hwhole⟩ : ∃ f', events (es ++ more) (.start side o) = .error e f' :=
    events_append_error ⟨f, herror⟩
  by_cases hdepth : t.depth ≤ o.depthLimit
  · rw [events_traversal ht h (Folder.start_admits hdepth)] at hwhole
    cases hwhole
  · obtain ⟨f₂, hrefused⟩ := events_start_refused side h ht hdepth
    rw [hrefused] at hwhole
    cases hwhole
    rfl

/-! ## The walk as a traversal -/

namespace Tree

mutual

/-- The traversal of a tree that declares every count. -/
def events : Tree → List Event
  | .null => [.null]
  | .bool b => [.bool b]
  | .int i => [.int i]
  | .uint u => [.uint u]
  | .double bits => [.double bits]
  | .text octets => [.text octets]
  | .list items => .beginList (some items.length.toUInt32) :: (itemsEvents items ++ [.endList])
  | .map pairs => .beginMap (some pairs.length.toUInt32) :: (pairsEvents pairs ++ [.endMap])

def itemsEvents : List Tree → List Event
  | [] => []
  | item :: items => item.events ++ itemsEvents items

def pairsEvents : List (Bytes × Tree) → List Event
  | [] => []
  | (k, value) :: pairs => .key k :: (value.events ++ pairsEvents pairs)

end

theorem itemsTraversal_events {items : List Tree} (h : ∀ t ∈ items, Traversal t t.events) :
    ItemsTraversal items (itemsEvents items) := by
  induction items with
  | nil => exact .nil
  | cons item items ih =>
    rw [List.forall_mem_cons] at h
    exact .cons h.1 (ih h.2)

theorem pairsTraversal_events {pairs : List (Bytes × Tree)}
    (h : ∀ kv ∈ pairs, Traversal kv.2 kv.2.events) : PairsTraversal pairs (pairsEvents pairs) := by
  induction pairs with
  | nil => exact .nil
  | cons pair pairs ih =>
    rw [List.forall_mem_cons] at h
    exact .cons h.1 (ih h.2)

theorem traversal_events (ht : t.Countable) : Traversal t t.events := by
  induction t using Tree.induct with
  | scalar t hscalar =>
    cases t with
    | list items => exact Bool.noConfusion hscalar
    | map pairs => exact Bool.noConfusion hscalar
    | _ => constructor
  | list items ih =>
    obtain ⟨hlen, hitems⟩ := countable_list.mp ht
    exact .list (Folder.declared_eq hlen) (itemsTraversal_events fun t ht => ih t ht (hitems t ht))
  | map pairs ih =>
    obtain ⟨hlen, hpairs⟩ := countable_map.mp ht
    exact .map (Folder.declared_eq hlen)
      (pairsTraversal_events fun kv hkv => ih kv hkv (hpairs kv hkv))

end Tree

namespace Folding

theorem event_eq (e : Event) : event e = events [e] := by
  funext f
  rw [events, Steps.bind_apply]
  cases event e f <;> rfl

theorem count_eq {n : Nat} (h : n < 0x100000000) : count n = pure n.toUInt32 := by
  funext f
  exact Folder.count_ok h

theorem trees_eq_events {items : List Tree} (h : ∀ t ∈ items, tree t = events t.events) :
    trees items = events (Tree.itemsEvents items) := by
  induction items with
  | nil => rfl
  | cons item items ih =>
    rw [List.forall_mem_cons] at h
    rw [trees, h.1, ih h.2, Tree.itemsEvents, events_append_eq]

theorem members_eq_events {pairs : List (Bytes × Tree)}
    (h : ∀ kv ∈ pairs, tree kv.2 = events kv.2.events) :
    members pairs = events (Tree.pairsEvents pairs) := by
  induction pairs with
  | nil => rfl
  | cons pair pairs ih =>
    rw [List.forall_mem_cons] at h
    rw [members, h.1, ih h.2, Tree.pairsEvents, events, events_append_eq]

/-- **A walk over a tree hands over its traversal.** -/
theorem tree_eq_events (ht : t.Countable) : tree t = events t.events := by
  induction t using Tree.induct with
  | scalar t hscalar =>
    cases t with
    | list items => exact Bool.noConfusion hscalar
    | map pairs => exact Bool.noConfusion hscalar
    | _ => rw [tree, event_eq, Tree.events]
  | list items ih =>
    obtain ⟨hlen, hitems⟩ := Tree.countable_list.mp ht
    rw [tree, count_eq hlen, pure_bind, trees_eq_events fun t ht => ih t ht (hitems t ht),
      Tree.events, events, events_append_eq, event_eq .endList]
  | map pairs ih =>
    obtain ⟨hlen, hpairs⟩ := Tree.countable_map.mp ht
    rw [tree, count_eq hlen, pure_bind, members_eq_events fun kv hkv => ih kv hkv (hpairs kv hkv),
      Tree.events, events, events_append_eq, event_eq .endMap]

variable {f f' : Folder} {u : Unit}

theorem count_eq_ok_iff {n : Nat} {c : UInt32} :
    count n f = .ok c f' ↔ n < 0x100000000 ∧ n.toUInt32 = c ∧ f = f' := by
  by_cases h : n < 0x100000000
  · rw [count_eq h, Steps.pure_apply, EStateM.Result.ok.injEq]
    simp [h]
  · simp [count, Folder.countOf, h]

theorem trees_countable {items : List Tree}
    (h : ∀ t ∈ items, ∀ {f f' u}, tree t f = .ok u f' → t.Countable)
    (hok : trees items f = .ok u f') : ∀ t ∈ items, t.Countable := by
  induction items generalizing f with
  | nil => exact fun _ ht => nomatch ht
  | cons item items ih =>
    rw [List.forall_mem_cons] at h
    obtain ⟨_, f₁, hitem, hitems⟩ := Steps.bind_eq_ok_iff.mp hok
    exact List.forall_mem_cons.mpr ⟨h.1 hitem, ih h.2 hitems⟩

theorem members_countable {pairs : List (Bytes × Tree)}
    (h : ∀ kv ∈ pairs, ∀ {f f' u}, tree kv.2 f = .ok u f' → kv.2.Countable)
    (hok : members pairs f = .ok u f') : ∀ kv ∈ pairs, kv.2.Countable := by
  induction pairs generalizing f with
  | nil => exact fun _ ht => nomatch ht
  | cons pair pairs ih =>
    rw [List.forall_mem_cons] at h
    obtain ⟨_, f₁, -, hok⟩ := Steps.bind_eq_ok_iff.mp hok
    obtain ⟨_, f₂, hvalue, hpairs⟩ := Steps.bind_eq_ok_iff.mp hok
    exact List.forall_mem_cons.mpr ⟨h.1 hvalue, ih h.2 hpairs⟩

/-- A walk counts the entries of every container, so they can be counted if it succeeds. -/
theorem tree_countable (hok : tree t f = .ok u f') : t.Countable := by
  induction t using Tree.induct generalizing f u f' with
  | scalar t hscalar => exact Tree.countable_scalar hscalar
  | list items ih =>
    obtain ⟨_, f₁, hcount, hok⟩ := Steps.bind_eq_ok_iff.mp hok
    obtain ⟨_, f₂, -, hok⟩ := Steps.bind_eq_ok_iff.mp hok
    obtain ⟨_, f₃, hitems, -⟩ := Steps.bind_eq_ok_iff.mp hok
    exact Tree.countable_list.mpr ⟨(count_eq_ok_iff.mp hcount).1, trees_countable ih hitems⟩
  | map pairs ih =>
    obtain ⟨_, f₁, hcount, hok⟩ := Steps.bind_eq_ok_iff.mp hok
    obtain ⟨_, f₂, -, hok⟩ := Steps.bind_eq_ok_iff.mp hok
    obtain ⟨_, f₃, hpairs, -⟩ := Steps.bind_eq_ok_iff.mp hok
    exact Tree.countable_map.mpr ⟨(count_eq_ok_iff.mp hcount).1, members_countable ih hpairs⟩

end Folding

/-! ## Entries that cannot be counted -/

theorem Folding.count_overflows {f : Folder} {n : Nat} (h : ¬ n < 0x100000000) :
    Folding.count n f = .error (.protocol .countOverflow) f := by
  rw [Folding.count, Folder.countOf, if_neg h]
  rfl

/-! ## At the top -/

/-- **What folding a tree gives**, on either side. -/
theorem foldTreeOn_eq_ite (ht : t.Countable) :
    foldTreeOn side t o = if t.depth ≤ o.depthLimit then .ok (t.digest o)
      else .error (side.depthExceeded o.depthLimit) := by
  have hevents : foldTreeOn side t o = foldEvents side t.events o := by
    unfold foldTreeOn foldEvents
    exact Folding.tree_eq_events ht ▸ rfl
  rw [hevents, foldEvents_eq (Tree.traversal_events ht) ht]

/-- A walk that succeeds from the start was over a tree that fits. -/
theorem Folding.tree_start_ok {u : Unit} {f' : Folder}
    (hok : Folding.tree t (.start side o) = .ok u f') : t.Countable ∧ t.depth ≤ o.depthLimit := by
  have ht := tree_countable hok
  refine ⟨ht, ?_⟩
  by_contra hdepth
  obtain ⟨f'', hrefused⟩ := events_start_refused side (Tree.traversal_events ht) ht hdepth
  rw [← tree_eq_events ht, hok] at hrefused
  cases hrefused

/-- **A tree has a digest if and only if its entries can be counted and it fits the limit.** -/
theorem foldTreeOn_eq_ok_iff {d : Digest} :
    foldTreeOn side t o = .ok d ↔ (t.Countable ∧ t.depth ≤ o.depthLimit) ∧ t.digest o = d := by
  constructor
  · intro hok
    have hfits : t.Countable ∧ t.depth ≤ o.depthLimit := by
      unfold foldTreeOn at hok
      split at hok
      · rename_i hwalk
        exact Folding.tree_start_ok hwalk
      · cases hok
    refine ⟨hfits, ?_⟩
    rw [foldTreeOn_eq hfits.2 hfits.1] at hok
    exact Except.ok.inj hok
  · rintro ⟨⟨ht, hdepth⟩, rfl⟩
    exact foldTreeOn_eq hdepth ht

end TreeDigest
