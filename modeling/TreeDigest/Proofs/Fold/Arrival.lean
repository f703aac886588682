import TreeDigest.Proofs.Fold.Depth
import TreeDigest.Proofs.Fold.Mirror
import TreeDigest.Proofs.Fold.Signedness

/-!
# The events that a format brings

What a decoder hands to its folder is a traversal of the tree that was written, but
not any: whether containers come with their counts and which kind of integer comes is
settled by the format. `Tree.arrival` is that traversal, under a rule for each.

Folding it gives what folding the tree gives, whatever the rules, as long as integers
keep their values.
-/

namespace TreeDigest

/-- An event as it comes from a format that counts entries, or from one that does not. -/
def Event.told (counted : Bool) : Event → Event
  | .beginList declared => .beginList (if counted then declared else none)
  | .beginMap declared => .beginMap (if counted then declared else none)
  | e => e

/-! ## Traversals without counts -/

namespace Traversal

variable {counted : Bool}

theorem declared_told {declared : Option UInt32} {n : Nat} (h : ∀ d ∈ declared, d.toNat = n) :
    ∀ d ∈ if counted then declared else none, d.toNat = n := by
  cases counted with
  | true => exact h
  | false => exact fun d hd => nomatch hd

theorem items_told {items : List Tree} {es : List Event}
    (h : ∀ t ∈ items, ∀ {es}, Traversal t es → Traversal t (es.map (Event.told counted)))
    (hitems : ItemsTraversal items es) : ItemsTraversal items (es.map (Event.told counted)) := by
  induction items generalizing es with
  | nil => cases hitems; exact .nil
  | cons item items ih =>
    rw [List.forall_mem_cons] at h
    cases hitems with
    | cons hitem hitems =>
      rw [List.map_append]
      exact .cons (h.1 hitem) (ih h.2 hitems)

theorem pairs_told {pairs : List (Bytes × Tree)} {es : List Event}
    (h : ∀ kv ∈ pairs, ∀ {es}, Traversal kv.2 es → Traversal kv.2 (es.map (Event.told counted)))
    (hpairs : PairsTraversal pairs es) : PairsTraversal pairs (es.map (Event.told counted)) := by
  induction pairs generalizing es with
  | nil => cases hpairs; exact .nil
  | cons pair pairs ih =>
    rw [List.forall_mem_cons] at h
    cases hpairs with
    | cons hvalue hpairs =>
      rw [List.map_cons, List.map_append]
      exact .cons (h.1 hvalue) (ih h.2 hpairs)

/-- A traversal may leave the counts out. -/
theorem told {t : Tree} {es : List Event} (h : Traversal t es) :
    Traversal t (es.map (Event.told counted)) := by
  induction t using Tree.induct generalizing es with
  | scalar t hscalar =>
    cases h with
    | list _ _ => exact Bool.noConfusion hscalar
    | map _ _ => exact Bool.noConfusion hscalar
    | _ => constructor
  | list items ih =>
    cases h with
    | list hdeclared hbody =>
      rw [List.map_cons, List.map_append]
      exact .list (declared_told hdeclared) (items_told (fun t ht {_} => ih t ht) hbody)
  | map pairs ih =>
    cases h with
    | map hdeclared hbody =>
      rw [List.map_cons, List.map_append]
      exact .map (declared_told hdeclared) (pairs_told (fun kv hkv {_} => ih kv hkv) hbody)

end Traversal

/-! ## Arrivals -/

namespace Tree

variable {g : Integer → Integer} {counted : Bool}

theorem itemsEvents_eq (items : List Tree) : itemsEvents items = items.flatMap events := by
  induction items with
  | nil => rfl
  | cons item items ih => rw [itemsEvents, ih, List.flatMap_cons]

theorem pairsEvents_eq (pairs : List (Bytes × Tree)) :
    pairsEvents pairs = pairs.flatMap fun kv => .key kv.1 :: kv.2.events := by
  induction pairs with
  | nil => rfl
  | cons pair pairs ih => rw [pairsEvents, ih, List.flatMap_cons, List.cons_append]

/-- The events of a tree as a format brings them, with a rule for integers and one for counts. -/
def arrival (g : Integer → Integer) (counted : Bool) (t : Tree) : List Event :=
  (t.mapIntegers g).events.map (Event.told counted)

theorem arrival_list (items : List Tree) :
    (list items).arrival g counted =
      .beginList (if counted then some items.length.toUInt32 else none) ::
        (items.flatMap (arrival g counted) ++ [.endList]) := by
  rw [arrival, mapIntegers_list, events, itemsEvents_eq, List.length_map, List.map_cons,
    List.map_append, List.map_flatMap, List.flatMap_map]
  rfl

theorem arrival_map (pairs : List (Bytes × Tree)) :
    (map pairs).arrival g counted =
      .beginMap (if counted then some pairs.length.toUInt32 else none) ::
        ((pairs.flatMap fun kv => .key kv.1 :: kv.2.arrival g counted) ++ [.endMap]) := by
  rw [arrival, mapIntegers_map, events, pairsEvents_eq, List.length_map, List.map_cons,
    List.map_append, List.map_flatMap, List.flatMap_map]
  rfl

/-- **What a format brings is a traversal of the tree with its integers replaced.** -/
theorem traversal_arrival {t : Tree} (ht : t.Countable) :
    Traversal (t.mapIntegers g) (t.arrival g counted) :=
  (traversal_events (countable_mapIntegers.mpr ht)).told

/-- Where nothing is counted, that holds of trees with any number of entries. -/
theorem traversal_uncounted (g : Integer → Integer) (t : Tree) :
    Traversal (t.mapIntegers g) (t.arrival g false) := by
  induction t using Tree.induct with
  | scalar t hscalar => exact traversal_arrival (countable_scalar hscalar)
  | list items ih =>
    have hitems : ItemsTraversal (items.map (mapIntegers g)) (items.flatMap (arrival g false)) := by
      induction items with
      | nil => exact .nil
      | cons item items ih' =>
        rw [List.forall_mem_cons] at ih
        exact .cons ih.1 (ih' ih.2)
    rw [mapIntegers_list, arrival_list]
    exact .list nofun hitems
  | map pairs ih =>
    have hpairs : PairsTraversal (pairs.map fun kv => (kv.1, kv.2.mapIntegers g))
        (pairs.flatMap fun kv => .key kv.1 :: kv.2.arrival g false) := by
      induction pairs with
      | nil => exact .nil
      | cons pair pairs ih' =>
        rw [List.forall_mem_cons] at ih
        exact .cons ih.1 (ih' ih.2)
    rw [mapIntegers_map, arrival_map]
    exact .map nofun hpairs

end Tree

/-- **Folding what a format brings is folding the tree.** -/
theorem foldEvents_arrival {g : Integer → Integer} {counted : Bool} {t : Tree} {side : Side}
    {o : FoldOptions} (hg : ∀ n, (g n).value = n.value) (ht : t.Countable) :
    foldEvents side (t.arrival g counted) o = if t.depth ≤ o.depthLimit then .ok (t.digest o)
      else .error (side.depthExceeded o.depthLimit) := by
  rw [foldEvents_eq (Tree.traversal_arrival ht) (Tree.countable_mapIntegers.mpr ht),
    Tree.depth_mapIntegers, Tree.digest_mapIntegers hg]

/-! ## In step with a reader -/

/-- A folder in step with a reader takes a traversal only as the value of its tree. -/
theorem Folder.InStep.events_ok {f f' : Folder} {limit levels : Nat} {t : Tree} {es : List Event}
    {u : Unit} (h : f.InStep limit levels) (ht : t.Countable) (htraversal : Traversal t es)
    (hok : Folding.events es f = .ok u f') : f' = f.foldedTree t := by
  by_cases hdepth : t.depth ≤ levels
  · rw [Folding.events_traversal ht htraversal (h.toAdmits.mono hdepth)] at hok
    cases hok
    rfl
  · -- the levels that are left are what the limit leaves
    have hdeep : f.limit < f.depth + t.depth := by
      have hused := h.used
      have hlimit := h.limit_eq
      omega
    obtain ⟨f'', hrefused⟩ :=
      Folding.events_refused ht htraversal (h.toAdmits.mono (Nat.zero_le _)) hdeep
    rw [hrefused] at hok
    cases hok

end TreeDigest
