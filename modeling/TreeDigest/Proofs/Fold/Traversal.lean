import TreeDigest.Proofs.Fold.Walk

/-!
# The events of a tree

A tree has many traversals: every container may declare its count or not, and a
double that is a widened single may come as either. `Traversal` says which
sequences of events are traversals of which trees, and nothing about folders.

Two facts are established here:

* `traversal_unique`: a sequence of events is a traversal of at most one tree.
  This needs more than determinism. Inside a container the events of a child are
  followed by others, so the induction is about traversals with a rest, and says
  that no traversal is a proper beginning of another.
* `events_traversal`: a folder takes every traversal of a tree that it has room
  for, and ends as if the tree were one primitive value.
-/

namespace TreeDigest

mutual

/-- A sequence of events is a traversal of a tree. -/
inductive Traversal : Tree → List Event → Prop where
  | null : Traversal .null [.null]
  | bool (b : Bool) : Traversal (.bool b) [.bool b]
  | int (i : Int64) : Traversal (.int i) [.int i]
  | uint (u : UInt64) : Traversal (.uint u) [.uint u]
  | double (bits : UInt64) : Traversal (.double bits) [.double bits]
  | single (bits : UInt32) : Traversal (.double (Binary.widen bits)) [.single bits]
  | text (octets : Bytes) : Traversal (.text octets) [.text octets]
  | list {declared : Option UInt32} {items : List Tree} {body : List Event} :
      (∀ n ∈ declared, n.toNat = items.length) → ItemsTraversal items body →
      Traversal (.list items) (.beginList declared :: (body ++ [.endList]))
  | map {declared : Option UInt32} {pairs : List (Bytes × Tree)} {body : List Event} :
      (∀ n ∈ declared, n.toNat = pairs.length) → PairsTraversal pairs body →
      Traversal (.map pairs) (.beginMap declared :: (body ++ [.endMap]))

/-- A sequence of events is one traversal after the other. -/
inductive ItemsTraversal : List Tree → List Event → Prop where
  | nil : ItemsTraversal [] []
  | cons {item : Tree} {items : List Tree} {es fs : List Event} :
      Traversal item es → ItemsTraversal items fs → ItemsTraversal (item :: items) (es ++ fs)

/-- A sequence of events is keys, each with a traversal after it. -/
inductive PairsTraversal : List (Bytes × Tree) → List Event → Prop where
  | nil : PairsTraversal [] []
  | cons {k : Bytes} {value : Tree} {pairs : List (Bytes × Tree)} {es fs : List Event} :
      Traversal value es → PairsTraversal pairs fs →
      PairsTraversal ((k, value) :: pairs) (.key k :: (es ++ fs))

end

/-- What is so of every item is so of every event, if each item says the same as its events. -/
theorem ItemsTraversal.forall_iff {items : List Tree} {es : List Event} {q : Tree → Prop}
    {p : Event → Prop} (h : ItemsTraversal items es)
    (hitems : ∀ t ∈ items, ∀ {es}, Traversal t es → (q t ↔ ∀ e ∈ es, p e)) :
    (∀ t ∈ items, q t) ↔ ∀ e ∈ es, p e := by
  induction items generalizing es with
  | nil =>
    cases h
    exact ⟨fun _ => nofun, fun _ => nofun⟩
  | cons item items ih =>
    rw [List.forall_mem_cons] at hitems
    cases h with
    | cons hitem hrest =>
      rw [List.forall_mem_cons, List.forall_mem_append, hitems.1 hitem, ih hrest hitems.2]

/-- The same of pairs, whose keys are events of their own. -/
theorem PairsTraversal.forall_iff {pairs : List (Bytes × Tree)} {es : List Event} {q : Tree → Prop}
    {p : Event → Prop} (h : PairsTraversal pairs es)
    (hvalues : ∀ kv ∈ pairs, ∀ {es}, Traversal kv.2 es → (q kv.2 ↔ ∀ e ∈ es, p e)) :
    (∀ kv ∈ pairs, p (.key kv.1) ∧ q kv.2) ↔ ∀ e ∈ es, p e := by
  induction pairs generalizing es with
  | nil =>
    cases h
    exact ⟨fun _ => nofun, fun _ => nofun⟩
  | cons pair pairs ih =>
    rw [List.forall_mem_cons] at hvalues
    cases h with
    | cons hvalue hrest =>
      rw [List.forall_mem_cons, List.forall_mem_cons, List.forall_mem_append, hvalues.1 hvalue,
        ih hrest hvalues.2, and_assoc]

theorem ItemsTraversal.concat {items : List Tree} {item : Tree} {fs es : List Event}
    (hitems : ItemsTraversal items fs) (hitem : Traversal item es) :
    ItemsTraversal (items ++ [item]) (fs ++ es) := by
  induction items generalizing fs with
  | nil =>
    cases hitems
    have h := ItemsTraversal.cons hitem .nil
    rwa [List.append_nil] at h
  | cons first items ih =>
    cases hitems with
    | cons hfirst hrest =>
      rw [List.append_assoc]
      exact .cons hfirst (ih hrest)

theorem PairsTraversal.concat {pairs : List (Bytes × Tree)} {k : Bytes} {value : Tree}
    {fs es : List Event} (hpairs : PairsTraversal pairs fs) (hvalue : Traversal value es) :
    PairsTraversal (pairs ++ [(k, value)]) (fs ++ (.key k :: es)) := by
  induction pairs generalizing fs with
  | nil =>
    cases hpairs
    have h := PairsTraversal.cons (k := k) hvalue .nil
    rwa [List.append_nil] at h
  | cons first pairs ih =>
    cases hpairs with
    | cons hfirst hrest =>
      rw [List.cons_append, List.cons_append, List.append_assoc]
      exact .cons hfirst (ih hrest)

/-! ## One tree for one traversal -/

/-- A traversal begins with an event that is neither a key nor the end of a container. -/
theorem Traversal.head {t : Tree} {es : List Event} (h : Traversal t es) :
    ∃ e rest, es = e :: rest ∧ e ≠ .endList ∧ e ≠ .endMap ∧ ∀ k, e ≠ .key k := by
  cases h <;> exact ⟨_, _, rfl, by simp, by simp, by simp⟩

/-- A traversal with a rest settles both the tree and the rest. -/
def Settled (t : Tree) : Prop :=
  ∀ {t' : Tree} {es es' rest rest' : List Event}, Traversal t es → Traversal t' es' →
    es ++ rest = es' ++ rest' → t = t' ∧ rest = rest'

theorem items_settled {items : List Tree} (hsettled : ∀ t ∈ items, Settled t) :
    ∀ {items' : List Tree} {es es' rest rest' : List Event},
      ItemsTraversal items es → ItemsTraversal items' es' →
      es ++ .endList :: rest = es' ++ .endList :: rest' → items = items' ∧ rest = rest' := by
  induction items with
  | nil =>
    intro items' es es' rest rest' h h' heq
    cases h
    cases h' with
    | nil => exact ⟨rfl, by simpa using heq⟩
    | cons hitem _ =>
      -- one list ends where the other has an item, and no item begins with an end
      obtain ⟨e, tail, rfl, hne, _⟩ := hitem.head
      simp only [List.nil_append, List.cons_append, List.cons.injEq] at heq
      exact absurd heq.1.symm hne
  | cons item items ih =>
    intro items' es es' rest rest' h h' heq
    rw [List.forall_mem_cons] at hsettled
    cases h with
    | cons hitem hitems =>
      cases h' with
      | nil =>
        obtain ⟨e, tail, rfl, hne, _⟩ := hitem.head
        simp only [List.nil_append, List.cons_append, List.cons.injEq] at heq
        exact absurd heq.1 hne
      | cons hitem' hitems' =>
        -- the first items are settled with the rest of the lists behind them
        rw [List.append_assoc, List.append_assoc] at heq
        obtain ⟨rfl, htail⟩ := hsettled.1 hitem hitem' heq
        obtain ⟨rfl, hrest⟩ := ih hsettled.2 hitems hitems' htail
        exact ⟨rfl, hrest⟩

theorem pairs_settled {pairs : List (Bytes × Tree)} (hsettled : ∀ kv ∈ pairs, Settled kv.2) :
    ∀ {pairs' : List (Bytes × Tree)} {es es' rest rest' : List Event},
      PairsTraversal pairs es → PairsTraversal pairs' es' →
      es ++ .endMap :: rest = es' ++ .endMap :: rest' → pairs = pairs' ∧ rest = rest' := by
  induction pairs with
  | nil =>
    intro pairs' es es' rest rest' h h' heq
    cases h
    cases h' with
    | nil => exact ⟨rfl, by simpa using heq⟩
    | cons _ _ => simp at heq
  | cons pair pairs ih =>
    intro pairs' es es' rest rest' h h' heq
    rw [List.forall_mem_cons] at hsettled
    cases h with
    | cons hvalue hpairs =>
      cases h' with
      | nil => simp at heq
      | cons hvalue' hpairs' =>
        rw [List.cons_append, List.cons_append, List.cons.injEq, Event.key.injEq,
          List.append_assoc, List.append_assoc] at heq
        obtain ⟨rfl, hvalues⟩ := heq
        obtain ⟨rfl, htail⟩ := hsettled.1 hvalue hvalue' hvalues
        obtain ⟨rfl, hrest⟩ := ih hsettled.2 hpairs hpairs' htail
        exact ⟨rfl, hrest⟩

theorem tree_settled (t : Tree) : Settled t := by
  induction t using Tree.induct with
  | scalar t hscalar =>
    intro t' es es' rest rest' h h' heq
    cases h with
    | list _ _ => exact Bool.noConfusion hscalar
    | map _ _ => exact Bool.noConfusion hscalar
    -- a scalar is one event, and that says which scalar it is
    | _ => cases h' <;> simp_all
  | list items ih =>
    intro t' es es' rest rest' h h' heq
    cases h with
    | list hdeclared hbody =>
      cases h' with
      | list hdeclared' hbody' =>
        simp only [List.cons_append, List.append_assoc, List.nil_append, List.cons.injEq] at heq
        obtain ⟨rfl, hrest⟩ := items_settled ih hbody hbody' heq.2
        exact ⟨rfl, hrest⟩
      -- nothing but a list begins with the beginning of a list
      | _ => simp at heq
  | map pairs ih =>
    intro t' es es' rest rest' h h' heq
    cases h with
    | map hdeclared hbody =>
      cases h' with
      | map hdeclared' hbody' =>
        simp only [List.cons_append, List.append_assoc, List.nil_append, List.cons.injEq] at heq
        obtain ⟨rfl, hrest⟩ := pairs_settled ih hbody hbody' heq.2
        exact ⟨rfl, hrest⟩
      | _ => simp at heq

/-- **A sequence of events is a traversal of at most one tree.** -/
theorem traversal_unique {t t' : Tree} {es : List Event} (h : Traversal t es)
    (h' : Traversal t' es) : t = t' :=
  (tree_settled t h h' (show es ++ [] = es ++ [] from rfl)).1

/-! ## Folding a traversal -/

namespace Folding

open Folder

/-- Events one after the other. -/
def events : List Event → Folding Unit
  | [] => pure ()
  | e :: es => do
    event e
    events es

theorem events_append {es fs : List Event} {f f' : Folder} (h : events es f = .ok () f') :
    events (es ++ fs) f = events fs f' := by
  induction es generalizing f with
  | nil => cases h; rfl
  | cons e es ih =>
    rw [events, Steps.bind_eq_ok_iff] at h
    obtain ⟨_, g, he, hes⟩ := h
    rw [List.cons_append, events, Steps.bind_ok he]
    exact ih hes

theorem events_singleton {e : Event} {f f' : Folder} (h : event e f = .ok () f') :
    events [e] f = .ok () f' := by
  rw [events, Steps.bind_ok h]
  rfl

/-- Every traversal of a tree folds it as one value. -/
def Folds (m : Nat) (t : Tree) : Prop :=
  ∀ {es : List Event} {f : Folder}, Traversal t es → f.Admits m →
    events es f = .ok () (f.foldedTree t)

theorem events_items {items : List Tree} {n m : Nat} {f : Folder} {declared : Option UInt32}
    (h : f.Admits (m + 1)) (hn : n < 0x100000000) (hd : ∀ d ∈ declared, d.toNat = n)
    (hfolds : ∀ t ∈ items, Folds m t) :
    ∀ {body : List Event} {seen : List Tree}, ItemsTraversal items body →
      seen.length + items.length = n →
      events body (f.listOver declared seen) = .ok () (f.listOver declared (seen ++ items)) := by
  induction items with
  | nil =>
    intro body seen hbody _
    cases hbody
    rw [List.append_nil]
    rfl
  | cons item items ih =>
    intro body seen hbody hlen
    rw [List.forall_mem_cons] at hfolds
    rw [List.length_cons] at hlen
    cases hbody with
    | cons hitem hitems =>
      -- the list has not yet as many items as it declared, so there is room for this one
      have hroom : RoomAfter declared seen.length := .of_lt hn hd (by omega)
      have hfirst := hfolds.1 hitem (listOver_admits h hroom)
      rw [listOver_foldedTree] at hfirst
      rw [events_append hfirst,
        ih hfolds.2 hitems (by rw [List.length_append, List.length_singleton]; omega),
        List.append_assoc, List.singleton_append]

theorem events_pairs {pairs : List (Bytes × Tree)} {n m : Nat} {f : Folder}
    {declared : Option UInt32} (h : f.Admits (m + 1)) (hn : n < 0x100000000)
    (hd : ∀ d ∈ declared, d.toNat = n) (hfolds : ∀ kv ∈ pairs, Folds m kv.2) :
    ∀ {body : List Event} {seen : List (Bytes × Tree)}, PairsTraversal pairs body →
      seen.length + pairs.length = n →
      events body (f.mapOver declared seen) = .ok () (f.mapOver declared (seen ++ pairs)) := by
  induction pairs with
  | nil =>
    intro body seen hbody _
    cases hbody
    rw [List.append_nil]
    rfl
  | cons pair pairs ih =>
    intro body seen hbody hlen
    rw [List.forall_mem_cons] at hfolds
    rw [List.length_cons] at hlen
    cases hbody with
    | @cons k value pairs es fs hvalue hpairs =>
      have hroom : RoomAfter declared seen.length := .of_lt hn hd (by omega)
      have hfirst := hfolds.1 hvalue (keyOver_admits (k := k) h hroom)
      rw [keyOver_foldedTree] at hfirst
      rw [events, Steps.bind_ok key_tree, events_append hfirst,
        ih hfolds.2 hpairs (by rw [List.length_append, List.length_singleton]; omega),
        List.append_assoc, List.singleton_append]

/-- **A folder takes every traversal of a tree that it has room for.** -/
theorem events_traversal {t : Tree} (ht : t.Countable) : Folds t.depth t := by
  induction t using Tree.induct with
  | scalar t hscalar =>
    intro es f h hf
    cases h with
    | list _ _ => exact Bool.noConfusion hscalar
    | map _ _ => exact Bool.noConfusion hscalar
    | _ => exact events_singleton (scalar_ok hf)
  | list items ih =>
    intro es f h hf
    obtain ⟨hlen, hitems⟩ := Tree.countable_list.mp ht
    obtain ⟨m, hm, hdepth⟩ := Tree.exists_depth_list items
    rw [hm] at hf
    have hfolds : ∀ t ∈ items, Folds m t :=
      fun t ht es g hes hg => ih t ht (hitems t ht) hes (hg.mono (hdepth t ht))
    cases h with
    | list hdeclared hbody =>
      have hlength : ([] : List Tree).length + items.length = items.length := Nat.zero_add _
      have hrun := events_items hf hlen hdeclared hfolds hbody hlength
      rw [List.nil_append] at hrun
      rw [events, Steps.bind_ok (beginList_tree hf), events_append hrun]
      exact events_singleton (endList_tree hf.room hlen hdeclared)
  | map pairs ih =>
    intro es f h hf
    obtain ⟨hlen, hpairs⟩ := Tree.countable_map.mp ht
    obtain ⟨m, hm, hdepth⟩ := Tree.exists_depth_map pairs
    rw [hm] at hf
    have hfolds : ∀ kv ∈ pairs, Folds m kv.2 :=
      fun kv hkv es g hes hg => ih kv hkv (hpairs kv hkv) hes (hg.mono (hdepth kv hkv))
    cases h with
    | map hdeclared hbody =>
      have hlength : ([] : List (Bytes × Tree)).length + pairs.length = pairs.length :=
        Nat.zero_add _
      have hrun := events_pairs hf hlen hdeclared hfolds hbody hlength
      rw [List.nil_append] at hrun
      rw [events, Steps.bind_ok (beginMap_tree hf), events_append hrun]
      exact events_singleton (endMap_tree hf.room hlen hdeclared)

end Folding

end TreeDigest
