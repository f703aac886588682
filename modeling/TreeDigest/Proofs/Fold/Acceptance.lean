import Mathlib.Logic.ExistsUnique
import TreeDigest.Proofs.Fold.Traversal

/-!
# A folder accepts traversals and nothing else

`events_traversal` says that a folder takes every traversal of a tree it has room
for. This module is about the converse. The invariant is what the open containers
know of the events that led to them: each is a container whose beginning, with
its entries so far, is the last part of those events (`Opened`). An event that
succeeds either opens a container, or adds to the innermost one, or closes it,
and then the closed container is a tree and adds to the one around it.

What a map holds back plays no part in this, so the invariant speaks of outlines.
-/

namespace TreeDigest

/-! ## The invariant -/

/-- A tree that can stand where a number of containers are open. -/
def Tree.Fits (limit opened : Nat) (t : Tree) : Prop := t.Countable ∧ t.depth + opened ≤ limit

/-- Containers are open after certain events, which are all accounted for. -/
inductive Opened (limit : Nat) : List Frame → List Event → Prop where
  | root : Opened limit [] []
  | list {frames : List Frame} {es body : List Event} {declared : Option UInt32}
      {items : List Tree} :
      Opened limit frames es → frames.length < limit →
      (∀ frame ∈ frames.head?, frame.AwaitsValue) → items.length < 0x100000000 →
      ItemsTraversal items body → (∀ t ∈ items, t.Fits limit (frames.length + 1)) →
      Opened limit (.list declared items.length.toUInt32 :: frames)
        (es ++ .beginList declared :: body)
  | map {frames : List Frame} {es body : List Event} {declared : Option UInt32}
      {pairs : List (Bytes × Tree)} :
      Opened limit frames es → frames.length < limit →
      (∀ frame ∈ frames.head?, frame.AwaitsValue) → pairs.length < 0x100000000 →
      PairsTraversal pairs body → (∀ kv ∈ pairs, kv.2.Fits limit (frames.length + 1)) →
      Opened limit (.map declared pairs.length.toUInt32 false none :: frames)
        (es ++ .beginMap declared :: body)
  | key {frames : List Frame} {es : List Event} {declared : Option UInt32} {seen : UInt32}
      (k : Bytes) :
      Opened limit (.map declared seen false none :: frames) es →
      Opened limit (.map declared seen true none :: frames) (es ++ [.key k])

/-- The state of a folder accounts for the events that led to it. -/
def Explains (f : Folder) (es : List Event) : Prop :=
  f.complete = false ∧ Opened f.limit f.outlines es ∨
    f.complete = true ∧ f.outlines = [] ∧ ∃ t, Traversal t es ∧ t.Fits f.limit 0

theorem explains_start (side : Side) (o : FoldOptions) : Explains (Folder.start side o) [] :=
  Or.inl ⟨rfl, .root⟩

/-! ## Values -/

theorem outline_counted (frame : Frame) : frame.counted.outline = frame.outline.counted := by
  cases frame <;> rfl

theorem length_lt_of_room {count : Nat} (hlt : count < 0x100000000)
    (h : count.toUInt32 ≠ Folder.greatestCount) : count + 1 < 0x100000000 := by
  rcases Nat.lt_or_ge (count + 1) 0x100000000 with hc | hc
  · exact hc
  · exfalso
    apply h
    rw [show count = 0xFFFFFFFF by omega]
    rfl

/-- A value that is complete adds to the innermost container. -/
theorem Opened.value {limit : Nat} {frame : Frame} {frames : List Frame} {es ts : List Event}
    {t : Tree} (h : Opened limit (frame :: frames) es) (hawaits : frame.AwaitsValue)
    (hroom : frame.HasRoom) (ht : Traversal t ts) (hfits : t.Fits limit (frames.length + 1)) :
    Opened limit (frame.counted :: frames) (es ++ ts) := by
  cases h with
  | @list _ es body declared items hes hlimit houter hlen hbody hitems =>
    have hlen' := length_lt_of_room hlen hroom.1
    have hadded : Opened limit (.list declared (items ++ [t]).length.toUInt32 :: frames)
        (es ++ .beginList declared :: (body ++ ts)) := by
      refine .list hes hlimit houter ?_ (hbody.concat ht) ?_
      · rwa [List.length_append, List.length_singleton]
      · intro s hs
        rcases List.mem_append.mp hs with hs | hs
        · exact hitems s hs
        · rwa [List.mem_singleton.mp hs]
    rw [List.length_append, List.length_singleton, ← Folder.succ_toUInt32] at hadded
    rwa [List.append_assoc]
  -- a map without a pending key awaits no value
  | map _ _ _ _ _ _ => exact Bool.noConfusion hawaits
  | @key _ _ declared _ k hopened =>
    cases hopened with
    | @map _ es body _ pairs hes hlimit houter hlen hbody hpairs =>
      have hlen' := length_lt_of_room hlen hroom.1
      -- the pending key and the value are the next pair
      have hadded : Opened limit
          (.map declared (pairs ++ [(k, t)]).length.toUInt32 false none :: frames)
          (es ++ .beginMap declared :: (body ++ (.key k :: ts))) := by
        refine .map hes hlimit houter ?_ (hbody.concat ht) ?_
        · rwa [List.length_append, List.length_singleton]
        · intro kv hkv
          rcases List.mem_append.mp hkv with hkv | hkv
          · exact hpairs kv hkv
          · rwa [List.mem_singleton.mp hkv]
      rw [List.length_append, List.length_singleton, ← Folder.succ_toUInt32] at hadded
      rw [List.append_assoc, List.append_assoc]
      exact hadded

/-- A value that is complete is counted, or is the whole document. -/
theorem Explains.value {f : Folder} {es ts : List Event} {t : Tree}
    (h : Opened f.limit f.outlines es) (hexpects : f.ExpectsValue) (hroom : f.HasRoom)
    (ht : Traversal t ts) (hfits : t.Fits f.limit f.depth) : Explains f.counted (es ++ ts) := by
  obtain ⟨side, keyOrder, limit, digest, frames, complete⟩ := f
  cases frames with
  | nil =>
    cases h
    -- no container is open, so the value is the document
    exact Or.inr ⟨rfl, rfl, t, ht, hfits⟩
  | cons frame frames =>
    have hcounted := h.value (Frame.awaitsValue_outline.mpr (hexpects.2 frame rfl))
      (Frame.hasRoom_outline.mpr (hroom frame rfl)) ht (by rw [List.length_map]; exact hfits)
    rw [← outline_counted] at hcounted
    exact Or.inl ⟨hexpects.1, hcounted⟩

/-- The same, once the primitives of the value have been taken. -/
theorem Explains.folded {f : Folder} {es ts : List Event} {t : Tree} (ps : List Primitive)
    (h : Opened f.limit f.outlines es) (hexpects : f.ExpectsValue) (hroom : f.HasRoom)
    (ht : Traversal t ts) (hfits : t.Fits f.limit f.depth) : Explains (f.folded ps) (es ++ ts) := by
  refine Explains.value ?_ (Folder.expectsValue_takeAll.mpr hexpects)
    (Folder.hasRoom_takeAll.mpr hroom) ht ?_
  · rwa [Folder.limit_takeAll, Folder.outlines_takeAll]
  · rwa [Folder.limit_takeAll, Folder.depth_takeAll]

theorem Opened.length_le {limit : Nat} {frames : List Frame} {es : List Event}
    (h : Opened limit frames es) : frames.length ≤ limit := by
  induction h with
  | root => exact Nat.zero_le _
  | list _ hlimit _ _ _ _ _ => exact hlimit
  | map _ hlimit _ _ _ _ _ => exact hlimit
  | key _ _ ih => exact ih

/-- A list whose items fit one level further in fits. -/
theorem fits_list {limit opened : Nat} {items : List Tree} (hlen : items.length < 0x100000000)
    (hlimit : opened < limit) (h : ∀ t ∈ items, t.Fits limit (opened + 1)) :
    (Tree.list items).Fits limit opened := by
  have hdepth : (Tree.list items).depth ≤ limit - opened - 1 + 1 := by
    refine Tree.depth_list_le.mpr fun t ht => ?_
    have := (h t ht).2
    omega
  exact ⟨Tree.countable_list.mpr ⟨hlen, fun t ht => (h t ht).1⟩, by omega⟩

/-- A map whose values fit one level further in fits. -/
theorem fits_map {limit opened : Nat} {pairs : List (Bytes × Tree)}
    (hlen : pairs.length < 0x100000000) (hlimit : opened < limit)
    (h : ∀ kv ∈ pairs, kv.2.Fits limit (opened + 1)) : (Tree.map pairs).Fits limit opened := by
  have hdepth : (Tree.map pairs).depth ≤ limit - opened - 1 + 1 := by
    refine Tree.depth_map_le.mpr fun kv hkv => ?_
    have := (h kv hkv).2
    omega
  exact ⟨Tree.countable_map.mpr ⟨hlen, fun kv hkv => (h kv hkv).1⟩, by omega⟩

/-! ## One event -/

namespace Explains

variable {f f' : Folder} {es : List Event} {u : Unit}

theorem opened (h : Explains f es) (hf : f.complete = false) : Opened f.limit f.outlines es := by
  rcases h with ⟨_, h⟩ | ⟨hc, _⟩
  · exact h
  · rw [hf] at hc; exact Bool.noConfusion hc

theorem frames_nil (h : Explains f es) (hf : f.complete = true) : f.frames = [] := by
  rcases h with ⟨hc, _⟩ | ⟨_, ho, _⟩
  · rw [hf] at hc; exact Bool.noConfusion hc
  · exact List.map_eq_nil_iff.mp ho

/-- A folder in which a container is open is not complete. -/
theorem incomplete {frame : Frame} {frames : List Frame} (h : Explains f es)
    (hf : f.frames = frame :: frames) : f.complete = false := by
  cases hc : f.complete with
  | false => rfl
  | true =>
    have := h.frames_nil hc
    rw [hf] at this
    exact absurd this (by simp)

theorem scalar {p : Primitive} {e : Event} {t : Tree} (h : Explains f es)
    (hs : Folding.scalar p f = .ok u f') (ht : Traversal t [e]) (hcountable : t.Countable)
    (hdepth : t.depth = 0) : Explains f' (es ++ [e]) := by
  obtain ⟨hexpects, hroom, rfl⟩ := Folding.scalar_eq_ok_iff.mp hs
  have hopened := h.opened hexpects.1
  have hlimit := hopened.length_le
  rw [← Folder.depth_eq_outlines] at hlimit
  exact Explains.folded [p] hopened hexpects (Folder.hasRoom_take.mp hroom) ht
    ⟨hcountable, by omega⟩

theorem awaits_outlines (h : f.ExpectsValue) : ∀ frame ∈ f.outlines.head?, frame.AwaitsValue :=
  (Folder.expectsValue_iff.mp h).2

theorem beginList {declared : Option UInt32} (h : Explains f es)
    (hs : Folding.beginList declared f = .ok u f') : Explains f' (es ++ [.beginList declared]) := by
  obtain ⟨hexpects, hdepth, rfl⟩ := Folding.beginList_eq_ok_iff.mp hs
  rw [Folder.depth_eq_outlines] at hdepth
  exact Or.inl ⟨hexpects.1, .list (h.opened hexpects.1) hdepth (awaits_outlines hexpects)
    (by decide) .nil (by simp)⟩

theorem beginMap {declared : Option UInt32} (h : Explains f es)
    (hs : Folding.beginMap declared f = .ok u f') : Explains f' (es ++ [.beginMap declared]) := by
  obtain ⟨hexpects, hdepth, rfl⟩ := Folding.beginMap_eq_ok_iff.mp hs
  rw [Folder.depth_eq_outlines] at hdepth
  exact Or.inl ⟨hexpects.1, .map (h.opened hexpects.1) hdepth (awaits_outlines hexpects)
    (by decide) .nil (by simp)⟩

theorem key {octets : Bytes} (h : Explains f es) (hs : Folding.key octets f = .ok u f') :
    Explains f' (es ++ [.key octets]) := by
  -- whether the key is held back or taken, its frame has the same outline
  obtain ⟨declared, seen, held, frames, hframes, rfl⟩ := Folding.key_eq_ok_iff.mp hs
  have hincomplete := h.incomplete hframes
  have hopened := h.opened hincomplete
  rw [Folder.outlines, hframes] at hopened
  have hkeyed := hopened.key octets
  cases held with
  | some pairs => exact Or.inl ⟨hincomplete, hkeyed⟩
  | none =>
    refine Or.inl ⟨?_, ?_⟩
    · exact Folder.complete_take.trans hincomplete
    · show Opened (Folder.take _ _).limit (Folder.take _ _).outlines _
      rw [Folder.limit_take, Folder.outlines_take]
      exact hkeyed

/-- A count that matches is the count. -/
theorem declared_of_mismatch {declared : Option UInt32} {count : Nat} (hlt : count < 0x100000000)
    (h : Folder.mismatch? declared count.toUInt32 = none) : ∀ n ∈ declared, n.toNat = count := by
  rintro d ⟨rfl⟩
  rw [Folder.mismatch?] at h
  split at h
  · rename_i hd
    rw [hd, Folder.toNat_length hlt]
  · exact absurd h (by simp)

theorem endList (h : Explains f es) (hs : Folding.endList f = .ok u f') :
    Explains f' (es ++ [.endList]) := by
  obtain ⟨declared, seen, frames, hframes, hm, hroom, rfl⟩ := Folding.endList_eq_ok_iff.mp hs
  have hincomplete := h.incomplete hframes
  have hopened := h.opened hincomplete
  rw [Folder.outlines, hframes] at hopened
  cases hopened with
  -- the events since the list began are a traversal of it, once its end is added
  | @list _ before body _ items hbefore hlimit houter hlen hbody hitems =>
    rw [List.length_map] at hlimit hitems
    have ht := Traversal.list (declared_of_mismatch hlen hm) hbody
    have hfits := fits_list hlen hlimit hitems
    rw [List.append_assoc]
    exact Explains.folded (f := { f with frames }) _ hbefore
      (Folder.expectsValue_iff.mpr ⟨hincomplete, houter⟩) (Folder.hasRoom_take.mp hroom) ht hfits

theorem endMap (h : Explains f es) (hs : Folding.endMap f = .ok u f') :
    Explains f' (es ++ [.endMap]) := by
  obtain ⟨declared, seen, held, frames, hframes, hm, hroom, rfl⟩ :=
    Folding.endMap_eq_ok_iff.mp hs
  have hincomplete := h.incomplete hframes
  have hopened := h.opened hincomplete
  rw [Folder.outlines, hframes] at hopened
  cases hopened with
  | @map _ before body _ pairs hbefore hlimit houter hlen hbody hpairs =>
    rw [List.length_map] at hlimit hpairs
    have ht := Traversal.map (declared_of_mismatch hlen hm) hbody
    have hfits := fits_map hlen hlimit hpairs
    rw [List.append_assoc]
    exact Explains.folded (f := { f with frames }) _ hbefore
      (Folder.expectsValue_iff.mpr ⟨hincomplete, houter⟩) (Folder.hasRoom_takeAll.mp hroom) ht hfits

/-- **Preserved by every event that succeeds.** -/
theorem event {e : Event} (h : Explains f es) (hs : Folding.event e f = .ok u f') :
    Explains f' (es ++ [e]) := by
  have hscalar : (0 : Nat) < 0x100000000 := by decide
  cases e with
  | null => exact h.scalar hs .null hscalar rfl
  | bool b => exact h.scalar hs (.bool b) hscalar rfl
  | int i => exact h.scalar hs (.int i) hscalar rfl
  | uint n => exact h.scalar hs (.uint n) hscalar rfl
  | double bits => exact h.scalar hs (.double bits) hscalar rfl
  | single bits => exact h.scalar hs (.single bits) hscalar rfl
  | text octets => exact h.scalar hs (.text octets) hscalar rfl
  | key octets => exact h.key hs
  | beginList declared => exact h.beginList hs
  | beginMap declared => exact h.beginMap hs
  | endList => exact h.endList hs
  | endMap => exact h.endMap hs

/-- Preserved by every run of events that all succeed. -/
theorem events {fs : List Event} (h : Explains f es) (hs : Folding.events fs f = .ok u f') :
    Explains f' (es ++ fs) := by
  induction fs generalizing f es with
  | nil =>
    cases hs
    rwa [List.append_nil]
  | cons e fs ih =>
    rw [Folding.events, Steps.bind_eq_ok_iff] at hs
    obtain ⟨_, g, he, hfs⟩ := hs
    have := ih (h.event he) hfs
    rwa [List.append_assoc, List.singleton_append] at this

end Explains

/-! ## At the top -/

/-- No event changes how deep containers may nest. -/
theorem limit_event {e : Event} {f f' : Folder} {u : Unit} (h : Folding.event e f = .ok u f') :
    f'.limit = f.limit := by
  have hscalar : ∀ p, Folding.scalar p f = .ok u f' → f'.limit = f.limit := by
    intro p hp
    obtain ⟨_, _, rfl⟩ := Folding.scalar_eq_ok_iff.mp hp
    exact Folder.limit_folded
  cases e with
  | key octets =>
    obtain ⟨_, _, held, _, _, rfl⟩ := Folding.key_eq_ok_iff.mp h
    cases held with
    | some pairs => rfl
    | none => exact Folder.limit_take
  | beginList declared =>
    obtain ⟨_, _, rfl⟩ := Folding.beginList_eq_ok_iff.mp h
    rfl
  | beginMap declared =>
    obtain ⟨_, _, rfl⟩ := Folding.beginMap_eq_ok_iff.mp h
    rfl
  | endList =>
    obtain ⟨_, _, _, _, _, _, rfl⟩ := Folding.endList_eq_ok_iff.mp h
    exact Folder.limit_folded
  | endMap =>
    obtain ⟨_, _, _, _, _, _, _, rfl⟩ := Folding.endMap_eq_ok_iff.mp h
    exact Folder.limit_folded
  | _ => exact hscalar _ h

theorem limit_events {es : List Event} {f f' : Folder} {u : Unit}
    (h : Folding.events es f = .ok u f') : f'.limit = f.limit := by
  induction es generalizing f with
  | nil => cases h; rfl
  | cons e es ih =>
    rw [Folding.events, Steps.bind_eq_ok_iff] at h
    obtain ⟨_, g, he, hes⟩ := h
    exact (ih hes).trans (limit_event he)

/-- Folds events from a fresh folder, all of which have to succeed and make up a document. -/
def foldEvents (side : Side) (es : List Event) (o : FoldOptions) : Except Error Digest :=
  match Folding.events es (Folder.start side o) with
  | .ok _ f => f.finish
  | .error e _ => .error e

/-- The events are a traversal of a tree that fits the limit. -/
def IsTraversalWithin (o : FoldOptions) (es : List Event) (t : Tree) : Prop :=
  Traversal t es ∧ t.Countable ∧ t.depth ≤ o.depthLimit

variable {side : Side} {o : FoldOptions} {es : List Event}

/-- A traversal within the limit is folded to the digest of its tree. -/
theorem foldEvents_traversal {t : Tree} (h : IsTraversalWithin o es t) :
    foldEvents side es o = .ok (t.digest o) := by
  obtain ⟨ht, hcountable, hdepth⟩ := h
  unfold foldEvents
  rw [Folding.events_traversal hcountable ht (Folder.start_admits hdepth)]
  exact Folder.finish_start_foldedTree t

/-- What is folded to a digest is a traversal within the limit. -/
theorem traversal_of_foldEvents {d : Digest} (h : foldEvents side es o = .ok d) :
    ∃ t, IsTraversalWithin o es t := by
  unfold foldEvents at h
  cases hrun : Folding.events es (Folder.start side o) with
  | error e f => rw [hrun] at h; exact absurd h (by simp)
  | ok u f =>
    rw [hrun] at h
    have hexplains := (explains_start side o).events hrun
    rw [List.nil_append] at hexplains
    -- the limit of the tree is that of the folder at the end, which is that of the start
    have hlimit : f.limit = o.depthLimit := limit_events hrun
    rcases hexplains with ⟨hincomplete, _⟩ | ⟨_, _, t, ht, hcountable, hdepth⟩
    · -- a folder that is not complete does not finish
      simp only [Folder.finish, hincomplete] at h
      split at h <;> exact absurd h (by simp)
    · rw [hlimit] at hdepth
      exact ⟨t, ht, hcountable, hdepth⟩

/--
**A folder accepts exactly the traversals of trees that fit.**

Events fold to a digest if and only if they are a traversal of exactly one tree
within the limit, with every declared count the real one. In stored order that
digest is the canonical one of the tree, from the seed on.
-/
theorem foldEvents_ok_iff (side : Side) (o : FoldOptions) (es : List Event) :
    ((∃ d, foldEvents side es o = .ok d) ↔ ∃! t, IsTraversalWithin o es t) ∧
      ∀ d, foldEvents side es { o with keyOrder := .preserve } = .ok d ↔
        ∃ t, IsTraversalWithin o es t ∧ d = Digest.ofTree ⟨o.seed⟩ t := by
  refine ⟨⟨?_, ?_⟩, fun d => ⟨?_, ?_⟩⟩
  · rintro ⟨d, hd⟩
    obtain ⟨t, ht⟩ := traversal_of_foldEvents hd
    exact ⟨t, ht, fun t' ht' => traversal_unique ht'.1 ht.1⟩
  · rintro ⟨t, ht, _⟩
    exact ⟨t.digest o, foldEvents_traversal ht⟩
  · intro hd
    obtain ⟨t, ht⟩ := traversal_of_foldEvents hd
    have hdigest := hd.symm.trans (foldEvents_traversal ht)
    refine ⟨t, ht, ?_⟩
    rw [Except.ok.inj hdigest, ← Digest.ofTree_eq_digest rfl]
  · rintro ⟨t, ht, rfl⟩
    have hwithin : IsTraversalWithin { o with keyOrder := .preserve } es t := ht
    rw [foldEvents_traversal hwithin, ← Digest.ofTree_eq_digest rfl]

end TreeDigest
