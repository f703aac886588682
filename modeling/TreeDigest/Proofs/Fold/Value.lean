import TreeDigest.Proofs.Fold.Step

/-!
# Folding a whole value

A value is folded as one thing, however many events it takes: the folder takes
the primitives of the value and counts the value where it stands. So for the
outside a container is like a scalar with more primitives, and whoever produces
the events of a value, a reader, a writer or a walk over a tree, has to show the
same three things of a container.

* It begins: `beginList_ok`, `beginMap_ok`.
* It goes on, from `listAt` to `listAt` and from `mapAt` over `keyAt` to `mapAt`.
* It ends as a folded value: `endList_ok`, `endMap_ok`.

Key order shows in the definitions of `mapAt` and `keyAt` and nowhere else.
-/

namespace TreeDigest

/-! ## What taking leaves as it was -/

namespace Frame

/-- A frame without what it holds back. -/
def outline : Frame → Frame
  | .list declared seen => .list declared seen
  | .map declared seen keyPending _ => .map declared seen keyPending none

theorem outline_hold? {p : Primitive} {frame held : Frame} (h : frame.hold? p = some held) :
    held.outline = frame.outline := by
  unfold hold? at h
  split at h
  · cases h; rfl
  · exact absurd h (by simp)

theorem awaitsValue_outline {frame : Frame} : frame.outline.AwaitsValue ↔ frame.AwaitsValue := by
  cases frame <;> rfl

theorem hasRoom_outline {frame : Frame} : frame.outline.HasRoom ↔ frame.HasRoom := by
  cases frame <;> rfl

end Frame

namespace Folder

variable {f : Folder} {p : Primitive} {ps : List Primitive}

theorem outline_holdIn? {frames held : List Frame} (h : holdIn? p frames = some held) :
    held.map Frame.outline = frames.map Frame.outline := by
  induction frames generalizing held with
  | nil => exact absurd h (by simp [holdIn?])
  | cons frame frames ih =>
    rw [holdIn?] at h
    cases hf : frame.hold? p with
    | some frame' =>
      rw [hf] at h
      cases h
      rw [List.map_cons, List.map_cons, Frame.outline_hold? hf]
    | none =>
      rw [hf] at h
      obtain ⟨frames', hfs, rfl⟩ := Option.map_eq_some_iff.mp h
      rw [List.map_cons, List.map_cons, ih hfs]

/-- The open containers without what they hold back. -/
def outlines (f : Folder) : List Frame := f.frames.map Frame.outline

@[simp] theorem outlines_take : (f.take p).outlines = f.outlines := by
  unfold take
  split
  · rename_i frames h
    exact outline_holdIn? h
  · rfl

@[simp] theorem complete_take : (f.take p).complete = f.complete := by
  unfold take; split <;> rfl

@[simp] theorem limit_take : (f.take p).limit = f.limit := by
  unfold take; split <;> rfl

@[simp] theorem side_take : (f.take p).side = f.side := by
  unfold take; split <;> rfl

@[simp] theorem keyOrder_take : (f.take p).keyOrder = f.keyOrder := by
  unfold take; split <;> rfl

@[simp] theorem outlines_takeAll : (f.takeAll ps).outlines = f.outlines := by
  induction ps generalizing f with
  | nil => rfl
  | cons p ps ih => rw [takeAll_cons, ih, outlines_take]

@[simp] theorem complete_takeAll : (f.takeAll ps).complete = f.complete := by
  induction ps generalizing f with
  | nil => rfl
  | cons p ps ih => rw [takeAll_cons, ih, complete_take]

@[simp] theorem limit_takeAll : (f.takeAll ps).limit = f.limit := by
  induction ps generalizing f with
  | nil => rfl
  | cons p ps ih => rw [takeAll_cons, ih, limit_take]

@[simp] theorem side_takeAll : (f.takeAll ps).side = f.side := by
  induction ps generalizing f with
  | nil => rfl
  | cons p ps ih => rw [takeAll_cons, ih, side_take]

@[simp] theorem keyOrder_takeAll : (f.takeAll ps).keyOrder = f.keyOrder := by
  induction ps generalizing f with
  | nil => rfl
  | cons p ps ih => rw [takeAll_cons, ih, keyOrder_take]

theorem depth_eq_outlines : f.depth = f.outlines.length := by
  rw [depth, outlines, List.length_map]

@[simp] theorem depth_takeAll : (f.takeAll ps).depth = f.depth := by
  rw [depth_eq_outlines, depth_eq_outlines, outlines_takeAll]

theorem expectsValue_iff :
    f.ExpectsValue ↔ f.complete = false ∧ ∀ frame ∈ f.outlines.head?, frame.AwaitsValue := by
  unfold ExpectsValue outlines
  cases f.frames with
  | nil => simp
  | cons frame frames => simp [Frame.awaitsValue_outline]

@[simp] theorem expectsValue_takeAll : (f.takeAll ps).ExpectsValue ↔ f.ExpectsValue := by
  rw [expectsValue_iff, expectsValue_iff, outlines_takeAll, complete_takeAll]

theorem hasRoom_iff : f.HasRoom ↔ ∀ frame ∈ f.outlines.head?, frame.HasRoom := by
  unfold HasRoom outlines
  cases f.frames with
  | nil => simp
  | cons frame frames => simp [Frame.hasRoom_outline]

@[simp] theorem hasRoom_take : (f.take p).HasRoom ↔ f.HasRoom := by
  rw [hasRoom_iff, hasRoom_iff, outlines_take]

@[simp] theorem hasRoom_takeAll : (f.takeAll ps).HasRoom ↔ f.HasRoom := by
  rw [hasRoom_iff, hasRoom_iff, outlines_takeAll]

@[simp] theorem limit_counted : f.counted.limit = f.limit := by
  unfold counted; split <;> rfl

@[simp] theorem limit_folded : (f.folded ps).limit = f.limit := by
  rw [folded, limit_counted, limit_takeAll]

/-! ## Taking inside a container -/

@[simp] theorem take_inList {declared : Option UInt32} {seen : UInt32} :
    (f.inList declared seen).take p = (f.take p).inList declared seen := by
  unfold take inList
  rw [holdIn?]
  cases holdIn? p f.frames <;> rfl

@[simp] theorem take_inMap_none {declared : Option UInt32} {seen : UInt32} {keyPending : Bool} :
    (f.inMap declared seen keyPending none).take p =
      (f.take p).inMap declared seen keyPending none := by
  unfold take inMap
  rw [holdIn?]
  cases holdIn? p f.frames <;> rfl

/-- A map that holds back keeps what is taken in its newest pair. -/
@[simp] theorem take_inMap_some {declared : Option UInt32} {seen : UInt32} {keyPending : Bool}
    {pair : HeldPair} {pairs : List HeldPair} :
    (f.inMap declared seen keyPending (some (pair :: pairs))).take p =
      f.inMap declared seen keyPending
        (some ({ pair with primitives := p :: pair.primitives } :: pairs)) := rfl

@[simp] theorem takeAll_inList {declared : Option UInt32} {seen : UInt32} :
    (f.inList declared seen).takeAll ps = (f.takeAll ps).inList declared seen := by
  induction ps generalizing f with
  | nil => rfl
  | cons p ps ih => rw [takeAll_cons, take_inList, ih, takeAll_cons]

@[simp] theorem takeAll_inMap_none {declared : Option UInt32} {seen : UInt32} {keyPending : Bool} :
    (f.inMap declared seen keyPending none).takeAll ps =
      (f.takeAll ps).inMap declared seen keyPending none := by
  induction ps generalizing f with
  | nil => rfl
  | cons p ps ih => rw [takeAll_cons, take_inMap_none, ih, takeAll_cons]

@[simp] theorem takeAll_inMap_some {declared : Option UInt32} {seen : UInt32} {keyPending : Bool}
    {pair : HeldPair} {pairs : List HeldPair} :
    (f.inMap declared seen keyPending (some (pair :: pairs))).takeAll ps =
      f.inMap declared seen keyPending
        (some ({ pair with primitives := ps.reverse ++ pair.primitives } :: pairs)) := by
  induction ps generalizing pair with
  | nil => rfl
  | cons p ps ih =>
    rw [takeAll_cons, take_inMap_some, ih, List.reverse_cons, List.append_assoc]
    rfl

/-! ## A value, from its beginning to its end -/

/-- A value can stand next, can be counted, and containers may nest as deep as it needs. -/
structure Admits (f : Folder) (levels : Nat) : Prop where
  expects : f.ExpectsValue
  room : f.HasRoom
  depth_le : f.depth + levels ≤ f.limit

/-- A container that declared a count, or none, has a place for an entry after `seen` others. -/
def RoomAfter (declared : Option UInt32) (seen : Nat) : Prop :=
  seen + 1 < 0x100000000 ∧ ∀ n ∈ declared, seen < n.toNat

/-- A tree has been folded. -/
def foldedTree (f : Folder) (t : Tree) : Folder := f.folded (t.absorbed f.keyOrder)

/-- A list has been opened, and items that absorb certain primitives folded. -/
def listAt (f : Folder) (declared : Option UInt32) (parts : List (List Primitive)) : Folder :=
  (f.takeAll parts.flatten).inList declared parts.length.toUInt32

/-- What a map holds back after certain pairs. -/
def heldOf (pairs : List (Bytes × List Primitive)) : List HeldPair :=
  (pairs.map fun pair => ⟨pair.1, pair.2.reverse⟩).reverse

/-- A map has been opened, and pairs with values that absorb certain primitives folded. -/
def mapAt (f : Folder) (declared : Option UInt32) (pairs : List (Bytes × List Primitive)) :
    Folder :=
  match f.keyOrder with
  | .preserve =>
    (f.takeAll (KeyOrder.preserve.primitives pairs)).inMap declared pairs.length.toUInt32 false none
  | .sorted => f.inMap declared pairs.length.toUInt32 false (some (heldOf pairs))

/-- After those pairs, one more key has been folded. -/
def keyAt (f : Folder) (declared : Option UInt32) (pairs : List (Bytes × List Primitive))
    (k : Bytes) : Folder :=
  match f.keyOrder with
  | .preserve =>
    (f.takeAll (KeyOrder.preserve.primitives pairs ++ [.bytes k])).inMap declared
      pairs.length.toUInt32 true none
  | .sorted => f.inMap declared pairs.length.toUInt32 true (some (⟨k, []⟩ :: heldOf pairs))

variable {declared : Option UInt32} {parts : List (List Primitive)}
  {pairs : List (Bytes × List Primitive)} {k : Bytes} {n : Nat}

theorem Admits.mono {m : Nat} (h : f.Admits n) (hm : m ≤ n) : f.Admits m :=
  ⟨h.expects, h.room, Nat.le_trans (Nat.add_le_add_left hm _) h.depth_le⟩

theorem toNat_length {count : Nat} (h : count < 0x100000000) : count.toUInt32.toNat = count := by
  show (UInt32.ofNat count).toNat = count
  rw [UInt32.toNat_ofNat']
  exact Nat.mod_eq_of_lt h

/-- The conditions of `HasRoom`, in terms of the count itself. -/
theorem RoomAfter.hasRoom {seen : Nat} (h : RoomAfter declared seen) :
    seen.toUInt32 ≠ greatestCount ∧ surplus? declared (seen.toUInt32 + 1) = none := by
  obtain ⟨hlt, hdeclared⟩ := h
  have hseen : seen.toUInt32.toNat = seen := toNat_length (by omega)
  have hnext : (seen.toUInt32 + 1).toNat = seen + 1 := by
    rw [UInt32.toNat_add, hseen]
    exact Nat.mod_eq_of_lt hlt
  constructor
  · intro h
    rw [h] at hseen
    have hgreatest : greatestCount.toNat = 0xFFFFFFFF := rfl
    omega
  · cases declared with
    | none => rfl
    | some d =>
      have hd := hdeclared d rfl
      have hle : ¬ d < seen.toUInt32 + 1 := by
        rw [UInt32.lt_iff_toNat_lt, hnext]
        omega
      rw [surplus?, if_neg hle]

theorem succ_toUInt32 (count : Nat) : count.toUInt32 + 1 = (count + 1).toUInt32 := by
  show UInt32.ofNat count + 1 = UInt32.ofNat (count + 1)
  rw [UInt32.ofNat_add]
  rfl

theorem mismatch?_eq_none (hlt : n < 0x100000000) (h : ∀ m ∈ declared, m.toNat = n) :
    mismatch? declared n.toUInt32 = none := by
  cases declared with
  | none => rfl
  | some d =>
    have hd : d = n.toUInt32 := by
      apply UInt32.toNat_inj.mp
      rw [h d rfl, toNat_length hlt]
    rw [mismatch?, if_pos hd]

/-! ### Scalars -/

theorem scalar_ok (h : f.Admits n) : Folding.scalar p f = .ok () (f.folded [p]) :=
  Folding.scalar_eq_ok_iff.mpr ⟨h.expects, hasRoom_take.mpr h.room, rfl⟩

/-! ### Lists -/

theorem beginList_ok (h : f.Admits (n + 1)) :
    Folding.event (.beginList declared) f = .ok () (f.listAt declared []) :=
  Folding.beginList_eq_ok_iff.mpr ⟨h.expects, by have := h.depth_le; omega, rfl⟩

theorem listAt_admits (h : f.Admits (n + 1)) (hroom : RoomAfter declared parts.length) :
    (f.listAt declared parts).Admits n where
  expects := by
    refine ⟨?_, ?_⟩
    · show (f.takeAll parts.flatten).complete = false
      rw [complete_takeAll]; exact h.expects.1
    · intro frame hframe
      cases hframe
      trivial
  room := by
    intro frame hframe
    cases hframe
    exact hroom.hasRoom
  depth_le := by
    show (f.takeAll parts.flatten).depth + 1 + n ≤ (f.takeAll parts.flatten).limit
    rw [depth_takeAll, limit_takeAll]
    have := h.depth_le
    omega

@[simp] theorem keyOrder_listAt : (f.listAt declared parts).keyOrder = f.keyOrder :=
  keyOrder_takeAll

theorem listAt_folded :
    (f.listAt declared parts).folded ps = f.listAt declared (parts ++ [ps]) := by
  unfold folded listAt
  rw [takeAll_inList, ← takeAll_append, List.flatten_append, List.flatten_singleton,
    List.length_append, List.length_singleton, ← succ_toUInt32]
  rfl

theorem endList_ok (h : f.HasRoom) (hlt : parts.length < 0x100000000)
    (hd : ∀ m ∈ declared, m.toNat = parts.length) :
    Folding.event .endList (f.listAt declared parts) =
      .ok () (f.folded (parts.flatten ++ [.count parts.length.toUInt32])) := by
  refine Folding.endList_eq_ok_iff.mpr
    ⟨declared, parts.length.toUInt32, (f.takeAll parts.flatten).frames, rfl,
      mismatch?_eq_none hlt hd, ?_, ?_⟩
  · exact hasRoom_take.mpr (hasRoom_takeAll.mpr h)
  · rw [folded, folded, takeAll_append]
    rfl

/-! ### Maps -/

theorem heldOf_append (pair : Bytes × List Primitive) :
    heldOf (pairs ++ [pair]) = ⟨pair.1, pair.2.reverse⟩ :: heldOf pairs := by
  rw [heldOf, List.map_append, List.reverse_append]
  rfl

/-- What a map releases is what its pairs absorb in the order of their keys. -/
theorem released_heldOf : released (heldOf pairs) = KeyOrder.sorted.primitives pairs := by
  -- newest first holds of the pairs and of the primitives of each, so both are reversed
  have hsort : sortPairs (heldOf pairs) =
      (KeyOrder.sorted.arrange pairs).map fun pair => ⟨pair.1, pair.2.reverse⟩ := by
    rw [sortPairs, heldOf, List.reverse_reverse, KeyOrder.arrange]
    exact (List.map_mergeSort (f := fun pair : Bytes × List Primitive =>
      (⟨pair.1, pair.2.reverse⟩ : HeldPair)) fun a _ b _ => rfl).symm
  rw [released, hsort, KeyOrder.primitives, List.flatMap_map]
  simp only [List.reverse_reverse]

theorem primitives_append (pair : Bytes × List Primitive) :
    KeyOrder.preserve.primitives (pairs ++ [pair]) =
      KeyOrder.preserve.primitives pairs ++ [.bytes pair.1] ++ pair.2 := by
  simp [KeyOrder.primitives, KeyOrder.arrange]

theorem beginMap_ok (h : f.Admits (n + 1)) :
    Folding.event (.beginMap declared) f = .ok () (f.mapAt declared []) := by
  refine Folding.beginMap_eq_ok_iff.mpr ⟨h.expects, by have := h.depth_le; omega, ?_⟩
  unfold mapAt
  cases f.keyOrder <;> rfl

theorem key_ok :
    Folding.event (.key k) (f.mapAt declared pairs) = .ok () (f.keyAt declared pairs k) := by
  refine Folding.key_eq_ok_iff.mpr ?_
  unfold mapAt keyAt
  cases f.keyOrder with
  | preserve =>
    refine ⟨_, _, _, _, rfl, ?_⟩
    rw [takeAll_append]
    exact take_inMap_none
  | sorted => exact ⟨_, _, _, _, rfl, rfl⟩

theorem keyAt_admits (h : f.Admits (n + 1)) (hroom : RoomAfter declared pairs.length) :
    (f.keyAt declared pairs k).Admits n := by
  have hdepth := h.depth_le
  -- taking the key changes nothing that the conditions are about
  have hinside : ∀ (g : Folder) (held : Option (List HeldPair)),
      g.complete = false → g.depth = f.depth → g.limit = f.limit →
      (g.inMap declared pairs.length.toUInt32 true held).Admits n := by
    intro g held hcomplete hgdepth hglimit
    refine ⟨⟨hcomplete, ?_⟩, ?_, ?_⟩
    · intro frame hframe; cases hframe; rfl
    · intro frame hframe; cases hframe; exact hroom.hasRoom
    · show g.depth + 1 + n ≤ g.limit
      omega
  unfold keyAt
  cases f.keyOrder with
  | preserve =>
    refine hinside _ _ ?_ depth_takeAll limit_takeAll
    rw [complete_takeAll]; exact h.expects.1
  | sorted => exact hinside _ _ h.expects.1 rfl rfl

@[simp] theorem keyOrder_keyAt : (f.keyAt declared pairs k).keyOrder = f.keyOrder := by
  unfold keyAt
  cases hk : f.keyOrder with
  | preserve => exact keyOrder_takeAll.trans hk
  | sorted => exact hk

theorem keyAt_folded :
    (f.keyAt declared pairs k).folded ps = f.mapAt declared (pairs ++ [(k, ps)]) := by
  unfold folded keyAt mapAt
  rw [List.length_append, List.length_singleton, ← succ_toUInt32]
  cases f.keyOrder with
  | preserve =>
    dsimp only
    rw [takeAll_inMap_none, ← takeAll_append, primitives_append]
    rfl
  | sorted =>
    dsimp only
    rw [takeAll_inMap_some, List.append_nil, heldOf_append]
    rfl

/-- The end of a map releases what the map held back, takes its count and counts the map. -/
theorem endMap_inMap {seen : UInt32} {held : Option (List HeldPair)} (h : f.HasRoom)
    (hm : mismatch? declared seen = none) :
    Folding.event .endMap (f.inMap declared seen false held) =
      .ok () (f.folded (released (held.getD []) ++ [.count seen])) :=
  Folding.endMap_eq_ok_iff.mpr ⟨declared, seen, held, f.frames, rfl, hm, hasRoom_takeAll.mpr h, rfl⟩

theorem released_nil : released [] = [] := by simp [released, sortPairs]

theorem endMap_ok (h : f.HasRoom) (hlt : pairs.length < 0x100000000)
    (hd : ∀ m ∈ declared, m.toNat = pairs.length) :
    Folding.event .endMap (f.mapAt declared pairs) =
      .ok () (f.folded (f.keyOrder.primitives pairs ++ [.count pairs.length.toUInt32])) := by
  have hm := mismatch?_eq_none hlt hd
  unfold mapAt
  cases f.keyOrder with
  | preserve =>
    dsimp only
    -- nothing was held back, so only the count is left to take
    rw [endMap_inMap (hasRoom_takeAll.mpr h) hm, Option.getD_none, released_nil, List.nil_append]
    rw [folded, folded, takeAll_append]
  | sorted =>
    dsimp only
    rw [endMap_inMap h hm, Option.getD_some, released_heldOf]

/-! ## Containers of trees

The same once more with trees for what is absorbed. Nothing outside this file
speaks of open containers in any other way.
-/

/-- A list has been opened and items folded. -/
def listOver (f : Folder) (declared : Option UInt32) (items : List Tree) : Folder :=
  f.listAt declared (Tree.absorbedItems f.keyOrder items)

/-- A map has been opened and pairs folded. -/
def mapOver (f : Folder) (declared : Option UInt32) (pairs : List (Bytes × Tree)) : Folder :=
  f.mapAt declared (Tree.absorbedPairs f.keyOrder pairs)

/-- After those pairs, one more key has been folded. -/
def keyOver (f : Folder) (declared : Option UInt32) (pairs : List (Bytes × Tree)) (k : Bytes) :
    Folder :=
  f.keyAt declared (Tree.absorbedPairs f.keyOrder pairs) k

/-- A container with as many entries as it declared has room for each of them. -/
theorem RoomAfter.of_lt {seen : Nat} (hn : n < 0x100000000) (hd : ∀ d ∈ declared, d.toNat = n)
    (h : seen < n) : RoomAfter declared seen :=
  ⟨by omega, fun d hdmem => by rw [hd d hdmem]; omega⟩

/-- A container without a declared count has room for as many entries as 32 bits can count. -/
theorem RoomAfter.undeclared {seen : Nat} (h : seen + 1 < 0x100000000) : RoomAfter none seen :=
  ⟨h, by rintro _ ⟨⟩⟩

/-- A count that fits 32 bits is declared as it is. -/
theorem declared_eq (h : n < 0x100000000) : ∀ d ∈ some n.toUInt32, d.toNat = n := by
  rintro d ⟨⟩
  exact toNat_length h

section Lists

variable {items : List Tree}

theorem beginList_tree (h : f.Admits (n + 1)) :
    Folding.event (.beginList declared) f = .ok () (f.listOver declared []) :=
  beginList_ok h

theorem listOver_admits (h : f.Admits (n + 1)) (hroom : RoomAfter declared items.length) :
    (f.listOver declared items).Admits n := by
  rw [← Tree.length_absorbedItems f.keyOrder items] at hroom
  exact listAt_admits h hroom

theorem listOver_foldedTree (t : Tree) :
    (f.listOver declared items).foldedTree t = f.listOver declared (items ++ [t]) := by
  rw [foldedTree, listOver, keyOrder_listAt, listAt_folded, listOver, Tree.absorbedItems_append]
  rfl

@[simp] theorem side_listOver : (f.listOver declared items).side = f.side := side_takeAll

@[simp] theorem limit_listOver : (f.listOver declared items).limit = f.limit := limit_takeAll

@[simp] theorem depth_listOver : (f.listOver declared items).depth = f.depth + 1 :=
  congrArg (· + 1) depth_takeAll

/-- A list that ends after its items has been folded as a tree. -/
theorem endList_tree (h : f.HasRoom) (hlt : items.length < 0x100000000)
    (hd : ∀ d ∈ declared, d.toNat = items.length) :
    Folding.event .endList (f.listOver declared items) = .ok () (f.foldedTree (.list items)) := by
  rw [← Tree.length_absorbedItems f.keyOrder items] at hlt hd
  rw [listOver, endList_ok h hlt hd, Tree.length_absorbedItems, foldedTree, Tree.absorbed]

end Lists

section Maps

variable {pairs : List (Bytes × Tree)}

theorem beginMap_tree (h : f.Admits (n + 1)) :
    Folding.event (.beginMap declared) f = .ok () (f.mapOver declared []) :=
  beginMap_ok h

theorem key_tree :
    Folding.event (.key k) (f.mapOver declared pairs) = .ok () (f.keyOver declared pairs k) :=
  key_ok

theorem keyOver_admits (h : f.Admits (n + 1)) (hroom : RoomAfter declared pairs.length) :
    (f.keyOver declared pairs k).Admits n := by
  rw [← Tree.length_absorbedPairs f.keyOrder pairs] at hroom
  exact keyAt_admits h hroom

theorem keyOver_foldedTree (t : Tree) :
    (f.keyOver declared pairs k).foldedTree t = f.mapOver declared (pairs ++ [(k, t)]) := by
  rw [foldedTree, keyOver, keyOrder_keyAt, keyAt_folded, mapOver, Tree.absorbedPairs_append]
  rfl

@[simp] theorem side_keyOver : (f.keyOver declared pairs k).side = f.side := by
  unfold keyOver keyAt
  cases f.keyOrder
  · exact side_takeAll
  · rfl

@[simp] theorem limit_keyOver : (f.keyOver declared pairs k).limit = f.limit := by
  unfold keyOver keyAt
  cases f.keyOrder
  · exact limit_takeAll
  · rfl

@[simp] theorem depth_keyOver : (f.keyOver declared pairs k).depth = f.depth + 1 := by
  unfold keyOver keyAt
  cases f.keyOrder
  · exact congrArg (· + 1) depth_takeAll
  · rfl

/-- A map that ends after its pairs has been folded as a tree. -/
theorem endMap_tree (h : f.HasRoom) (hlt : pairs.length < 0x100000000)
    (hd : ∀ d ∈ declared, d.toNat = pairs.length) :
    Folding.event .endMap (f.mapOver declared pairs) = .ok () (f.foldedTree (.map pairs)) := by
  rw [← Tree.length_absorbedPairs f.keyOrder pairs] at hlt hd
  rw [mapOver, endMap_ok h hlt hd, Tree.length_absorbedPairs, foldedTree, Tree.absorbed]

end Maps

end Folder

end TreeDigest
