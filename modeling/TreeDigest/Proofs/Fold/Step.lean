import TreeDigest.Proofs.Steps
import TreeDigest.Proofs.Fold.Absorbed

/-!
# What each event does to a folder

A folder that takes an event ends in a state that is a plain function of the
state before. This module names the conditions and the states, and says of each
event that it succeeds exactly under its conditions and with its state.

Conditions are about the innermost container alone: whether a value can stand
there (`ExpectsValue`), and whether one more entry can be counted (`HasRoom`).
-/

namespace TreeDigest

/-! ## Conditions on the innermost container -/

namespace Frame

/-- A value can stand next: in a list always, in a map after a key. -/
def AwaitsValue : Frame → Prop
  | .list _ _ => True
  | .map _ _ keyPending _ => keyPending = true

/-- One more entry can be counted: there is a number for it, and it is not one too many. -/
def HasRoom : Frame → Prop
  | .list declared seen | .map declared seen _ _ =>
    seen ≠ Folder.greatestCount ∧ Folder.surplus? declared (seen + 1) = none

/-- One more entry has been counted. -/
def counted : Frame → Frame
  | .list declared seen => .list declared (seen + 1)
  | .map declared seen _ held => .map declared (seen + 1) false held

end Frame

/-- The error of a side on containers that nest deeper than a limit. -/
def Side.depthExceeded (side : Side) (limit : Nat) : Error :=
  match side with
  | .encode => .encode (.depthExceeded limit)
  | .decode => .decode (.depthExceeded limit)

namespace Folder

/-- A value can stand next. -/
def ExpectsValue (f : Folder) : Prop :=
  f.complete = false ∧ ∀ frame ∈ f.frames.head?, frame.AwaitsValue

/-- A value that stands next can be counted in the container around it. -/
def HasRoom (f : Folder) : Prop := ∀ frame ∈ f.frames.head?, frame.HasRoom

/-- A value is complete and has been counted in the container around it. -/
def counted (f : Folder) : Folder :=
  match f.frames with
  | [] => { f with complete := true }
  | frame :: frames => { f with frames := frame.counted :: frames }

/-- Several primitives have been taken. -/
def takeAll (f : Folder) (ps : List Primitive) : Folder := ps.foldl take f

@[simp] theorem takeAll_cons (f : Folder) (p : Primitive) (ps : List Primitive) :
    f.takeAll (p :: ps) = (f.take p).takeAll ps := rfl

theorem takeAll_append (f : Folder) (ps qs : List Primitive) :
    f.takeAll (ps ++ qs) = (f.takeAll ps).takeAll qs := List.foldl_append

/-- A value that absorbs certain primitives has been folded. -/
def folded (f : Folder) (ps : List Primitive) : Folder := (f.takeAll ps).counted

/-- A list has been opened, and `seen` of its items folded. -/
def inList (f : Folder) (declared : Option UInt32) (seen : UInt32) : Folder :=
  { f with frames := .list declared seen :: f.frames }

/-- A map has been opened, and `seen` of its pairs folded. -/
def inMap (f : Folder) (declared : Option UInt32) (seen : UInt32) (keyPending : Bool)
    (held : Option (List HeldPair)) : Folder :=
  { f with frames := .map declared seen keyPending held :: f.frames }

/-- What a map that is just opened holds back. -/
def noneHeld : KeyOrder → Option (List HeldPair)
  | .preserve => none
  | .sorted => some []

end Folder

/-! ## What success of a step means -/

namespace Folding

variable {f f' : Folder} {u : Unit}

theorem check_eq_ok_iff {e : Option Error} : check e f = .ok u f' ↔ e = none ∧ f = f' := by
  cases e with
  | none => simp [check]
  | some e => simp [check]

theorem expectValue_eq_ok_iff : expectValue f = .ok u f' ↔ f.ExpectsValue ∧ f = f' := by
  obtain ⟨side, keyOrder, limit, digest, frames, complete⟩ := f
  cases complete with
  | true => simp [expectValue, Folder.ExpectsValue]
  | false =>
    match frames with
    | [] => simp [expectValue, Folder.ExpectsValue]
    | .list declared seen :: frames =>
      simp [expectValue, Folder.ExpectsValue, Frame.AwaitsValue]
    | .map declared seen true held :: frames =>
      simp [expectValue, Folder.ExpectsValue, Frame.AwaitsValue]
    | .map declared seen false held :: frames =>
      simp [expectValue, Folder.ExpectsValue, Frame.AwaitsValue]

theorem checkDepth_eq_ok_iff : checkDepth f = .ok u f' ↔ f.depth < f.limit ∧ f = f' := by
  by_cases h : f.limit ≤ f.depth
  · cases hs : f.side <;> simp [checkDepth, h, hs, Nat.not_lt.mpr h]
  · simp [checkDepth, h, eq_comm, Nat.not_le.mp h]

theorem closeValue_eq_ok_iff : closeValue f = .ok u f' ↔ f.HasRoom ∧ f.counted = f' := by
  obtain ⟨side, keyOrder, limit, digest, frames, complete⟩ := f
  match frames with
  | [] => simp [closeValue, Folder.HasRoom, Folder.counted]
  | .list declared seen :: frames =>
    -- a count that cannot grow is refused before it is compared with the declared one
    by_cases h : seen = Folder.greatestCount
    · simp [closeValue, Folder.HasRoom, Frame.HasRoom, h]
    · cases hs : Folder.surplus? declared (seen + 1) <;>
        simp [closeValue, check, Folder.HasRoom, Frame.HasRoom, Folder.counted, Frame.counted, h, hs]
  | .map declared seen keyPending held :: frames =>
    by_cases h : seen = Folder.greatestCount
    · simp [closeValue, Folder.HasRoom, Frame.HasRoom, h]
    · cases hs : Folder.surplus? declared (seen + 1) <;>
        simp [closeValue, check, Folder.HasRoom, Frame.HasRoom, Folder.counted, Frame.counted, h, hs]

/-- A scalar is taken where a value can stand and be counted. -/
theorem scalar_eq_ok_iff {p : Primitive} :
    scalar p f = .ok u f' ↔ f.ExpectsValue ∧ (f.take p).HasRoom ∧ f.folded [p] = f' := by
  simp only [scalar, Steps.bind_eq_ok_iff, expectValue_eq_ok_iff, Steps.modify_apply,
    closeValue_eq_ok_iff]
  constructor
  · rintro ⟨_, _, ⟨hexp, rfl⟩, _, _, ⟨rfl⟩, hroom, hf⟩
    exact ⟨hexp, hroom, hf⟩
  · rintro ⟨hexp, hroom, hf⟩
    exact ⟨(), f, ⟨hexp, rfl⟩, (), f.take p, rfl, hroom, hf⟩

/-- A container of either kind is opened where a value can stand and the limit allows it. -/
theorem opening_eq_ok_iff {opened : Folder → Folder} :
    (do expectValue; checkDepth; modify opened : Folding Unit) f = .ok u f' ↔
      f.ExpectsValue ∧ f.depth < f.limit ∧ opened f = f' := by
  simp only [Steps.bind_eq_ok_iff, expectValue_eq_ok_iff, checkDepth_eq_ok_iff,
    Steps.modify_apply]
  constructor
  · rintro ⟨_, _, ⟨hexp, rfl⟩, _, _, ⟨hdepth, rfl⟩, ⟨rfl⟩⟩
    exact ⟨hexp, hdepth, rfl⟩
  · rintro ⟨hexp, hdepth, rfl⟩
    exact ⟨(), f, ⟨hexp, rfl⟩, (), f, ⟨hdepth, rfl⟩, rfl⟩

theorem beginList_eq_ok_iff {declared : Option UInt32} :
    beginList declared f = .ok u f' ↔
      f.ExpectsValue ∧ f.depth < f.limit ∧ f.inList declared 0 = f' :=
  opening_eq_ok_iff

theorem beginMap_eq_ok_iff {declared : Option UInt32} :
    beginMap declared f = .ok u f' ↔
      f.ExpectsValue ∧ f.depth < f.limit ∧
        f.inMap declared 0 false (Folder.noneHeld f.keyOrder) = f' :=
  opening_eq_ok_iff

theorem checkDepth_refuses (h : f.limit ≤ f.depth) :
    checkDepth f = .error (f.side.depthExceeded f.limit) f := by
  cases hs : f.side <;> simp [checkDepth, Side.depthExceeded, h, hs]

/-- Where all that the limit allows are open, another container is refused with the limit. -/
theorem opening_refuses {opened : Folder → Folder} (hexpects : f.ExpectsValue)
    (h : f.limit ≤ f.depth) :
    (do expectValue; checkDepth; modify opened : Folding Unit) f =
      .error (f.side.depthExceeded f.limit) f := by
  have hexpect : expectValue f = .ok () f := expectValue_eq_ok_iff.mpr ⟨hexpects, rfl⟩
  rw [Steps.bind_ok hexpect, Steps.bind_error (checkDepth_refuses h)]

theorem beginList_refuses {declared : Option UInt32} (hexpects : f.ExpectsValue)
    (h : f.limit ≤ f.depth) :
    event (.beginList declared) f = .error (f.side.depthExceeded f.limit) f :=
  opening_refuses hexpects h

theorem beginMap_refuses {declared : Option UInt32} (hexpects : f.ExpectsValue)
    (h : f.limit ≤ f.depth) :
    event (.beginMap declared) f = .error (f.side.depthExceeded f.limit) f :=
  opening_refuses hexpects h

/-- A key that is folded, in a map that holds back and in one that does not. -/
def keyed (f : Folder) (octets : Bytes) (declared : Option UInt32) (seen : UInt32)
    (held : Option (List HeldPair)) (frames : List Frame) : Folder :=
  match held with
  | some pairs =>
    { f with frames := .map declared seen true (some (⟨octets, []⟩ :: pairs)) :: frames }
  | none => ({ f with frames := .map declared seen true none :: frames }).take (.bytes octets)

theorem key_eq_ok_iff {octets : Bytes} :
    key octets f = .ok u f' ↔ ∃ declared seen held frames,
      f.frames = .map declared seen false held :: frames ∧
        keyed f octets declared seen held frames = f' := by
  obtain ⟨side, keyOrder, limit, digest, frames, complete⟩ := f
  match frames with
  | [] => simp [key]
  | .list declared seen :: frames => simp [key]
  | .map declared seen true held :: frames => simp [key]
  | .map declared seen false held :: frames =>
    constructor
    · intro h
      refine ⟨declared, seen, held, frames, rfl, ?_⟩
      cases held <;> simpa [key, keyed] using h
    · rintro ⟨_, _, _, _, hframes, h⟩
      cases hframes
      cases held <;> simpa [key, keyed] using h

/-- A list ends where it is the innermost container and has the count that it declared. -/
theorem endList_eq_ok_iff :
    endList f = .ok u f' ↔ ∃ declared seen frames,
      f.frames = .list declared seen :: frames ∧ Folder.mismatch? declared seen = none ∧
        ({ f with frames }.take (.count seen)).HasRoom ∧
        { f with frames }.folded [.count seen] = f' := by
  obtain ⟨side, keyOrder, limit, digest, frames, complete⟩ := f
  match frames with
  | [] => simp [endList]
  | .map declared seen keyPending held :: frames => simp [endList]
  | .list declared seen :: frames =>
    cases hm : Folder.mismatch? declared seen with
    | some e => simp [endList, check, hm]
    | none =>
      rw [endList, Steps.bind_ok (Steps.get_apply _)]
      dsimp only
      rw [Steps.bind_ok (Steps.set_apply _ _),
        Steps.bind_ok ((check_eq_ok_iff (u := ())).mpr ⟨hm, rfl⟩),
        Steps.bind_ok (Steps.modify_apply _ _), closeValue_eq_ok_iff]
      constructor
      · exact fun ⟨hroom, h⟩ => ⟨declared, seen, frames, rfl, hm, hroom, h⟩
      · rintro ⟨_, _, _, hframes, _, hroom, h⟩
        cases hframes
        exact ⟨hroom, h⟩

/-- A map ends where it is the innermost container and has no key left and the count it declared. -/
theorem endMap_eq_ok_iff :
    endMap f = .ok u f' ↔ ∃ declared seen held frames,
      f.frames = .map declared seen false held :: frames ∧
        Folder.mismatch? declared seen = none ∧
        ({ f with frames }.takeAll (Folder.released (held.getD []) ++ [Primitive.count seen])).HasRoom ∧
        { f with frames }.folded (Folder.released (held.getD []) ++ [Primitive.count seen]) = f' := by
  obtain ⟨side, keyOrder, limit, digest, frames, complete⟩ := f
  match frames with
  | [] => simp [endMap]
  | .list declared seen :: frames => simp [endMap]
  -- a key is left without its value
  | .map declared seen true held :: frames => simp [endMap]
  | .map declared seen false held :: frames =>
    cases hm : Folder.mismatch? declared seen with
    | some e =>
      simp only [endMap, Steps.bind_apply, Steps.get_apply, Steps.set_apply, hm, check,
        Steps.throw_apply, reduceCtorEq, false_iff]
      rintro ⟨_, _, _, _, hframes, hnone, _⟩
      cases hframes
      exact absurd hnone (by simp [hm])
    | none =>
      -- the frame of the map is gone when its primitives are taken, so they go to what is
      -- around it, and the count after them
      rw [endMap, Steps.bind_ok (Steps.get_apply _)]
      dsimp only
      rw [Steps.bind_ok (Steps.set_apply _ _),
        Steps.bind_ok ((check_eq_ok_iff (u := ())).mpr ⟨hm, rfl⟩),
        Steps.bind_ok (Steps.modify_apply _ _), Steps.bind_ok (Steps.modify_apply _ _),
        closeValue_eq_ok_iff]
      constructor
      · rintro ⟨hroom, h⟩
        refine ⟨declared, seen, held, frames, rfl, hm, ?_, ?_⟩
        · rwa [Folder.takeAll_append]
        · rwa [Folder.folded, Folder.takeAll_append]
      · rintro ⟨_, _, _, _, hframes, _, hroom, h⟩
        cases hframes
        rw [Folder.folded, Folder.takeAll_append] at h
        rw [Folder.takeAll_append] at hroom
        exact ⟨hroom, h⟩

end Folding

end TreeDigest
