import TreeDigest.Proofs.Fold.Depth

/-!
# Folders that are ready for an event

What a folder does with an event is settled by its outline: which containers are open,
with how many entries, and whether a key is pending. A folder that is ready for a value
refuses it for two reasons only. It opens no container beyond the limit, and it counts
no more entries than there are numbers for. Then the innermost container is full.

So whoever hands events over in order, and no more entries than were declared, never
hears of a count that is wrong.
-/

namespace TreeDigest

/-- An error that says nothing of how many entries a container has. -/
def DecodeError.NotOfCount (e : DecodeError) : Prop :=
  ∀ declared actual, e ≠ .countMismatch declared actual

namespace Frame

/-- One more entry is not one too many, and where no number is left for it something holds. -/
def TakesMore (crowded : Prop) : Frame → Prop
  | .list declared seen | .map declared seen _ _ =>
    (seen = Folder.greatestCount → crowded) ∧ Folder.surplus? declared (seen + 1) = none

/-- As many entries have been counted as there are numbers for. -/
def Full : Frame → Prop
  | .list _ seen | .map _ seen _ _ => seen = Folder.greatestCount

theorem takesMore_outline {crowded : Prop} {frame : Frame} :
    frame.outline.TakesMore crowded ↔ frame.TakesMore crowded := by
  cases frame <;> rfl

end Frame

namespace Folder

variable {f f' g g' : Folder} {crowded : Prop} {declared : Option UInt32} {seen : UInt32}
  {u : Unit} {e : Error}

/-! ## Outlines -/

/-- Two folders of one outline. -/
structure Alike (f g : Folder) : Prop where
  side : f.side = g.side
  limit : f.limit = g.limit
  outlines : f.outlines = g.outlines
  complete : f.complete = g.complete

theorem Alike.refl (f : Folder) : f.Alike f := ⟨rfl, rfl, rfl, rfl⟩

theorem Alike.depth (h : f.Alike g) : f.depth = g.depth := by
  rw [depth_eq_outlines, depth_eq_outlines, h.outlines]

theorem Alike.takeAll (h : f.Alike g) (ps : List Primitive) : (f.takeAll ps).Alike g :=
  ⟨side_takeAll.trans h.side, limit_takeAll.trans h.limit, outlines_takeAll.trans h.outlines,
    complete_takeAll.trans h.complete⟩

/-- A value is counted alike. -/
theorem Alike.counted (h : f.Alike g) : f.counted.Alike g.counted := by
  obtain ⟨side, keyOrder, limit, digest, frames, complete⟩ := f
  obtain ⟨side', keyOrder', limit', digest', frames', complete'⟩ := g
  obtain ⟨hside, hlimit, houtlines, hcomplete⟩ := h
  have houtline : ∀ frame frame' : Frame, frame.outline = frame'.outline →
      frame.counted.outline = frame'.counted.outline := by
    intro frame frame' h
    cases frame <;> cases frame' <;> cases h <;> rfl
  cases frames with
  | nil =>
    cases List.map_eq_nil_iff.mp houtlines.symm
    exact ⟨hside, hlimit, rfl, rfl⟩
  | cons frame frames =>
    cases frames' with
    | nil => cases houtlines
    | cons frame' frames' =>
      obtain ⟨hframe, hframes⟩ := List.cons.inj houtlines
      exact ⟨hside, hlimit, congrArg₂ List.cons (houtline _ _ hframe) hframes, hcomplete⟩

/-- A value with certain primitives is counted as one without. -/
theorem Alike.folded (h : f.Alike g) (ps : List Primitive) : (f.folded ps).Alike g.counted :=
  (h.takeAll ps).counted

/-- A frame that both have in front, with whatever it holds back. -/
theorem Alike.push (h : f.Alike g) {frame frame' : Frame} (hframe : frame.outline = frame'.outline) :
    Alike { f with frames := frame :: f.frames } { g with frames := frame' :: g.frames } :=
  ⟨h.side, h.limit, congrArg₂ List.cons hframe h.outlines, h.complete⟩

/-- A frame that is in front of the one is in front of the other. -/
theorem Alike.pop {frame : Frame} (h : f.Alike { g with frames := frame :: g.frames }) :
    ∃ frame' frames, f.frames = frame' :: frames ∧ frame'.outline = frame.outline ∧
      Alike { f with frames } g := by
  obtain ⟨side, keyOrder, limit, digest, frames, complete⟩ := f
  obtain ⟨hside, hlimit, houtlines, hcomplete⟩ := h
  cases frames with
  | nil => cases houtlines
  | cons frame' frames =>
    obtain ⟨hframe, hframes⟩ := List.cons.inj houtlines
    exact ⟨frame', frames, rfl, hframe, hside, hlimit, hframes, hcomplete⟩

/-! ## Readiness -/

/-- A value can stand next, and only numbers for it may be lacking. -/
structure Ready (crowded : Prop) (f : Folder) : Prop where
  side : f.side = .decode
  expects : f.ExpectsValue
  takes : ∀ frame ∈ f.frames.head?, frame.TakesMore crowded

/-- As many entries have been counted in the innermost container as there are numbers for. -/
def Full (f : Folder) : Prop := ∃ frame ∈ f.frames.head?, frame.Full

theorem ready_start (o : FoldOptions) : (start .decode o).Ready crowded :=
  ⟨rfl, ⟨rfl, nofun⟩, nofun⟩

/-- Readiness is a matter of outlines. -/
theorem Ready.alike (h : g.Ready crowded) (hf : f.Alike g) : f.Ready crowded := by
  have htakes : ∀ {f : Folder}, (∀ frame ∈ f.frames.head?, frame.TakesMore crowded) ↔
      ∀ frame ∈ f.outlines.head?, frame.TakesMore crowded := by
    intro f
    unfold outlines
    cases f.frames with
    | nil => simp
    | cons frame frames => simp [Frame.takesMore_outline]
  refine ⟨hf.side.trans h.side, expectsValue_iff.mpr ?_, htakes.mpr ?_⟩
  · rw [hf.outlines, hf.complete]
    exact expectsValue_iff.mp h.expects
  · rw [hf.outlines]
    exact htakes.mp h.takes

/-- Items of a list are waited for until there are as many as it declared. -/
theorem Ready.inList (h : g.Ready crowded)
    (hseen : (seen = greatestCount → crowded) ∧ surplus? declared (seen + 1) = none) :
    (g.inList declared seen).Ready crowded :=
  ⟨h.side, ⟨h.expects.1, by rintro _ ⟨⟩; exact trivial⟩, by rintro _ ⟨⟩; exact hseen⟩

/-- Behind a key, a value is. -/
theorem Ready.inMap (h : g.Ready crowded)
    (hseen : (seen = greatestCount → crowded) ∧ surplus? declared (seen + 1) = none) :
    (g.inMap declared seen true none).Ready crowded :=
  ⟨h.side, ⟨h.expects.1, by rintro _ ⟨⟩; rfl⟩, by rintro _ ⟨⟩; exact hseen⟩

/-! ## Errors -/

/-- The errors that an input can be the reason for: a defect, a depth, a container that is full. -/
inductive Stops (crowded : Prop) (f : Folder) : Error → Prop
  | input {e : DecodeError} : e.NotOfCount → Stops crowded f (.decode e)
  | full : crowded → f.Full → Stops crowded f (.protocol .countOverflow)

end Folder

namespace Folding

open Folder

variable {f f' g : Folder} {crowded : Prop} {declared : Option UInt32} {seen : UInt32}
  {u : Unit} {e : Error}

theorem expectValue_ready (h : f.Ready crowded) : expectValue f = .ok () f :=
  expectValue_eq_ok_iff.mpr ⟨h.expects, rfl⟩

/-- A value that cannot be counted is one too many for the numbers there are. -/
theorem closeValue_stops (h : f.Ready crowded) (herror : closeValue f = .error e f') :
    f'.Stops crowded e := by
  obtain ⟨side, keyOrder, limit, digest, frames, complete⟩ := f
  match frames with
  | [] => cases herror
  | .list declared seen :: frames =>
    obtain ⟨hcrowded, hsurplus⟩ := h.takes _ rfl
    by_cases hseen : seen = greatestCount
    · rw [closeValue, Steps.bind_ok (Steps.get_apply _)] at herror
      dsimp only at herror
      rw [if_pos hseen] at herror
      cases herror
      exact .full (hcrowded hseen) ⟨_, rfl, hseen⟩
    · simp [closeValue, check, hseen, hsurplus] at herror
  | .map declared seen keyPending held :: frames =>
    obtain ⟨hcrowded, hsurplus⟩ := h.takes _ rfl
    by_cases hseen : seen = greatestCount
    · -- the value takes the pending key with it, whether or not it is counted
      rw [closeValue, Steps.bind_ok (Steps.get_apply _)] at herror
      dsimp only at herror
      rw [if_pos hseen] at herror
      cases herror
      exact .full (hcrowded hseen) ⟨_, rfl, hseen⟩
    · simp [closeValue, check, hseen, hsurplus] at herror

/-- From folders like one, a step of a fold leads to folders like another, or stops for a reason. -/
structure Turns (stops : Folder → Error → Prop) (step : Folding Unit) (g g' : Folder) : Prop where
  ok : ∀ {f u f'}, f.Alike g → step f = .ok u f' → f'.Alike g'
  error : ∀ {f e f'}, f.Alike g → step f = .error e f' → stops f' e

theorem closeValue_turns (h : g.Ready crowded) :
    Turns (Stops crowded) closeValue g g.counted where
  ok hf hok := by
    obtain ⟨-, rfl⟩ := closeValue_eq_ok_iff.mp hok
    exact hf.counted
  error hf herror := closeValue_stops (h.alike hf) herror

theorem scalar_turns (p : Primitive) (h : g.Ready crowded) :
    Turns (Stops crowded) (scalar p) g g.counted where
  ok hf hok := by
    obtain ⟨-, -, rfl⟩ := scalar_eq_ok_iff.mp hok
    exact hf.folded [p]
  error {f e f'} hf herror := by
    rw [scalar, Steps.bind_ok (expectValue_ready (h.alike hf)), Steps.bind_ok (Steps.modify_apply _ _)]
      at herror
    exact (closeValue_turns h).error (hf.takeAll [p]) herror

/-- Where a container cannot be opened, it is beyond the limit. -/
theorem checkDepth_stops (h : f.Ready crowded) (herror : checkDepth f = .error e f') :
    f'.Stops crowded e := by
  by_cases hlimit : f.limit ≤ f.depth
  · rw [checkDepth_refuses hlimit, h.side] at herror
    cases herror
    exact .input nofun
  · rw [(checkDepth_eq_ok_iff (u := ())).mpr ⟨Nat.not_le.mp hlimit, rfl⟩] at herror
    cases herror

/-- A container of either kind that cannot be opened is beyond the limit. -/
theorem opening_stops {opened : Folder → Folder} (h : f.Ready crowded)
    (herror : (do expectValue; checkDepth; modify opened : Folding Unit) f = .error e f') :
    f'.Stops crowded e := by
  rw [Steps.bind_ok (expectValue_ready h)] at herror
  rcases Steps.bind_eq_error_iff.mp herror with hdepth | ⟨_, _, -, hopen⟩
  · exact checkDepth_stops h hdepth
  · cases hopen

theorem beginList_turns (declared : Option UInt32) (h : g.Ready crowded) :
    Turns (Stops crowded) (beginList declared) g (g.inList declared 0) where
  ok hf hok := by
    obtain ⟨-, -, rfl⟩ := beginList_eq_ok_iff.mp hok
    exact hf.push rfl
  error hf herror := opening_stops (h.alike hf) herror

theorem beginMap_turns (declared : Option UInt32) (h : g.Ready crowded) :
    Turns (Stops crowded) (beginMap declared) g (g.inMap declared 0 false none) where
  ok hf hok := by
    obtain ⟨-, -, rfl⟩ := beginMap_eq_ok_iff.mp hok
    exact hf.push rfl
  error hf herror := opening_stops (h.alike hf) herror

/-- In a map that waits for a key, the key is taken. -/
theorem key_turns (octets : Bytes) : Turns (Stops crowded) (key octets)
    (g.inMap declared seen false none) (g.inMap declared seen true none) where
  ok {f u f'} hf hok := by
    obtain ⟨frame, frames, hframes, houtline, hpop⟩ := hf.pop
    obtain ⟨declared', seen', held, frames', hframes', rfl⟩ := key_eq_ok_iff.mp hok
    cases hframes.symm.trans hframes'
    cases houtline
    cases held with
    | some pairs => exact hpop.push rfl
    | none => exact (hpop.push rfl).takeAll [.bytes octets]
  error {f e f'} hf herror := by
    obtain ⟨frame, frames, hframes, houtline, -⟩ := hf.pop
    cases frame with
    | list => cases houtline
    | map =>
      cases houtline
      rw [(key_eq_ok_iff (u := ())).mpr ⟨_, _, _, frames, hframes, rfl⟩] at herror
      cases herror

theorem endList_turns (h : g.Ready crowded) (hcount : mismatch? declared seen = none) :
    Turns (Stops crowded) endList (g.inList declared seen) g.counted where
  ok hf hok := by
    obtain ⟨frame, frames, hframes, houtline, hpop⟩ := hf.pop
    obtain ⟨declared', seen', frames', hframes', -, -, rfl⟩ := endList_eq_ok_iff.mp hok
    cases hframes.symm.trans hframes'
    exact hpop.folded _
  error {f e f'} hf herror := by
    obtain ⟨frame, frames, hframes, houtline, hpop⟩ := hf.pop
    cases frame with
    | map => cases houtline
    | list =>
      cases houtline
      rw [endList, Steps.bind_ok (Steps.get_apply _)] at herror
      rw [hframes] at herror
      dsimp only at herror
      rw [Steps.bind_ok (Steps.set_apply _ _), hcount, check, Steps.bind_ok (Steps.pure_apply _ _),
        Steps.bind_ok (Steps.modify_apply _ _)] at herror
      exact (closeValue_turns h).error (hpop.takeAll [.count _]) herror

theorem endMap_turns (h : g.Ready crowded) (hcount : mismatch? declared seen = none) :
    Turns (Stops crowded) endMap (g.inMap declared seen false none) g.counted where
  ok hf hok := by
    obtain ⟨frame, frames, hframes, houtline, hpop⟩ := hf.pop
    obtain ⟨declared', seen', held, frames', hframes', -, -, rfl⟩ := endMap_eq_ok_iff.mp hok
    cases hframes.symm.trans hframes'
    exact hpop.folded _
  error {f e f'} hf herror := by
    obtain ⟨frame, frames, hframes, houtline, hpop⟩ := hf.pop
    cases frame with
    | list => cases houtline
    | map =>
      cases houtline
      rw [endMap, Steps.bind_ok (Steps.get_apply _)] at herror
      rw [hframes] at herror
      dsimp only at herror
      rw [Steps.bind_ok (Steps.set_apply _ _), hcount, check, Steps.bind_ok (Steps.pure_apply _ _),
        Steps.bind_ok (Steps.modify_apply _ _), Steps.bind_ok (Steps.modify_apply _ _)] at herror
      exact (closeValue_turns h).error ((hpop.takeAll _).takeAll [.count _]) herror

/-! ## Walks over trees -/

namespace Turns

variable {stops : Folder → Error → Prop} {step first second : Folding Unit} {g' g'' : Folder}

theorem pure : Turns stops (pure ()) g g where
  ok hf hok := by cases hok; exact hf
  error _ herror := by cases herror

theorem bind (h : Turns stops first g g') (hsecond : Turns stops second g' g'') :
    Turns stops (do first; second) g g'' where
  ok hf hok := by
    obtain ⟨_, f₁, hfirst, hok⟩ := Steps.bind_eq_ok_iff.mp hok
    exact hsecond.ok (h.ok hf hfirst) hok
  error hf herror := by
    rcases Steps.bind_eq_error_iff.mp herror with hfirst | ⟨_, f₁, hfirst, herror⟩
    · exact h.error hf hfirst
    · exact hsecond.error (h.ok hf hfirst) herror

theorem mono {stops' : Folder → Error → Prop} (h : Turns stops step g g')
    (hstops : ∀ f e, stops f e → stops' f e) : Turns stops' step g g' where
  ok := h.ok
  error hf herror := hstops _ _ (h.error hf herror)

end Turns

/-- The errors of a walk, which counts the entries of a container before it opens it. -/
def StopsWalk (f : Folder) (e : Error) : Prop := f.Stops True e ∨ e = .protocol .countOverflow

/-- A walk over a tree counts it as one value, or stops. -/
def Walks (t : Tree) : Prop := ∀ {g : Folder}, g.Ready True → Turns StopsWalk (tree t) g g.counted

theorem Turns.walk {step : Folding Unit} {g' : Folder} (h : Turns (Stops True) step g g') :
    Turns StopsWalk step g g' := h.mono fun _ _ => .inl

/-- Another entry of a container that has fewer than it declared. -/
theorem roomFor {n k : Nat} (hn : n < 0x100000000) (hk : k < n) :
    (k.toUInt32 = greatestCount → True) ∧ surplus? (some n.toUInt32) (k.toUInt32 + 1) = none :=
  ⟨fun _ => trivial, (RoomAfter.of_lt hn (declared_eq hn) hk).hasRoom.2⟩

theorem trees_turns {items : List Tree} {n : Nat} (hn : n < 0x100000000) (hg : g.Ready True)
    (h : ∀ t ∈ items, Walks t) : ∀ {k}, k + items.length = n →
      Turns StopsWalk (trees items) (g.inList (some n.toUInt32) k.toUInt32)
        (g.inList (some n.toUInt32) n.toUInt32) := by
  induction items with
  | nil =>
    rintro k rfl
    exact .pure
  | cons item items ih =>
    intro k hk
    rw [List.forall_mem_cons] at h
    rw [List.length_cons] at hk
    have hitem := h.1 (hg.inList (roomFor hn (by omega : k < n)))
    have hitems := ih h.2 (k := k + 1) (by omega)
    rw [← succ_toUInt32] at hitems
    exact .bind hitem hitems

theorem members_turns {pairs : List (Bytes × Tree)} {n : Nat} (hn : n < 0x100000000)
    (hg : g.Ready True) (h : ∀ kv ∈ pairs, Walks kv.2) : ∀ {k}, k + pairs.length = n →
      Turns StopsWalk (members pairs) (g.inMap (some n.toUInt32) k.toUInt32 false none)
        (g.inMap (some n.toUInt32) n.toUInt32 false none) := by
  induction pairs with
  | nil =>
    rintro k rfl
    exact .pure
  | cons pair pairs ih =>
    intro k hk
    rw [List.forall_mem_cons] at h
    rw [List.length_cons] at hk
    have hvalue := h.1 (hg.inMap (roomFor hn (by omega : k < n)))
    have hpairs := ih h.2 (k := k + 1) (by omega)
    rw [← succ_toUInt32] at hpairs
    exact .bind (Turns.walk (key_turns pair.1)) (.bind hvalue hpairs)

/-- A container of more entries than can be counted is not opened. -/
theorem count_turns {n : Nat} {next : UInt32 → Folding Unit} {g' : Folder}
    (h : n < 0x100000000 → Turns StopsWalk (next n.toUInt32) g g') :
    Turns StopsWalk (do next (← count n)) g g' := by
  by_cases hn : n < 0x100000000
  · rw [count_eq hn, pure_bind]
    exact h hn
  · refine ⟨fun {f u f'} _ hok => ?_, fun {f e f'} _ herror => .inr ?_⟩
    · rw [Steps.bind_error (count_overflows hn)] at hok
      cases hok
    · rw [Steps.bind_error (count_overflows hn)] at herror
      cases herror
      rfl

/-- **A walk stops because containers nest too deep, or have too many entries to count.** -/
theorem tree_turns (t : Tree) : Walks t := by
  induction t using Tree.induct with
  | scalar t hscalar =>
    intro g hg
    cases t with
    | list items => exact Bool.noConfusion hscalar
    | map pairs => exact Bool.noConfusion hscalar
    | _ => exact Turns.walk (scalar_turns _ hg)
  | list items ih =>
    intro g hg
    refine count_turns fun hn => .bind (Turns.walk (beginList_turns _ hg)) ?_
    refine .bind (trees_turns hn hg ih (Nat.zero_add _)) (Turns.walk (endList_turns hg ?_))
    exact mismatch?_eq_none hn (declared_eq hn)
  | map pairs ih =>
    intro g hg
    refine count_turns fun hn => .bind (Turns.walk (beginMap_turns _ hg)) ?_
    refine .bind (members_turns hn hg ih (Nat.zero_add _)) (Turns.walk (endMap_turns hg ?_))
    exact mismatch?_eq_none hn (declared_eq hn)

end Folding

end TreeDigest
