import TreeDigest.Proofs.Fold.Refusals
import TreeDigest.Proofs.Fold.Value

/-!
# What a refused event leaves behind

A folder can be used on after it has refused an event, so it matters what the refusal
has left of it. `event_error` goes through the events once and says of each failure which
of three kinds it is (`Refuses`):

- the event was *rejected* before anything was done, and the folder is as it was;
- it was the end of a map with a key that has no value, and that map is gone, with all
  that it held back;
- a container was *miscounted*, which comes out only once the entry has been folded or the
  container closed, so something has been done, but nothing has been opened or completed.

The second kind is an oddity among the rejections. An end that does not match the innermost
container leaves that container open, so that the caller can still close it; an end that
comes too early does not.
-/

namespace TreeDigest

/-! ## Two kinds of error -/

/-- The error of an event that no document has at that point, or that opens too much. -/
inductive Error.Rejection : Error → Prop where
  | violation {v : Violation} (h : v ≠ .countOverflow) : Rejection (.protocol v)
  | depth (side : Side) (limit : Nat) : Rejection (side.depthExceeded limit)

/-- The error of a container with other entries than it declared, or more than can be counted. -/
inductive Error.Miscount : Error → Prop where
  | overflow : Miscount (.protocol .countOverflow)
  | mismatch (declared actual : UInt32) : Miscount (.decode (.countMismatch declared actual))

theorem Error.Rejection.not_miscount {x : Error} (h : x.Rejection) : ¬ x.Miscount := by
  intro hcount
  cases h with
  | violation hv => cases hcount; exact hv rfl
  | depth side limit => cases side <;> cases hcount

/-! ## What is left of the folder -/

/-- What a step leaves of the state, whether it succeeds or fails. -/
def Steps.left {ε σ α : Type} (step : EStateM ε σ α) (s : σ) : σ :=
  match step s with
  | .ok _ s' => s'
  | .error _ s' => s'

namespace Folder

/-- `g` has opened and completed nothing that `f` had not. -/
structure Within (f g : Folder) : Prop where
  limit_eq : g.limit = f.limit
  complete_eq : g.complete = f.complete
  depth_le : g.depth ≤ f.depth

namespace Within

variable {f g h : Folder}

theorem trans (hfg : f.Within g) (hgh : g.Within h) : f.Within h where
  limit_eq := hgh.limit_eq.trans hfg.limit_eq
  complete_eq := hgh.complete_eq.trans hfg.complete_eq
  depth_le := Nat.le_trans hgh.depth_le hfg.depth_le

theorem takeAll (ps : List Primitive) : f.Within (f.takeAll ps) where
  limit_eq := limit_takeAll
  complete_eq := complete_takeAll
  depth_le := Nat.le_of_eq depth_takeAll

/-- The innermost container is gone. -/
theorem pop {frame : Frame} {frames : List Frame} (hf : f.frames = frame :: frames) :
    f.Within { f with frames } where
  limit_eq := rfl
  complete_eq := rfl
  depth_le := by
    rw [depth, depth, hf, List.length_cons]
    exact Nat.le_succ _

end Within

/-- How a folder can fail on an event: with which error, and what is left of it. -/
inductive Refuses (f : Folder) : Error → Folder → Prop where
  | rejects {x : Error} : x.Rejection → x ≠ .protocol .danglingKey → Refuses f x f
  | dangles {declared : Option UInt32} {seen : UInt32} {held : Option (List HeldPair)}
      {frames : List Frame} : f.frames = .map declared seen true held :: frames →
      Refuses f (.protocol .danglingKey) { f with frames }
  | miscounts {x : Error} {f' : Folder} : x.Miscount → 0 < f.depth → f.Within f' → Refuses f x f'

/-- A violation of the order of events, of all but two kinds. -/
theorem Refuses.violation {f : Folder} {v : Violation} (hcount : v ≠ .countOverflow)
    (hkey : v ≠ .danglingKey) : f.Refuses (.protocol v) f :=
  .rejects (.violation hcount) fun h => hkey (Error.protocol.inj h)

theorem depth_pos {f : Folder} {frame : Frame} {frames : List Frame}
    (h : f.frames = frame :: frames) : 0 < f.depth := by
  rw [depth, h, List.length_cons]
  exact Nat.succ_pos _

end Folder

/-! ## Every failure -/

namespace Folding

open Folder

variable {f f' : Folder} {x : Error}

theorem check_error {e : Option Error} (h : check e f = .error x f') : e = some x ∧ f' = f := by
  cases e with
  | none => cases h
  | some e => cases h; exact ⟨rfl, rfl⟩

theorem surplus_miscount {declared : Option UInt32} {seen : UInt32}
    (h : surplus? declared seen = some x) : x.Miscount := by
  cases declared with
  | none => cases h
  | some d =>
    rw [surplus?] at h
    split at h <;> cases h
    exact .mismatch d seen

theorem mismatch_miscount {declared : Option UInt32} {seen : UInt32}
    (h : mismatch? declared seen = some x) : x.Miscount := by
  cases declared with
  | none => cases h
  | some d =>
    rw [mismatch?] at h
    split at h <;> cases h
    exact .mismatch d seen

theorem expectValue_error (h : expectValue f = .error x f') : f.Refuses x f' := by
  obtain ⟨side, keyOrder, limit, digest, frames, complete⟩ := f
  cases complete with
  | true => cases h; exact .violation (by decide) (by decide)
  | false =>
    match frames with
    | [] => cases h
    | .list declared seen :: frames => cases h
    | .map declared seen true held :: frames => cases h
    | .map declared seen false held :: frames =>
      cases h
      exact .violation (by decide) (by decide)

theorem checkDepth_error (h : checkDepth f = .error x f') : f.Refuses x f' := by
  rcases Nat.lt_or_ge f.depth f.limit with hlt | hle
  · rw [checkDepth_eq_ok_iff (u := ()) |>.mpr ⟨hlt, rfl⟩] at h
    cases h
  · rw [checkDepth_refuses hle] at h
    cases h
    exact .rejects (.depth f.side f.limit) (by cases f.side <;> rintro ⟨⟩)

theorem closeValue_error (h : closeValue f = .error x f') :
    x.Miscount ∧ 0 < f.depth ∧ f.Within f' := by
  obtain ⟨side, keyOrder, limit, digest, frames, complete⟩ := f
  match frames with
  | [] => cases h
  | .list declared seen :: frames =>
    by_cases hseen : seen = greatestCount
    · simp only [closeValue, Steps.bind_apply, Steps.get_apply, hseen, ↓reduceIte] at h
      cases h
      exact ⟨.overflow, depth_pos rfl, rfl, rfl, Nat.le_refl _⟩
    · simp only [closeValue, Steps.bind_apply, Steps.get_apply, hseen, ↓reduceIte,
        Steps.set_apply] at h
      obtain ⟨hsurplus, rfl⟩ := check_error h
      exact ⟨surplus_miscount hsurplus, depth_pos rfl, rfl, rfl, Nat.le_refl _⟩
  | .map declared seen keyPending held :: frames =>
    by_cases hseen : seen = greatestCount
    · simp only [closeValue, Steps.bind_apply, Steps.get_apply, hseen, ↓reduceIte,
        Steps.set_apply] at h
      cases h
      exact ⟨.overflow, depth_pos rfl, rfl, rfl, Nat.le_refl _⟩
    · simp only [closeValue, Steps.bind_apply, Steps.get_apply, hseen, ↓reduceIte,
        Steps.set_apply] at h
      obtain ⟨hsurplus, rfl⟩ := check_error h
      exact ⟨surplus_miscount hsurplus, depth_pos rfl, rfl, rfl, Nat.le_refl _⟩

theorem scalar_error {p : Primitive} (h : scalar p f = .error x f') : f.Refuses x f' := by
  rw [scalar, Steps.bind_eq_error_iff] at h
  rcases h with h | ⟨_, _, hexpect, h⟩
  · exact expectValue_error h
  · obtain ⟨-, rfl⟩ := expectValue_eq_ok_iff.mp hexpect
    rw [Steps.bind_ok (Steps.modify_apply _ _)] at h
    obtain ⟨hx, hopen, hwithin⟩ := closeValue_error h
    have hopen' : 0 < (f.takeAll [p]).depth := hopen
    rw [depth_takeAll] at hopen'
    exact .miscounts hx hopen' ((Within.takeAll [p]).trans hwithin)

/-- A container is opened only after both of its checks, so a refusal comes from one of these. -/
theorem opening_error {g : Folder → Folder}
    (h : (do expectValue; checkDepth; modify g : Folding Unit) f = .error x f') :
    f.Refuses x f' := by
  rw [Steps.bind_eq_error_iff] at h
  rcases h with h | ⟨_, _, hexpect, h⟩
  · exact expectValue_error h
  · obtain ⟨-, rfl⟩ := expectValue_eq_ok_iff.mp hexpect
    rw [Steps.bind_eq_error_iff] at h
    rcases h with h | ⟨_, _, _, h⟩
    · exact checkDepth_error h
    · cases h

theorem key_error {octets : Bytes} (h : key octets f = .error x f') : f.Refuses x f' := by
  obtain ⟨side, keyOrder, limit, digest, frames, complete⟩ := f
  match frames with
  | [] => cases h; exact .violation (by decide) (by decide)
  | .list declared seen :: frames => cases h; exact .violation (by decide) (by decide)
  | .map declared seen true held :: frames => cases h; exact .violation (by decide) (by decide)
  | .map declared seen false none :: frames => cases h
  | .map declared seen false (some pairs) :: frames => cases h

/-- Once a container is gone from the folder, what can fail is its count or the one around it. -/
theorem closing_error {frame : Frame} {frames : List Frame} {e : Option Error}
    (ps : List Primitive) (hf : f.frames = frame :: frames)
    (he : ∀ {x}, e = some x → x.Miscount)
    (h : (do check e; modify (·.takeAll ps); closeValue : Folding Unit) { f with frames } =
      .error x f') : f.Refuses x f' := by
  rw [Steps.bind_eq_error_iff] at h
  rcases h with h | ⟨_, _, hcheck, h⟩
  · obtain ⟨hx, rfl⟩ := check_error h
    exact .miscounts (he hx) (depth_pos hf) (.pop hf)
  · obtain ⟨-, rfl⟩ := check_eq_ok_iff.mp hcheck
    rw [Steps.bind_ok (Steps.modify_apply _ _)] at h
    obtain ⟨hx, -, hwithin⟩ := closeValue_error h
    exact .miscounts hx (depth_pos hf) (((Within.pop hf).trans (.takeAll ps)).trans hwithin)

theorem endList_error (h : endList f = .error x f') : f.Refuses x f' := by
  obtain ⟨side, keyOrder, limit, digest, frames, complete⟩ := f
  match frames with
  | [] => cases h; exact .violation (by rintro ⟨⟩) (by rintro ⟨⟩)
  | .map declared seen keyPending held :: frames =>
    cases h
    exact .violation (by rintro ⟨⟩) (by rintro ⟨⟩)
  | .list declared seen :: frames =>
    exact closing_error [.count seen] rfl mismatch_miscount h

theorem endMap_error (h : endMap f = .error x f') : f.Refuses x f' := by
  obtain ⟨side, keyOrder, limit, digest, frames, complete⟩ := f
  match frames with
  | [] => cases h; exact .violation (by rintro ⟨⟩) (by rintro ⟨⟩)
  | .list declared seen :: frames => cases h; exact .violation (by rintro ⟨⟩) (by rintro ⟨⟩)
  | .map declared seen true held :: frames => cases h; exact .dangles rfl
  | .map declared seen false held :: frames =>
    refine closing_error (e := mismatch? declared seen) (released (held.getD []) ++ [.count seen])
      rfl mismatch_miscount (Eq.trans ?_ h)
    -- what a map held back and its count are taken one after the other
    rw [endMap, Steps.bind_ok (Steps.get_apply _)]
    dsimp only
    rw [Steps.bind_ok (Steps.set_apply _ _)]
    refine congrFun (congrArg _ (funext fun _ => ?_)) _
    funext g
    rw [Steps.bind_ok (Steps.modify_apply _ _), Steps.bind_ok (Steps.modify_apply _ _),
      Steps.bind_ok (Steps.modify_apply _ _), takeAll_append]
    rfl

/-- **Every failure of an event is a rejection, a key left without its value, or a miscount.** -/
theorem event_error {e : Event} (h : event e f = .error x f') : f.Refuses x f' := by
  cases e with
  | key octets => exact key_error h
  | beginList declared => exact opening_error h
  | beginMap declared => exact opening_error h
  | endList => exact endList_error h
  | endMap => exact endMap_error h
  | _ => exact scalar_error h

/-- **A rejected event leaves the folder as it was, but for the end of a map whose last key has
no value:** that end takes the map and all it held back away, and nothing else. -/
theorem rejected_event {e : Event} (h : event e f = .error x f') (hx : x.Rejection) :
    (x ≠ .protocol .danglingKey → f' = f) ∧
      (x = .protocol .danglingKey → ∃ declared seen held frames,
        f.frames = .map declared seen true held :: frames ∧ f' = { f with frames }) := by
  cases event_error h with
  | rejects _ hkey => exact ⟨fun _ => rfl, fun hx => absurd hx hkey⟩
  | dangles hframes => exact ⟨fun hx => absurd rfl hx, fun _ => ⟨_, _, _, _, hframes, rfl⟩⟩
  | miscounts hcount _ _ => exact absurd hcount hx.not_miscount

/-- In a map whose key waits for its value, the end of a list is refused and the map is kept; the
end of the map is refused and the map is gone. -/
theorem rejected_event_pending_key :
    Steps.left (event .endList) ((start .decode {}).inMap none 0 true none) =
        (start .decode {}).inMap none 0 true none ∧
      Steps.left (event .endMap) ((start .decode {}).inMap none 0 true none) =
        start .decode {} := by
  constructor
  · exact (rejected_event (e := .endList) (f := (start .decode {}).inMap none 0 true none)
      (x := .protocol (.mismatchedEnd .list .map)) rfl (.violation (by decide))).1 (by rintro ⟨⟩)
  · obtain ⟨declared, seen, held, frames, hframes, hleft⟩ :=
      (rejected_event (e := .endMap) (f := (start .decode {}).inMap none 0 true none)
        (x := .protocol .danglingKey) rfl (.violation (by decide))).2 rfl
    cases hframes
    exact hleft

end Folding

/-! ## Going on after a refusal -/

/-- What a folder can be asked for: one event, or a whole tree. -/
inductive Request where
  | event (e : Event)
  | tree (t : Tree)

/-- A request as a step of a fold. -/
def Folding.request : Request → Folding Unit
  | .event e => event e
  | .tree t => tree t

/-- What is left of a folder after several requests, some of which it may have refused. -/
def Folder.after (f : Folder) (requests : List Request) : Folder :=
  requests.foldl (fun f r => Steps.left (Folding.request r) f) f

/-- A map that is ended between a key and its value is gone, so not every rejection leaves the
folder as it was. -/
theorem rejected_end_loses_map :
    ¬ ∀ (side : Side) (o : FoldOptions) (es : List Event) (e : Event) (x : Error) (f' : Folder),
      Folding.event e ((Folder.start side o).after (es.map .event)) = .error x f' →
        x.Rejection → f' = (Folder.start side o).after (es.map .event) := by
  intro h
  have hkept := h .decode {} [.beginMap none, .key [0x61]] .endMap (.protocol .danglingKey) _ rfl
    (.violation (by decide))
  exact absurd (congrArg Folder.depth hkept) (by decide)

end TreeDigest
