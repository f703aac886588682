import TreeDigest.Proofs.Fold.Rejection

/-!
# What is true of a folder at every point of a run

A run may go on after a refusal, and a tree may be refused half-way through, so the states
that a folder can be in are more than those of documents that are being read. Three facts
carry over from each to the next (`Sound`): the limit is the one of the options, no more
containers are open than it allows, and none is open once the root is complete.

The last is why a complete folder stays as it is. With no container open there is nothing
to close and nothing that could have been miscounted, so all it can do is to reject.
-/

namespace TreeDigest

/-! ## Steps that keep an invariant, also where they fail -/

namespace Steps

variable {ε σ α β : Type} {I : σ → Prop} {step : EStateM ε σ α} {s s' : σ}

theorem left_ok {a : α} (h : step s = .ok a s') : left step s = s' := by rw [left, h]

theorem left_error {e : ε} (h : step s = .error e s') : left step s = s' := by rw [left, h]

/-- What a step leaves has a property if the state before had it. -/
structure Keeps (I : σ → Prop) (step : EStateM ε σ α) : Prop where
  left : ∀ {s}, I s → I (Steps.left step s)

namespace Keeps

theorem of_cases (hok : ∀ {s a s'}, I s → step s = .ok a s' → I s')
    (herror : ∀ {s e s'}, I s → step s = .error e s' → I s') : Keeps I step where
  left {s} hs := by
    cases h : step s with
    | ok a s' => rw [left_ok h]; exact hok hs h
    | error e s' => rw [left_error h]; exact herror hs h

theorem pure (a : α) : Keeps I (pure a : EStateM ε σ α) := ⟨fun hs => hs⟩

theorem throw (e : ε) : Keeps I (throw e : EStateM ε σ α) := ⟨fun hs => hs⟩

theorem bind {next : α → EStateM ε σ β} (h : Keeps I step) (hnext : ∀ a, Keeps I (next a)) :
    Keeps I (step >>= next) where
  left {s} hs := by
    have hstep := h.left hs
    cases hrun : step s with
    | ok a s' =>
      rw [left_ok hrun] at hstep
      rw [Steps.left, bind_ok hrun]
      exact (hnext a).left hstep
    | error e s' =>
      rw [left_error hrun] at hstep
      rwa [left_error (bind_error hrun)]

end Keeps

end Steps

namespace Folder

/-! ## The invariant -/

/-- What carries over from each state of a folder to the next. -/
structure Sound (o : FoldOptions) (f : Folder) : Prop where
  limit_eq : f.limit = o.depthLimit
  depth_le : f.depth ≤ o.depthLimit
  closed : f.complete = true → f.frames = []

variable {o : FoldOptions} {f g : Folder}

theorem sound_start (side : Side) : (start side o).Sound o where
  limit_eq := rfl
  depth_le := Nat.zero_le _
  closed _ := rfl

namespace Sound

/-- While a container is open, the root is not complete. -/
theorem incomplete (h : f.Sound o) (hopen : 0 < f.depth) : f.complete = false := by
  cases hf : f.complete with
  | false => rfl
  | true =>
    rw [depth, h.closed hf] at hopen
    exact absurd hopen (Nat.lt_irrefl 0)

theorem within (h : f.Sound o) (hf : f.complete = false) (hg : f.Within g) : g.Sound o where
  limit_eq := hg.limit_eq.trans h.limit_eq
  depth_le := Nat.le_trans hg.depth_le h.depth_le
  closed hcomplete := by
    rw [hg.complete_eq, hf] at hcomplete
    cases hcomplete

/-- A value that completes the root leaves no container open, and any other does not complete it. -/
theorem counted (h : f.Sound o) (hf : f.complete = false) : f.counted.Sound o := by
  obtain ⟨side, keyOrder, limit, digest, frames, complete⟩ := f
  cases frames with
  | nil => exact ⟨h.limit_eq, h.depth_le, fun _ => rfl⟩
  | cons frame frames =>
    have hincomplete : complete = false := hf
    subst hincomplete
    exact ⟨h.limit_eq, h.depth_le, fun hcomplete => Bool.noConfusion hcomplete⟩

theorem folded (h : f.Sound o) (hf : f.complete = false) (ps : List Primitive) :
    (f.folded ps).Sound o :=
  (h.within hf (.takeAll ps)).counted (complete_takeAll.trans hf)

/-- One more container is open. -/
theorem push (h : f.Sound o) (hf : f.complete = false) (hdepth : f.depth < f.limit)
    (frame : Frame) : Sound o { f with frames := frame :: f.frames } where
  limit_eq := h.limit_eq
  depth_le := h.limit_eq ▸ hdepth
  closed hcomplete := absurd (hf.symm.trans hcomplete) (by decide)

/-- A container that is innermost gives way to what its end folds. -/
theorem popped (h : f.Sound o) {frame : Frame} {frames : List Frame}
    (hf : f.frames = frame :: frames) (ps : List Primitive) :
    ({ f with frames }.folded ps).Sound o :=
  have hincomplete := h.incomplete (depth_pos hf)
  (h.within hincomplete (.pop hf)).folded hincomplete ps

/-- What is left of a folder that refused an event. -/
theorem refuses (h : f.Sound o) {x : Error} (hg : f.Refuses x g) : g.Sound o := by
  cases hg with
  | rejects _ _ => exact h
  | dangles hf => exact h.within (h.incomplete (depth_pos hf)) (.pop hf)
  | miscounts _ hopen hwithin => exact h.within (h.incomplete hopen) hwithin

end Sound

end Folder

/-! ## One step -/

namespace Folding

open Folder
open Steps (Keeps)

variable {o : FoldOptions} {f f' : Folder} {u : Unit}

theorem keyed_within {octets : Bytes} {declared : Option UInt32} {seen : UInt32}
    {held : Option (List HeldPair)} {frames : List Frame}
    (hf : f.frames = .map declared seen false held :: frames) :
    f.Within (keyed f octets declared seen held frames) := by
  have hdepth : f.depth = frames.length + 1 := by rw [Folder.depth, hf, List.length_cons]
  cases held with
  | some pairs => exact ⟨rfl, rfl, Nat.le_of_eq hdepth.symm⟩
  | none =>
    have hnext : f.Within { f with frames := .map declared seen true none :: frames } :=
      ⟨rfl, rfl, Nat.le_of_eq hdepth.symm⟩
    exact hnext.trans (.takeAll [.bytes octets])

theorem event_sound {e : Event} (h : f.Sound o) (hs : event e f = .ok u f') : f'.Sound o := by
  cases e with
  | key octets =>
    obtain ⟨declared, seen, held, frames, hf, rfl⟩ := key_eq_ok_iff.mp hs
    exact h.within (h.incomplete (depth_pos hf)) (keyed_within hf)
  | beginList declared =>
    obtain ⟨hexpects, hdepth, rfl⟩ := beginList_eq_ok_iff.mp hs
    exact h.push hexpects.1 hdepth _
  | beginMap declared =>
    obtain ⟨hexpects, hdepth, rfl⟩ := beginMap_eq_ok_iff.mp hs
    exact h.push hexpects.1 hdepth _
  | endList =>
    obtain ⟨declared, seen, frames, hf, -, -, rfl⟩ := endList_eq_ok_iff.mp hs
    exact h.popped hf _
  | endMap =>
    obtain ⟨declared, seen, held, frames, hf, -, -, rfl⟩ := endMap_eq_ok_iff.mp hs
    exact h.popped hf _
  | _ =>
    obtain ⟨hexpects, -, rfl⟩ := scalar_eq_ok_iff.mp hs
    exact h.folded hexpects.1 _

theorem event_keeps (e : Event) : Keeps (Sound o) (event e) :=
  .of_cases event_sound fun h hs => h.refuses (event_error hs)

theorem exists_event {t : Tree} (h : t.isContainer = false) : ∃ e, tree t = event e := by
  cases t with
  | null => exact ⟨.null, rfl⟩
  | bool b => exact ⟨.bool b, rfl⟩
  | int i => exact ⟨.int i, rfl⟩
  | uint u => exact ⟨.uint u, rfl⟩
  | double bits => exact ⟨.double bits, rfl⟩
  | text octets => exact ⟨.text octets, rfl⟩
  | list items => cases h
  | map pairs => cases h

theorem count_keeps (n : Nat) : Keeps (Sound o) (count n) := by
  rw [count]
  split
  · exact .pure _
  · exact .throw _

theorem trees_keeps {items : List Tree} (h : ∀ t ∈ items, Keeps (Sound o) (tree t)) :
    Keeps (Sound o) (trees items) := by
  induction items with
  | nil => exact .pure ()
  | cons item items ih =>
    rw [List.forall_mem_cons] at h
    exact .bind h.1 fun _ => ih h.2

theorem members_keeps {pairs : List (Bytes × Tree)}
    (h : ∀ kv ∈ pairs, Keeps (Sound o) (tree kv.2)) : Keeps (Sound o) (members pairs) := by
  induction pairs with
  | nil => exact .pure ()
  | cons pair pairs ih =>
    rw [List.forall_mem_cons] at h
    exact .bind (event_keeps _) fun _ => .bind h.1 fun _ => ih h.2

theorem tree_keeps (t : Tree) : Keeps (Sound o) (tree t) := by
  induction t using Tree.induct with
  | scalar t hscalar =>
    obtain ⟨e, he⟩ := exists_event hscalar
    rw [he]
    exact event_keeps e
  | list items ih =>
    exact .bind (count_keeps _) fun _ => .bind (event_keeps _) fun _ =>
      .bind (trees_keeps ih) fun _ => event_keeps _
  | map pairs ih =>
    exact .bind (count_keeps _) fun _ => .bind (event_keeps _) fun _ =>
      .bind (members_keeps ih) fun _ => event_keeps _

theorem request_keeps (r : Request) : Keeps (Sound o) (request r) := by
  cases r with
  | event e => exact event_keeps e
  | tree t => exact tree_keeps t

/-! ## A complete folder -/

/-- A value needs a root that is not complete, a key or an end a container that is open. -/
theorem incomplete_of_event {e : Event} (h : f.Sound o) (hs : event e f = .ok u f') :
    f.complete = false := by
  cases e with
  | key octets =>
    obtain ⟨_, _, _, _, hopen, -⟩ := key_eq_ok_iff.mp hs
    exact h.incomplete (depth_pos hopen)
  | beginList declared => exact (beginList_eq_ok_iff.mp hs).1.1
  | beginMap declared => exact (beginMap_eq_ok_iff.mp hs).1.1
  | endList =>
    obtain ⟨_, _, _, hopen, -⟩ := endList_eq_ok_iff.mp hs
    exact h.incomplete (depth_pos hopen)
  | endMap =>
    obtain ⟨_, _, _, _, hopen, -⟩ := endMap_eq_ok_iff.mp hs
    exact h.incomplete (depth_pos hopen)
  | _ => exact (scalar_eq_ok_iff.mp hs).1.1

theorem event_complete (h : f.Sound o) (hf : f.complete = true) (e : Event) :
    ∃ x, event e f = .error x f := by
  cases hs : event e f with
  | ok u f' => rw [incomplete_of_event h hs] at hf; cases hf
  | error x f' =>
    cases event_error hs with
    | rejects _ _ => exact ⟨x, rfl⟩
    | dangles hopen => rw [h.incomplete (depth_pos hopen)] at hf; cases hf
    | miscounts _ hopen _ => rw [h.incomplete hopen] at hf; cases hf

/-- A container that does not get as far as its beginning fails on its count alone. -/
theorem count_complete (h : f.Sound o) (hf : f.complete = true) (n : Nat)
    (opening : UInt32 → Event) (rest : Folding Unit) :
    ∃ x, (do let c ← count n; event (opening c); rest : Folding Unit) f = .error x f := by
  cases hcount : countOf n with
  | error x => exact ⟨x, Steps.bind_error (by rw [count, hcount]; rfl)⟩
  | ok c =>
    obtain ⟨x, hx⟩ := event_complete h hf (opening c)
    have hok : count n f = .ok c f := by rw [count, hcount]; rfl
    exact ⟨x, by rw [Steps.bind_ok hok, Steps.bind_error hx]⟩

theorem tree_complete (h : f.Sound o) (hf : f.complete = true) (t : Tree) :
    ∃ x, tree t f = .error x f := by
  induction t using Tree.induct with
  | scalar t hscalar =>
    obtain ⟨e, he⟩ := exists_event hscalar
    rw [he]
    exact event_complete h hf e
  | list items _ => exact count_complete h hf items.length (.beginList <| some ·) _
  | map pairs _ => exact count_complete h hf pairs.length (.beginMap <| some ·) _

theorem request_complete (h : f.Sound o) (hf : f.complete = true) (r : Request) :
    ∃ x, request r f = .error x f := by
  cases r with
  | event e => exact event_complete h hf e
  | tree t => exact tree_complete h hf t

end Folding

/-! ## A whole run -/

namespace Folder

variable {o : FoldOptions} {f : Folder}

theorem after_sound (h : f.Sound o) (requests : List Request) : (f.after requests).Sound o := by
  induction requests generalizing f with
  | nil => exact h
  | cons r requests ih => exact ih ((Folding.request_keeps r).left h)

theorem after_complete (h : f.Sound o) (hf : f.complete = true) (requests : List Request) :
    f.after requests = f := by
  induction requests with
  | nil => rfl
  | cons r requests ih =>
    obtain ⟨x, hx⟩ := Folding.request_complete h hf r
    rw [after, List.foldl_cons, Steps.left_error hx]
    exact ih

theorem finish_ok_iff (h : f.Sound o) : (∃ d, f.finish = .ok d) ↔ f.complete = true := by
  constructor
  · rintro ⟨d, hd⟩
    rw [finish] at hd
    split at hd
    · split at hd
      · assumption
      · cases hd
    · cases hd
  · intro hf
    exact ⟨f.digest, by rw [finish, h.closed hf, hf]; rfl⟩

/-- What is true of a folder whatever has been asked of it. -/
structure Steady (o : FoldOptions) (f : Folder) : Prop where
  /-- No more containers are open than the options allow, and these allow no more than 126. -/
  depth_le : f.depth ≤ o.depthLimit ∧ o.depthLimit ≤ 126
  /-- The root is complete only when no container is open. -/
  closed : f.complete = true → f.frames = []
  /-- There is a digest exactly when the root is complete. -/
  finishes : (∃ d, f.finish = .ok d) ↔ f.complete = true
  /-- Once the root is complete, whatever is asked fails and changes nothing. -/
  refuses : f.complete = true → ∀ r, ∃ x, Folding.request r f = .error x f
  /-- Once the root is complete, the folder and with it the digest stay what they are. -/
  final : f.complete = true → ∀ requests, f.after requests = f

/-- **A folder is steady after every sequence of events and trees, refused ones included.** -/
theorem run_steady (side : Side) (o : FoldOptions) (requests : List Request) :
    ((start side o).after requests).Steady o :=
  have hsound := after_sound (sound_start side) requests
  { depth_le := ⟨hsound.depth_le, Nat.min_le_right _ _⟩
    closed := hsound.closed
    finishes := finish_ok_iff hsound
    refuses := fun hf => Folding.request_complete hsound hf
    final := fun hf => after_complete hsound hf }

end Folder

end TreeDigest
