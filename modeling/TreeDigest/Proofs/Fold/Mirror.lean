import TreeDigest.Input.Decoding
import TreeDigest.Proofs.Fold.Walk

/-!
# Folding in step with a reading

A format has one grammar and two ways to go over it: a reader that builds a tree,
and a decoder that hands events to a folder. They are written apart. What makes
them one is a relation between a step of decoding and a step of reading.

A decoding step *mirrors* a reading step if it ends at the same place, with a
folder that is a function of what was read, or fails with the same error. The
relation passes through sequences and loops, so a decoder mirrors a reader as
soon as their parts do.

The folder has to grant what the reader allows itself. Both have a limit on open
containers, the one in its open frames and the other in its levels, and `InStep`
says that they come to the same.
-/

namespace TreeDigest

/-! ## Folders in step with a reader -/

/-- A folder that can take a value, and that has `levels` containers of `limit` left to open. -/
structure Folder.InStep (f : Folder) (limit levels : Nat) : Prop extends f.Admits levels where
  decodes : f.side = .decode
  limit_eq : f.limit = limit
  used : f.depth + levels = limit

namespace Folder

variable {f : Folder} {limit n : Nat} {declared : Option UInt32}

theorem start_inStep (o : FoldOptions) : (start .decode o).InStep o.depthLimit o.depthLimit where
  toAdmits := start_admits (Nat.le_refl _)
  decodes := rfl
  limit_eq := rfl
  used := Nat.zero_add _

theorem InStep.listOver {items : List Tree} (h : f.InStep limit (n + 1))
    (hroom : RoomAfter declared items.length) : (f.listOver declared items).InStep limit n where
  toAdmits := listOver_admits h.toAdmits hroom
  decodes := side_listOver.trans h.decodes
  limit_eq := limit_listOver.trans h.limit_eq
  used := by
    have := h.used
    rw [depth_listOver]
    omega

theorem InStep.keyOver {pairs : List (Bytes × Tree)} {k : Bytes} (h : f.InStep limit (n + 1))
    (hroom : RoomAfter declared pairs.length) : (f.keyOver declared pairs k).InStep limit n where
  toAdmits := keyOver_admits h.toAdmits hroom
  decodes := side_keyOver.trans h.decodes
  limit_eq := limit_keyOver.trans h.limit_eq
  used := by
    have := h.used
    rw [depth_keyOver]
    omega

/-- A reader that has no level left fails as the folder does. -/
theorem InStep.full (h : f.InStep limit 0) :
    f.limit ≤ f.depth ∧ f.side.depthExceeded f.limit = .decode (.depthExceeded limit) := by
  rw [h.decodes, h.limit_eq]
  exact ⟨Nat.le_of_eq h.used.symm, rfl⟩

theorem beginList_refuses (h : f.InStep limit 0) :
    Folding.event (.beginList declared) f = .error (.decode (.depthExceeded limit)) f :=
  h.full.2 ▸ Folding.beginList_refuses h.expects h.full.1

theorem beginMap_refuses (h : f.InStep limit 0) :
    Folding.event (.beginMap declared) f = .error (.decode (.depthExceeded limit)) f :=
  h.full.2 ▸ Folding.beginMap_refuses h.expects h.full.1

end Folder

/-! ## Decoding steps and reading steps -/

variable {ε σ α β γ δ : Type} {wrap : ε → Error}

/--
A decoding step goes as a reading step does. Where the reader succeeds, so does
the decoder, at the same place, with an answer and a folder that are functions of
what was read; where the reader fails, the decoder fails with the same error.
-/
def Mirrors (wrap : ε → Error) (step : Decoder σ β) (reader : EStateM ε σ α) (input : σ)
    (f : Folder) (answer : α → β) (folder : α → Folder) : Prop :=
  match reader input with
  | .ok a input' => step ⟨input, f⟩ = .ok (answer a) ⟨input', folder a⟩
  | .error e _ => ∃ d, step ⟨input, f⟩ = .error (wrap e) d

namespace Mirrors

variable {step : Decoder σ β} {reader : EStateM ε σ α} {input : σ} {f : Folder} {answer : α → β}
  {folder : α → Folder} {answer' : γ → δ} {folder' : γ → Folder}

theorem ok (h : Mirrors wrap step reader input f answer folder) {a : α} {input' : σ}
    (hr : reader input = .ok a input') : step ⟨input, f⟩ = .ok (answer a) ⟨input', folder a⟩ := by
  rwa [Mirrors, hr] at h

theorem error (h : Mirrors wrap step reader input f answer folder) {e : ε} {input' : σ}
    (hr : reader input = .error e input') : ∃ d, step ⟨input, f⟩ = .error (wrap e) d := by
  rwa [Mirrors, hr] at h

/-- A description of the folder can be replaced by an equal one. -/
theorem congr {folder' : α → Folder} (h : Mirrors wrap step reader input f answer folder)
    (hf : ∀ a, folder a = folder' a) : Mirrors wrap step reader input f answer folder' :=
  funext hf ▸ h

/-- Sequences mirror each other if their parts do. -/
theorem bind {next : β → Decoder σ δ} {more : α → EStateM ε σ γ}
    (h : Mirrors wrap step reader input f answer folder)
    (hnext : ∀ a input', reader input = .ok a input' →
      Mirrors wrap (next (answer a)) (more a) input' (folder a) answer' folder') :
    Mirrors wrap (step >>= next) (reader >>= more) input f answer' folder' := by
  unfold Mirrors
  cases hr : reader input with
  | ok a input' =>
    rw [Steps.bind_ok hr, Steps.bind_ok (h.ok hr)]
    exact hnext a input' hr
  | error e input' =>
    rw [Steps.bind_error hr]
    exact Steps.bind_fails (h.error hr)

/-- What was read can be looked at in another way. -/
theorem map {g : α → γ} {answer' : γ → β} (h : Mirrors wrap step reader input f answer folder)
    (ha : ∀ a, answer' (g a) = answer a) (hf : ∀ a, folder' (g a) = folder a) :
    Mirrors wrap step (do return g (← reader)) input f answer' folder' := by
  unfold Mirrors
  cases hr : reader input with
  | ok a input' =>
    rw [Steps.bind_ok hr, Steps.pure_apply]
    dsimp only
    rw [ha, hf]
    exact h.ok hr
  | error e input' =>
    rw [Steps.bind_error hr]
    exact h.error hr

/-- Nothing happens on either side. -/
theorem done (a : α) {b : β} (h : answer a = b) (hf : folder a = f) :
    Mirrors wrap (pure b : Decoder σ β) (pure a) input f answer folder := by
  show (.ok b ⟨input, f⟩ : EStateM.Result Error (Decoding σ) β) = .ok (answer a) ⟨input, folder a⟩
  rw [h, hf]

/-- A step that is the same on both sides. -/
theorem reading (reader : EStateM ε σ α) :
    Mirrors wrap (Decoder.reading wrap reader) reader input f id fun _ => f := by
  unfold Mirrors Decoder.reading
  cases reader input with
  | ok a input' => rfl
  | error e input' => exact ⟨_, rfl⟩

/-- The octets that are left. -/
theorem rest {wrap : DecodeError → Error} {c : Cursor} :
    Mirrors wrap Decoder.rest (get : Reader Cursor) c f Cursor.rest fun _ => f := rfl

/-! ### Events -/

/-- An event that the folder takes, where the reader does nothing. -/
theorem fold {e : Event} {a : α} {answer : α → Unit}
    (h : Folding.event e f = .ok () (folder a)) :
    Mirrors wrap (Decoder.fold e) (pure a) input f answer folder := by
  show Decoder.fold e ⟨input, f⟩ = .ok () ⟨input, folder a⟩
  rw [Decoder.fold, h]

/-- An event that the folder takes, before steps that mirror each other. -/
theorem fold_bind {e : Event} {f' : Folder} {next : Unit → Decoder σ β}
    (h : Folding.event e f = .ok () f')
    (hnext : Mirrors wrap (next ()) reader input f' answer folder) :
    Mirrors wrap (Decoder.fold e >>= next) reader input f answer folder := by
  have hfold : Decoder.fold e ⟨input, f⟩ = .ok () ⟨input, f'⟩ := by rw [Decoder.fold, h]
  unfold Mirrors
  rw [Steps.bind_ok hfold]
  exact hnext

/-- An event that the folder refuses with the error of the reader. -/
theorem fold_throws {e : Event} {fault : ε} {f' : Folder} {next : Unit → Decoder σ β}
    (h : Folding.event e f = .error (wrap fault) f') :
    Mirrors wrap (Decoder.fold e >>= next) (throw fault) input f answer folder := by
  have hfold : Decoder.fold e ⟨input, f⟩ = .error (wrap fault) ⟨input, f'⟩ := by
    rw [Decoder.fold, h]
  exact ⟨_, Steps.bind_error hfold⟩

/-! ### Loops -/

/-- Loops of as many rounds mirror each other if their rounds do. -/
theorem collectOnto {step : Decoder σ Unit} {folder : List α → Folder} {n : Nat}
    (hround : ∀ xs input, xs.length < n →
      Mirrors wrap step reader input (folder xs) (fun _ => ()) fun x => folder (xs ++ [x]))
    (xs : List α) (input : σ) (left : Nat) (hn : xs.length + left = n) :
    Mirrors wrap (Loop.times step left) (Loop.collectOnto reader xs.reverse left) input (folder xs)
      (fun _ => ()) fun results => folder results.reverse := by
  induction left generalizing xs input with
  | zero => exact done _ rfl (by rw [List.reverse_reverse])
  | succ left ih =>
    refine bind (hround xs input (by omega)) fun x input _ => ?_
    -- the reader keeps its results newest first, and the folder is told of them in order
    have hnext := ih (xs ++ [x]) input (by rw [List.length_append, List.length_singleton]; omega)
    rwa [List.reverse_append] at hnext

theorem collect {step : Decoder σ Unit} {folder : List α → Folder} {n : Nat}
    (hround : ∀ xs input, xs.length < n →
      Mirrors wrap step reader input (folder xs) (fun _ => ()) fun x => folder (xs ++ [x])) :
    Mirrors wrap (Loop.times step n) (Loop.collect reader n) input (folder []) (fun _ => ())
      folder :=
  map (collectOnto hround [] input n (Nat.zero_add n)) (fun _ => rfl) fun _ => rfl

/--
Loops that go on until a round says no mirror each other if their rounds do, from
every state that an invariant of what was read so far allows.
-/
theorem gatherOnto {ρ : Type} {step : Nat → Decoder σ Bool} {reader : Nat → EStateM ε σ (Option α)}
    {folder : List α → Folder} {I : List α → σ → Prop}
    (hround : ∀ xs input, I xs input →
      Mirrors wrap (step xs.length) (reader xs.length) input (folder xs) Option.isSome
        fun result => folder (xs ++ result.toList))
    (hnext : ∀ xs input x input', I xs input →
      reader xs.length input = .ok (some x) input' → I (xs ++ [x]) input')
    (xs : List α) (input : σ) (room : List ρ) (hinv : I xs input) :
    Mirrors wrap (Loop.rounds step xs.length room)
      (Loop.gatherOnto reader xs.length xs.reverse room) input (folder xs) (fun _ => ())
      fun results => folder results.reverse := by
  induction room generalizing xs input with
  | nil =>
    refine bind (hround xs input hinv) fun result input _ => ?_
    cases result with
    | none => exact done _ rfl (by simp)
    | some x => exact done _ rfl (by simp)
  | cons _ room ih =>
    refine bind (hround xs input hinv) fun result input' hr => ?_
    cases result with
    | none => exact done _ rfl (by simp)
    | some x =>
      have hloop := ih (xs ++ [x]) input' (hnext xs input x input' hinv hr)
      rw [List.length_append, List.reverse_append] at hloop
      exact hloop

theorem gather {ρ : Type} {step : Nat → Decoder σ Bool} {reader : Nat → EStateM ε σ (Option α)}
    {folder : List α → Folder} {I : List α → σ → Prop} {room : List ρ}
    (hround : ∀ xs input, I xs input →
      Mirrors wrap (step xs.length) (reader xs.length) input (folder xs) Option.isSome
        fun result => folder (xs ++ result.toList))
    (hnext : ∀ xs input x input', I xs input →
      reader xs.length input = .ok (some x) input' → I (xs ++ [x]) input')
    (hinv : I [] input) :
    Mirrors wrap (Loop.rounds step 0 room) (Loop.gather reader room) input (folder [])
      (fun _ => ()) folder :=
  map (gatherOnto hround hnext [] input room hinv) (fun _ => rfl) fun _ => rfl

/-! ### Whole inputs -/

/-- The digest of a folder that has folded one tree is the digest of that tree. -/
theorem finish {o : FoldOptions} (t : Tree) :
    Mirrors wrap (Decoder.finish : Decoder σ Digest) (pure t) input
      ((Folder.start .decode o).foldedTree t) (Tree.digest o) (Folder.start .decode o).foldedTree := by
  show Decoder.finish ⟨input, (Folder.start .decode o).foldedTree t⟩ = _
  rw [Decoder.finish, Steps.bind_ok (Steps.get_apply _), Folder.finish_start_foldedTree]
  rfl

/--
What a reader answers about a whole input, its tree folded afterwards, is what a
decoder that mirrors it answers, as long as the reader builds no tree that a fold
refuses.
-/
theorem run {step : Decoder Cursor Unit} {reader : Reader Tree} {input : Bytes} {o : FoldOptions}
    (h : Mirrors .decode step reader (Cursor.start input) (Folder.start .decode o) (fun _ => ())
      (Folder.start .decode o).foldedTree)
    (hfits : ∀ t c, reader (Cursor.start input) = .ok t c → t.depth ≤ o.depthLimit ∧ t.Countable) :
    Decoder.run (Decoder.whole step) (Cursor.start input) o =
      (do foldTree (← reader.whole input) o) := by
  -- both look for the end of the input before a digest is given
  have hwhole : Mirrors .decode (Decoder.whole step)
      (do let t ← reader; Reader.finished; return t) (Cursor.start input) (Folder.start .decode o)
      (Tree.digest o) (Folder.start .decode o).foldedTree := by
    refine bind h fun t c _ => ?_
    exact bind (reading Reader.finished) fun _ c _ => finish t
  unfold Decoder.run Reader.whole
  cases hr : (do let t ← reader; Reader.finished; return t : Reader Tree) (Cursor.start input) with
  | ok t c =>
    obtain ⟨t', c', ht, hend⟩ := Steps.bind_eq_ok_iff.mp hr
    obtain ⟨_, _, -, hpure⟩ := Steps.bind_eq_ok_iff.mp hend
    cases hpure
    -- the reader has its tree, and folding that one cannot fail
    obtain ⟨hdepth, hcount⟩ := hfits t c' ht
    rw [hwhole.ok hr]
    exact (foldTreeOn_eq hdepth hcount).symm
  | error e c =>
    obtain ⟨d, hd⟩ := hwhole.error hr
    rw [hd]
    rfl

end Mirrors

end TreeDigest
