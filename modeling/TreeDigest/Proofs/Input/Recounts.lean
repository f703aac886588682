import TreeDigest.Input.Decoding
import TreeDigest.Proofs.Fold.Depth

/-!
# Decoders that recount what readers read

A decoder that folds and a reader that builds can go over an input in the same places.
If the reader has a result, the decoder has handed over the events of that result. If
the reader fails, the decoder fails with the same fault, and what it has handed over by
then is a beginning of what it would have handed over of some result.

Nothing is said of the folder: it may refuse any event, and then the decoder fails with
its error, whatever the reader does. So `Recounts` holds of every input and is closed
under each way of composing, and only at the end is it asked what a folder does with
the events.
-/

namespace TreeDigest

/-- The end of a decoding step that leaves a certain folder. -/
def Decoding.ended {σ α : Type} (f : Folder) :
    EStateM.Result Error σ α → EStateM.Result Error (Decoding σ) α
  | .ok a input => .ok a ⟨input, f⟩
  | .error e input => .error e ⟨input, f⟩

/--
At a place, a decoding step hands certain events to its folder. If these are taken, it
ends in a certain way; if not, it fails with the error of the folder.
-/
def Decoder.Hands {σ α : Type} (step : Decoder σ α) (input : σ) (es : List Event)
    (result : EStateM.Result Error σ α) : Prop :=
  ∀ f, match Folding.events es f with
    | .ok _ f' => step ⟨input, f⟩ = Decoding.ended f' result
    | .error e _ => ∃ d, step ⟨input, f⟩ = .error e d

namespace Decoder.Hands

variable {σ ε α β : Type} {step : Decoder σ α} {next : α → Decoder σ β} {input input' : σ}
  {es fs : List Event} {a : α} {e : Error}

theorem pure : Hands (pure a : Decoder σ α) input [] (.ok a input) := fun _ => rfl

theorem bind {result : EStateM.Result Error σ β} (h : step.Hands input es (.ok a input'))
    (hnext : (next a).Hands input' fs result) : (step >>= next).Hands input (es ++ fs) result := by
  intro f
  have hf := h f
  cases hes : Folding.events es f with
  | ok _ f' =>
    rw [hes] at hf
    rw [Folding.events_append hes, Steps.bind_ok hf]
    exact hnext f'
  | error e f' =>
    rw [hes] at hf
    obtain ⟨f'', hes'⟩ : ∃ f'', Folding.events (es ++ fs) f = .error e f'' :=
      Folding.events_append_error ⟨f', hes⟩
    rw [hes']
    exact Steps.bind_fails hf

theorem bind_error (h : step.Hands input es (.error e input')) :
    (step >>= next).Hands input es (.error e input') := by
  intro f
  have hf := h f
  cases hes : Folding.events es f with
  | ok _ f' =>
    rw [hes] at hf
    exact Steps.bind_error hf
  | error e f' =>
    rw [hes] at hf
    exact Steps.bind_fails hf

theorem reading {wrap : ε → Error} {reader : EStateM ε σ α} (h : reader input = .ok a input') :
    (Decoder.reading wrap reader).Hands input [] (.ok a input') := by
  intro f
  show Decoder.reading wrap reader ⟨input, f⟩ = .ok a ⟨input', f⟩
  rw [Decoder.reading]
  dsimp only
  rw [h]

theorem reading_error {wrap : ε → Error} {reader : EStateM ε σ α} {fault : ε}
    (h : reader input = .error fault input') :
    (Decoder.reading wrap reader).Hands input [] (.error (wrap fault) input') := by
  intro f
  show Decoder.reading wrap reader ⟨input, f⟩ = .error (wrap fault) ⟨input', f⟩
  rw [Decoder.reading]
  dsimp only
  rw [h]

theorem fold {e : Event} : (Decoder.fold e : Decoder σ Unit).Hands input [e] (.ok () input) := by
  intro f
  rw [← Folding.event_eq, Decoder.fold]
  cases Folding.event e f with
  | ok _ f' => rfl
  | error e f' => exact ⟨_, rfl⟩

end Decoder.Hands

/--
At a place, a decoding step recounts a step of reading. If that has a result, the
decoding step hands over the events told of it and gives an answer to it. If that fails,
the decoding step hands over a beginning of the events told of something, and fails with
the same fault. A property holds of what is told of.
-/
structure Decoder.Recounts {σ ε α β : Type} (wrap : ε → Error) (step : Decoder σ β)
    (reader : EStateM ε σ α) (input : σ) (answer : α → β) (told : α → List Event)
    (p : α → Prop) : Prop where
  ok : ∀ {a input'}, reader input = .ok a input' →
    p a ∧ step.Hands input (told a) (.ok (answer a) input')
  error : ∀ {fault input'}, reader input = .error fault input' →
    ∃ a es, p a ∧ es <+: told a ∧ step.Hands input es (.error (wrap fault) input')

namespace Decoder.Recounts

variable {σ ε α β γ δ : Type} {wrap : ε → Error} {step : Decoder σ β} {reader : EStateM ε σ α}
  {input : σ} {answer : α → β} {told : α → List Event} {p : α → Prop}

/-! ## Sequences -/

/-- Nothing more is handed over, and nothing more is read. -/
theorem done {a : α} {b : β} (hp : p a) (htold : told a = []) (hanswer : answer a = b) :
    Recounts wrap (pure b) (pure a) input answer told p where
  ok h := by
    cases h
    rw [htold, hanswer]
    exact ⟨hp, .pure⟩
  error h := by cases h

/--
Steps in sequence, of which what the first is told of may go on to what both are told
of, and does so if it is followed by what the second is told of.
-/
theorem bind {next : β → Decoder σ δ} {more : α → EStateM ε σ γ} {answer' : γ → δ}
    {told' : γ → List Event} {q : γ → Prop} {w : α → γ → List Event} {r : α → γ → Prop}
    (h : Recounts wrap step reader input answer told p)
    (hnext : ∀ a input', p a → reader input = .ok a input' →
      Recounts wrap (next (answer a)) (more a) input' answer' (w a) (r a))
    (hbegun : ∀ a, p a → ∃ b, q b ∧ told a <+: told' b)
    (hboth : ∀ a b, p a → r a b → q b ∧ told' b = told a ++ w a b) :
    Recounts wrap (step >>= next) (reader >>= more) input answer' told' q where
  ok hok := by
    obtain ⟨a, c, hread, hmore⟩ := Steps.bind_eq_ok_iff.mp hok
    obtain ⟨ha, hfirst⟩ := h.ok hread
    obtain ⟨hb, hsecond⟩ := (hnext a c ha hread).ok hmore
    obtain ⟨hq, htold⟩ := hboth a _ ha hb
    rw [htold]
    exact ⟨hq, hfirst.bind hsecond⟩
  error herror := by
    rcases Steps.bind_eq_error_iff.mp herror with hread | ⟨a, c, hread, hmore⟩
    · obtain ⟨a, es, ha, hes, hfirst⟩ := h.error hread
      obtain ⟨b, hq, htold⟩ := hbegun a ha
      exact ⟨b, es, hq, hes.trans htold, hfirst.bind_error⟩
    · obtain ⟨ha, hfirst⟩ := h.ok hread
      obtain ⟨b, fs, hb, hfs, hsecond⟩ := (hnext a c ha hread).error hmore
      obtain ⟨hq, htold⟩ := hboth a b ha hb
      rw [← List.prefix_append_right_inj (told a), ← htold] at hfs
      exact ⟨b, told a ++ fs, hq, hfs, hfirst.bind hsecond⟩

/-- A reader whose result is looked at in another way. -/
theorem map {g : α → γ} {answer' : γ → β} {told' : γ → List Event} {q : γ → Prop}
    (h : Recounts wrap step reader input answer told p) (hp : ∀ a, p a → q (g a))
    (htold : ∀ a, told' (g a) = told a) (hanswer : ∀ a, answer' (g a) = answer a) :
    Recounts wrap step (do return g (← reader)) input answer' told' q where
  ok hok := by
    obtain ⟨a, c, hread, hpure⟩ := Steps.bind_eq_ok_iff.mp hok
    cases hpure
    obtain ⟨ha, hhands⟩ := h.ok hread
    rw [htold, hanswer]
    exact ⟨hp a ha, hhands⟩
  error herror := by
    rcases Steps.bind_eq_error_iff.mp herror with hread | ⟨a, c, -, hpure⟩
    · obtain ⟨a, es, ha, hes, hhands⟩ := h.error hread
      exact ⟨g a, es, hp a ha, htold a ▸ hes, hhands⟩
    · cases hpure

/-- A decoder whose answer is always the same. -/
theorem answered {b : δ} (h : Recounts wrap step reader input answer told p) :
    Recounts wrap (do let _ ← step; return b) reader input (fun _ => b) told p where
  ok hok := by
    obtain ⟨ha, hhands⟩ := h.ok hok
    have hboth : Decoder.Hands (do let _ ← step; return b) input (told _ ++ []) (.ok b _) :=
      hhands.bind .pure
    rw [List.append_nil] at hboth
    exact ⟨ha, hboth⟩
  error herror := by
    obtain ⟨a, es, ha, hes, hhands⟩ := h.error herror
    exact ⟨a, es, ha, hes, hhands.bind_error⟩

/-! ## Readers and events -/

/-- A step of reading in both. -/
theorem reading [Inhabited α] (reader : EStateM ε σ α) :
    Recounts wrap (Decoder.reading wrap reader) reader input id (fun _ => []) fun _ => True where
  ok hok := ⟨trivial, .reading hok⟩
  error herror := ⟨default, [], trivial, List.nil_prefix, .reading_error herror⟩

/-- Steps of reading that fail alike. -/
theorem reading_fails {reader' : EStateM ε σ β} {fault : ε} {input' : σ} (hsome : ∃ a, p a)
    (h : reader input = .error fault input') (h' : reader' input = .error fault input') :
    Recounts wrap (Decoder.reading wrap reader') reader input answer told p where
  ok hok := by rw [h] at hok; cases hok
  error herror := by
    rw [h] at herror
    cases herror
    obtain ⟨a, ha⟩ := hsome
    exact ⟨a, [], ha, List.nil_prefix, .reading_error h'⟩

/-- A step of reading, before steps of which one recounts the other. -/
theorem reading_bind {first : EStateM ε σ γ} {next : γ → Decoder σ β} {more : γ → EStateM ε σ α}
    (hsome : ∃ a, p a) (h : ∀ x input', first input = .ok x input' →
      Recounts wrap (next x) (more x) input' answer told p) :
    Recounts wrap (Decoder.reading wrap first >>= next) (first >>= more) input answer told p where
  ok hok := by
    obtain ⟨x, c, hfirst, hmore⟩ := Steps.bind_eq_ok_iff.mp hok
    obtain ⟨ha, hhands⟩ := (h x c hfirst).ok hmore
    exact ⟨ha, .bind (.reading hfirst) hhands⟩
  error herror := by
    rcases Steps.bind_eq_error_iff.mp herror with hfirst | ⟨x, c, hfirst, hmore⟩
    · obtain ⟨a, ha⟩ := hsome
      exact ⟨a, [], ha, List.nil_prefix, .bind_error (.reading_error hfirst)⟩
    · obtain ⟨a, es, ha, hes, hhands⟩ := (h x c hfirst).error hmore
      exact ⟨a, es, ha, hes, .bind (.reading hfirst) hhands⟩

/-- An event that tells of the result. -/
theorem fold {e : Event} {a : α} (hp : p a) (htold : told a = [e]) :
    Recounts wrap (Decoder.fold e) (pure a) input (fun _ => ()) told p where
  ok h := by
    cases h
    rw [htold]
    exact ⟨hp, .fold⟩
  error h := by cases h

/-- An event, before a step that recounts. -/
theorem fold_bind {e : Event} {next : Unit → Decoder σ β}
    (h : Recounts wrap (next ()) reader input answer told p) :
    Recounts wrap (Decoder.fold e >>= next) reader input answer (fun a => e :: told a) p where
  ok hok := by
    obtain ⟨ha, hhands⟩ := h.ok hok
    exact ⟨ha, .bind .fold hhands⟩
  error herror := by
    obtain ⟨a, es, ha, hes, hhands⟩ := h.error herror
    exact ⟨a, e :: es, ha, List.cons_prefix_cons.mpr ⟨rfl, hes⟩, .bind .fold hhands⟩

/-- A step of reading, after steps of which one recounts the other. -/
theorem then_reading {step : Decoder σ Unit} {last : EStateM ε σ Unit}
    (h : Recounts wrap step reader input (fun _ => ()) told p) :
    Recounts wrap (do step; Decoder.reading wrap last) (do let a ← reader; last; return a) input
      (fun _ => ()) told p := by
  refine bind h (fun a c ha hread => ?_) (fun a ha => ⟨a, ha, List.prefix_refl _⟩) (r := (· = ·))
    (w := fun _ _ => []) ?_
  · exact map (reading last) (fun _ _ => rfl) (fun _ => rfl) fun _ => rfl
  · rintro a _ ha rfl
    exact ⟨ha, (List.append_nil _).symm⟩

/-! ## Loops -/

section Loops

variable {ρ : Type} {step : Nat → Decoder σ Bool} {reader : Nat → EStateM ε σ (Option α)}
  {room : List ρ} {I : σ → Prop}

/-- What a loop adds to results that are already there, newest first. -/
def Added (p : α → Prop) (room : Nat) (before results : List α) : Prop :=
  ∃ added : List α, results = added.reverse ++ before ∧ (∀ a ∈ added, p a) ∧ added.length ≤ room

/-- The events told of results, less those that were already there. -/
def toldAfter (told : α → List Event) (before results : List α) : List Event :=
  (results.reverse.drop before.length).flatMap told

theorem toldAfter_append (told : α → List Event) (added before : List α) :
    toldAfter told before (added.reverse ++ before) = added.flatMap told := by
  have hlen : before.length = before.reverse.length := (List.length_reverse ..).symm
  rw [toldAfter, List.reverse_append, List.reverse_reverse, hlen, List.drop_left]

theorem Added.none {room : Nat} {before : List α} : Added p room before before :=
  ⟨[], rfl, nofun, Nat.zero_le _⟩

theorem toldAfter_self (told : α → List Event) (before : List α) : toldAfter told before before = [] :=
  toldAfter_append told [] before

/-- A result, before those that a loop adds after it. -/
theorem Added.cons (told : α → List Event) {room : Nat} {before results : List α} {a : α} (ha : p a)
    (h : Added p room (a :: before) results) : Added p (room + 1) before results ∧
      toldAfter told before results = told a ++ toldAfter told (a :: before) results := by
  obtain ⟨added, rfl, hadded, hlen⟩ := h
  have hsplit : added.reverse ++ a :: before = (a :: added).reverse ++ before := by
    rw [List.reverse_cons, List.append_assoc]
    rfl
  refine ⟨⟨a :: added, hsplit, List.forall_mem_cons.mpr ⟨ha, hadded⟩, Nat.succ_le_succ hlen⟩, ?_⟩
  rw [toldAfter_append, hsplit, toldAfter_append, List.flatMap_cons]

/-- A round, before what a loop goes on to do if there is a result. -/
theorem round_bind {step : Decoder σ Bool} {reader : EStateM ε σ (Option α)} {next : Decoder σ Unit}
    {more : α → EStateM ε σ (List α)} {room : Nat} {before : List α}
    (h : Recounts wrap step reader input Option.isSome (fun a? => a?.elim [] told)
      fun a? => ∀ a ∈ a?, p a)
    (hnext : ∀ a input', reader input = .ok (some a) input' →
      Recounts wrap next (more a) input' (fun _ => ()) (toldAfter told (a :: before))
        (Added p room (a :: before))) :
    Recounts wrap (do if ← step then next) (do
        match ← reader with
        | some a => more a
        | none => return before) input (fun _ => ()) (toldAfter told before)
      (Added p (room + 1) before) := by
  refine bind h (fun a? input' ha hread => ?_)
    (r := fun a? results => a?.elim (results = before) fun a => Added p room (a :: before) results)
    (w := fun a? => a?.elim (fun _ => []) fun a => toldAfter told (a :: before))
    (fun a? ha => ?_) fun a? results ha hr => ?_
  · cases a? with
    | none => exact done rfl rfl rfl
    | some a => exact hnext a input' hread
  · cases a? with
    | none => exact ⟨before, .none, List.nil_prefix⟩
    | some a =>
      obtain ⟨hadded, htold⟩ := Added.cons told (ha a rfl) .none
      exact ⟨a :: before, hadded, htold ▸ List.prefix_append _ _⟩
  · cases a? with
    | none =>
      obtain rfl : results = before := hr
      exact ⟨.none, toldAfter_self told results⟩
    | some a => exact Added.cons told (ha a rfl) hr

theorem roundsOnto
    (hround : ∀ round input, I input → Recounts wrap (step round) (reader round) input Option.isSome
      (fun a? => a?.elim [] told) fun a? => ∀ a ∈ a?, p a)
    (hnext : ∀ round input a input', I input → reader round input = .ok (some a) input' → I input')
    (round : Nat) (before : List α) (hinput : I input) :
    Recounts wrap (Loop.rounds step round room) (Loop.gatherOnto reader round before room) input
      (fun _ => ()) (toldAfter told before) (Added p (room.length + 1) before) := by
  induction room generalizing round before input with
  | nil =>
    -- the last round for which there is room is not asked whether to go on
    have hlast : Loop.rounds step round ([] : List ρ) = (do if ← step round then pure ()) := by
      rw [Loop.rounds]
      exact bind_congr fun more => by cases more <;> rfl
    rw [hlast]
    exact round_bind (hround round input hinput) fun a input' _ =>
      done .none (toldAfter_self told _) rfl
  | cons _ room ih =>
    exact round_bind (hround round input hinput) fun a input' hread =>
      ih (round + 1) (a :: before) (hnext round input a input' hinput hread)

/-- **Loops that go on until a round says no**, each round recounting one result. -/
theorem rounds
    (hround : ∀ round input, I input → Recounts wrap (step round) (reader round) input Option.isSome
      (fun a? => a?.elim [] told) fun a? => ∀ a ∈ a?, p a)
    (hnext : ∀ round input a input', I input → reader round input = .ok (some a) input' → I input')
    (hinput : I input) :
    Recounts wrap (Loop.rounds step 0 room) (Loop.gather reader room) input (fun _ => ())
      (fun results => results.flatMap told)
      fun results => (∀ a ∈ results, p a) ∧ results.length ≤ room.length + 1 := by
  refine map (roundsOnto hround hnext 0 [] hinput) (fun results h => ?_) (fun results => ?_)
    fun _ => rfl
  · obtain ⟨added, rfl, hadded, hlen⟩ := h
    rw [List.append_nil, List.reverse_reverse]
    exact ⟨hadded, hlen⟩
  · rw [toldAfter, List.length_nil, List.drop_zero]

end Loops

end Decoder.Recounts

end TreeDigest
