import TreeDigest.Proofs.Input.Recording
import TreeDigest.Proofs.Input.Spends

/-!
# Recording a decoder

A recorder that does what a decoder does, and notes that keep to certain terms: that is a
triple with a rule for each way in which decoders are put together. A reader brings a credit
of as many octets as it takes at least, and an event that is no end of a container costs one.
-/

namespace TreeDigest

/--
A recorder does what a decoder does. From notes of one kind it goes to notes of another, and if
it fails it has kept within the terms.
-/
structure Recorder.Tells {α : Type} (terms : Terms) (before : Recording → Prop)
    (step : Recorder α) (model : Decoder Cursor α) (after : α → Recording → Prop) : Prop where
  ok : ∀ {r a d}, before r → model r.toDecoding = .ok a d →
    ∃ r', step r = .ok a r' ∧ r'.toDecoding = d ∧ after a r'
  error : ∀ {r e d}, before r → model r.toDecoding = .error e d →
    ∃ r', step r = .error e r' ∧ r'.toDecoding = d ∧ r'.Within terms

namespace Recorder.Tells

open Recording (Keeps)

variable {α β ρ : Type} {terms : Terms} {before before' : Recording → Prop} {step : Recorder α}
  {model : Decoder Cursor α} {middle : α → Recording → Prop} {after after' : β → Recording → Prop}
  {depth nesting credit more : Nat}

theorem pure {after : α → Recording → Prop} (a : α) (h : ∀ {r}, before r → after a r) :
    Tells terms before (pure a) (pure a) after where
  ok hr hok := by cases hok; exact ⟨_, rfl, rfl, h hr⟩
  error _ herror := by cases herror

theorem throw {after : α → Recording → Prop} (e : Error) (h : ∀ {r}, before r → r.Within terms) :
    Tells terms before (throw e) (throw e) after where
  ok _ hok := by cases hok
  error hr herror := by cases herror; exact ⟨_, rfl, rfl, h hr⟩

theorem bind {next : α → Recorder β} {next' : α → Decoder Cursor β}
    (h : Tells terms before step model middle)
    (hnext : ∀ a, Tells terms (middle a) (next a) (next' a) after) :
    Tells terms before (step >>= next) (model >>= next') after where
  ok hr hok := by
    obtain ⟨a, d₁, hmodel, hok⟩ := Steps.bind_eq_ok_iff.mp hok
    obtain ⟨r₁, hstep, rfl, hr₁⟩ := h.ok hr hmodel
    obtain ⟨r', hrest, hd, hr'⟩ := (hnext a).ok hr₁ hok
    exact ⟨r', (Steps.bind_ok hstep).trans hrest, hd, hr'⟩
  error hr herror := by
    rcases Steps.bind_eq_error_iff.mp herror with herror | ⟨a, d₁, hmodel, herror⟩
    · obtain ⟨r', hstep, hd, hwithin⟩ := h.error hr herror
      exact ⟨r', Steps.bind_error hstep, hd, hwithin⟩
    · obtain ⟨r₁, hstep, rfl, hr₁⟩ := h.ok hr hmodel
      obtain ⟨r', hrest, hd, hwithin⟩ := (hnext a).error hr₁ herror
      exact ⟨r', (Steps.bind_ok hstep).trans hrest, hd, hwithin⟩

theorem mono {step : Recorder β} {model : Decoder Cursor β}
    (h : Tells terms before step model after)
    (hbefore : ∀ {r}, before' r → before r) (hafter : ∀ {b r}, after b r → after' b r) :
    Tells terms before' step model after' where
  ok hr hok := by
    obtain ⟨r', hstep, hd, hr'⟩ := h.ok (hbefore hr) hok
    exact ⟨r', hstep, hd, hafter hr'⟩
  error hr herror := h.error (hbefore hr) herror

/-- Nothing has to be said of what is never reached. -/
theorem absurd {after : α → Recording → Prop} (h : ∀ {r}, ¬ before r) :
    Tells terms before step model after where
  ok hr _ := (h hr).elim
  error hr _ := (h hr).elim

/-- What is known once the decoder has succeeded. -/
theorem learn {p : β → Prop} {step : Recorder β} {model : Decoder Cursor β}
    (h : Tells terms before step model after)
    (hp : ∀ {r b d}, before r → model r.toDecoding = .ok b d → p b) :
    Tells terms before step model fun b r => after b r ∧ p b where
  ok hr hok := by
    obtain ⟨r', hstep, hd, hr'⟩ := h.ok hr hok
    exact ⟨r', hstep, hd, hr', hp hr hok⟩
  error hr herror := h.error hr herror

/-- What is known can be used. -/
theorem given {p : Prop} {step : Recorder β} {model : Decoder Cursor β}
    (h : p → Tells terms before step model after) :
    Tells terms (fun r => before r ∧ p) step model after where
  ok hr hok := (h hr.2).ok hr.1 hok
  error hr herror := (h hr.2).error hr.1 herror

/-! ## Single steps -/

/-- What is read is a credit. How much it is can depend on the place where reading begins. -/
theorem read_at {reader : Reader α} {P : Cursor → Prop} {least : α → Nat}
    (hspends : ∀ {c a c'}, P c → reader c = .ok a c' → Reader.left c' + least a ≤ Reader.left c) :
    Tells terms (fun r => r.Keeps terms depth nesting credit ∧ P r.input) (Recorder.read reader)
      (Decoder.read reader)
      fun a r => r.Keeps terms depth nesting (credit + least a) ∧
        ∃ c, reader c = .ok a r.input where
  ok {r a d} hr hok := by
    obtain ⟨hkeeps, hplace⟩ := hr
    obtain ⟨c, hread, rfl⟩ := Decoder.reading_eq_ok_iff.mp hok
    refine ⟨_, ?_, rfl, hkeeps.read (hspends hplace hread), _, hread⟩
    rw [Recorder.read, Recorder.of, hok]
  error {r e d} hr herror := by
    obtain ⟨hkeeps, -⟩ := hr
    obtain ⟨x, c, hread, rfl, rfl⟩ := Decoder.reading_eq_error_iff.mp herror
    refine ⟨r.at { r.toDecoding with input := c }, ?_, rfl, { hkeeps.within with
      opened_le := Nat.max_le.mpr ⟨hkeeps.opened_le, hkeeps.stands.depth_eq ▸ hkeeps.depth_le⟩ }⟩
    rw [Recorder.read, Recorder.of, herror]

theorem read {reader : Reader α} {least : α → Nat}
    (hspends : Steps.Spends Reader.left least reader) :
    Tells terms (Keeps terms depth nesting credit) (Recorder.read reader) (Decoder.read reader)
      fun a r => r.Keeps terms depth nesting (credit + least a) ∧
        ∃ c, reader c = .ok a r.input :=
  (read_at (P := fun _ => True) fun _ => hspends.spent).mono (fun hr => ⟨hr, trivial⟩) id

/-- The next step knows what was read, and where. -/
theorem read_bind_at {reader : Reader α} {next : α → Recorder β} {next' : α → Decoder Cursor β}
    {least : α → Nat} (hspends : Steps.Spends Reader.left least reader)
    (hnext : ∀ {a c c'}, reader c = .ok a c' → Tells terms
      (fun r => r.Keeps terms depth nesting (credit + least a) ∧ r.input = c') (next a) (next' a)
      after) :
    Tells terms (Keeps terms depth nesting credit) (Recorder.read reader >>= next)
      (Decoder.read reader >>= next') after := by
  refine bind (read hspends) fun a => ⟨?_, ?_⟩
  · rintro r b d ⟨hr, c, hread⟩ hok
    exact (hnext hread).ok ⟨hr, rfl⟩ hok
  · rintro r e d ⟨hr, c, hread⟩ herror
    exact (hnext hread).error ⟨hr, rfl⟩ herror

/-- The next step knows what was read. -/
theorem read_bind {reader : Reader α} {next : α → Recorder β} {next' : α → Decoder Cursor β}
    {least : α → Nat} (hspends : Steps.Spends Reader.left least reader)
    (hnext : ∀ {a c c'}, reader c = .ok a c' → Tells terms
      (Keeps terms depth nesting (credit + least a)) (next a) (next' a) after) :
    Tells terms (Keeps terms depth nesting credit) (Recorder.read reader >>= next)
      (Decoder.read reader >>= next') after :=
  read_bind_at hspends fun hread => (hnext hread).mono And.left id

/-- An event is paid for, and moves the folder from one depth to another. -/
theorem fold {e : Event} {depth' : Nat} (hhands : terms.Hands e)
    (hstands : ∀ {f u f'}, f.Stands terms.limit depth → Folding.event e f = .ok u f' →
      depth' ≤ terms.limit ∧ f'.Stands terms.limit depth') :
    Tells terms (Keeps terms depth nesting (credit + if e.closes then 0 else 1)) (Recorder.fold e)
      (Decoder.fold e) fun _ => Keeps terms depth' nesting credit where
  ok {r u d} hr hok := by
    obtain ⟨f, hevent, rfl⟩ := Decoder.fold_eq_ok_iff.mp hok
    refine ⟨_, ?_, rfl, hr.fold hevent hhands (hstands hr.stands hevent)⟩
    rw [Recorder.fold, Steps.bind_ok (Steps.modify_apply _ _), Recorder.of]
    dsimp only
    rw [hok]
  error {r e d} hr herror := by
    obtain ⟨f, hevent, rfl⟩ := Decoder.fold_eq_error_iff.mp herror
    refine ⟨_, ?_, rfl, hr.refused hevent⟩
    rw [Recorder.fold, Steps.bind_ok (Steps.modify_apply _ _), Recorder.of]
    dsimp only
    rw [herror]

/-- A scalar is paid for. -/
theorem scalar {e : Event} {p : Primitive} (hscalar : Folding.event e = Folding.scalar p)
    (hcloses : e.closes = false) (hhands : terms.Hands e) (hdepth : depth ≤ terms.limit) :
    Tells terms (Keeps terms depth nesting (credit + 1)) (Recorder.fold e) (Decoder.fold e)
      fun _ => Keeps terms depth nesting credit := by
  have h : Tells terms (Keeps terms depth nesting (credit + if e.closes then 0 else 1))
      (Recorder.fold e) (Decoder.fold e) fun _ => Keeps terms depth nesting credit :=
    fold hhands fun hf hok => ⟨hdepth, (Folding.scalar_ends hf (hscalar ▸ hok)).toStands⟩
  rwa [hcloses] at h

theorem key {octets : Bytes} (hhands : terms.Hands (.key octets)) (hdepth : depth ≤ terms.limit) :
    Tells terms (Keeps terms depth nesting (credit + 1)) (Recorder.fold (.key octets))
      (Decoder.fold (.key octets)) fun _ => Keeps terms depth nesting credit :=
  fold hhands fun hf hok => ⟨hdepth, Folding.key_stands hf hok⟩

theorem beginList {count : Option UInt32} (hhands : terms.Hands (.beginList count)) :
    Tells terms (Keeps terms depth nesting (credit + 1)) (Recorder.fold (.beginList count))
      (Decoder.fold (.beginList count)) fun _ => Keeps terms (depth + 1) nesting credit :=
  fold hhands Folding.beginList_stands

theorem beginMap {count : Option UInt32} (hhands : terms.Hands (.beginMap count)) :
    Tells terms (Keeps terms depth nesting (credit + 1)) (Recorder.fold (.beginMap count))
      (Decoder.fold (.beginMap count)) fun _ => Keeps terms (depth + 1) nesting credit :=
  fold hhands Folding.beginMap_stands

theorem endList (hhands : terms.Hands .endList) (hdepth : depth ≤ terms.limit) :
    Tells terms (Keeps terms (depth + 1) nesting credit) (Recorder.fold .endList)
      (Decoder.fold .endList) fun _ => Keeps terms depth nesting credit :=
  fold hhands fun hf hok => ⟨hdepth, (Folding.endList_ends hf hok).toStands⟩

theorem endMap (hhands : terms.Hands .endMap) (hdepth : depth ≤ terms.limit) :
    Tells terms (Keeps terms (depth + 1) nesting credit) (Recorder.fold .endMap)
      (Decoder.fold .endMap) fun _ => Keeps terms depth nesting credit :=
  fold hhands fun hf hok => ⟨hdepth, (Folding.endMap_ends hf hok).toStands⟩

/-- What a container has declared may have been declared. -/
theorem declare_bind {shared : Option UInt8} {count : Option UInt32} {next : Recorder β}
    {model : Decoder Cursor β} (hdeclares : ∀ b ∈ shared, terms.Declares (b, count))
    (hnext : Tells terms (Keeps terms depth nesting credit) next model after) :
    Tells terms (Keeps terms depth nesting credit) (do Recorder.declare shared count; next) model
      after := by
  have hkeeps : ∀ {r : Recording}, r.Keeps terms depth nesting credit →
      ({ r with declared := shared.toList.map (·, count) ++ r.declared } : Recording).Keeps terms
        depth nesting credit := by
    intro r hr
    refine { hr with declares := fun b hb => ?_ }
    rcases List.mem_append.mp hb with hb | hb
    · obtain ⟨b', hb', rfl⟩ := List.mem_map.mp hb
      exact hdeclares b' (Option.mem_toList.mp hb')
    · exact hr.declares b hb
  refine ⟨fun hr hok => ?_, fun hr herror => ?_⟩
  · exact hnext.ok (hkeeps hr) hok
  · exact hnext.error (hkeeps hr) herror

/-- An element is read in an element for each container that is open. -/
theorem element {step : Recorder Unit} {model : Decoder Cursor Unit} (hdepth : depth ≤ terms.limit)
    (h : Tells terms (Keeps terms depth (depth + 1) credit) step model
      fun _ => Keeps terms depth (depth + 1) more) :
    Tells terms (Keeps terms depth depth credit) (Recorder.element step) model
      fun _ => Keeps terms depth depth more := by
  have hbegun : ∀ {r : Recording}, r.Keeps terms depth depth credit →
      ({ r with nesting := r.nesting + 1, nested := max r.nested (r.nesting + 1) } :
        Recording).Keeps terms depth (depth + 1) credit := by
    intro r hr
    have hnesting := hr.nesting_eq
    exact { hr with
      nesting_eq := congrArg Nat.succ hnesting
      nested_le := Nat.max_le.mpr ⟨hr.nested_le, by omega⟩ }
  refine ⟨fun {r u d} hr hok => ?_, fun {r e d} hr herror => ?_⟩
  · obtain ⟨r', hstep, hd, hr'⟩ := h.ok (hbegun hr) hok
    refine ⟨{ r' with nesting := r'.nesting - 1 }, ?_, hd,
      { hr' with nesting_eq := congrArg Nat.pred hr'.nesting_eq }⟩
    rw [Recorder.element, Steps.bind_ok (Steps.modify_apply _ _), Steps.bind_ok hstep]
    rfl
  · obtain ⟨r', hstep, hd, hwithin⟩ := h.error (hbegun hr) herror
    refine ⟨r', ?_, hd, hwithin⟩
    rw [Recorder.element, Steps.bind_ok (Steps.modify_apply _ _), Steps.bind_error hstep]

/-! ## Loops -/

theorem times {step : Recorder Unit} {model : Decoder Cursor Unit}
    (h : Tells terms before step model fun _ => before) (n : Nat) :
    Tells terms before (Loop.times step n) (Loop.times model n) fun _ => before := by
  induction n with
  | zero => exact pure () id
  | succ n ih => exact bind h fun _ => ih

section Rounds

variable {step : Nat → Recorder Bool} {model : Nat → Decoder Cursor Bool}
  {after : Recording → Prop}

/-- A round that goes on leaves less than there was room for. -/
theorem round {round : Nat} (size : Nat)
    (h : Tells terms before (step round) (model round) fun more => if more then before else after)
    (hshort : ∀ {d d'}, model round d = .ok true d' → d'.input.rest.length < d.input.rest.length) :
    Tells terms (fun r => before r ∧ r.input.rest.length ≤ size) (step round) (model round)
      fun more r => if more then before r ∧ r.input.rest.length < size else after r where
  ok {r more d} hr hok := by
    obtain ⟨r', hstep, rfl, hr'⟩ := h.ok hr.1 hok
    refine ⟨r', hstep, rfl, ?_⟩
    cases more with
    | true => exact ⟨hr', Nat.lt_of_lt_of_le (hshort hok) hr.2⟩
    | false => exact hr'
  error hr herror := h.error hr.1 herror

/-- Rounds that go on only where there is something left are never cut short by the room there is,
and so there may be more of it. -/
theorem rounds_in
    (h : ∀ round, Tells terms before (step round) (model round) fun more =>
      if more then before else after)
    (hshort : ∀ {round d d'}, model round d = .ok true d' →
      d'.input.rest.length < d.input.rest.length)
    (round : Nat) (room slack : List ρ) :
    Tells terms (fun r => before r ∧ r.input.rest.length ≤ room.length)
      (Loop.rounds step round (room ++ slack)) (Loop.rounds model round room) fun _ => after := by
  induction room generalizing round with
  | nil =>
    have hround := Tells.round 0 (h round) hshort
    cases slack with
    | nil =>
      refine bind hround fun more => ?_
      cases more with
      | true => exact absurd fun hr => Nat.not_lt_zero _ hr.2
      | false => exact pure () id
    | cons _ slack =>
      refine bind hround fun more => ?_
      cases more with
      | true => exact absurd fun hr => Nat.not_lt_zero _ hr.2
      | false => exact pure () id
  | cons _ room ih =>
    refine bind (Tells.round (room.length + 1) (h round) hshort) fun more => ?_
    cases more with
    | true => exact (ih (round + 1)).mono (fun hr => ⟨hr.1, Nat.le_of_lt_succ hr.2⟩) id
    | false => exact pure () id

/-- As many rounds as there are octets left, or more. -/
theorem rounds
    (h : ∀ round, Tells terms before (step round) (model round) fun more =>
      if more then before else after)
    (hshort : ∀ {round d d'}, model round d = .ok true d' →
      d'.input.rest.length < d.input.rest.length)
    (slack : Nat) :
    Tells terms before (do Loop.rounds step 0 (← Recorder.room slack))
      (do Loop.rounds model 0 (← Decoder.rest)) fun _ => after where
  ok {r _ _} hr hok := (rounds_in h hshort 0 r.input.rest _).ok ⟨hr, Nat.le_refl _⟩ hok
  error {r _ _} hr herror :=
    (rounds_in h hshort 0 r.input.rest _).error ⟨hr, Nat.le_refl _⟩ herror

/-- The same, before another step. -/
theorem rounds_bind {next : Recorder β} {next' : Decoder Cursor β} {ended : β → Recording → Prop}
    (h : ∀ round, Tells terms before (step round) (model round) fun more =>
      if more then before else after)
    (hshort : ∀ {round d d'}, model round d = .ok true d' →
      d'.input.rest.length < d.input.rest.length)
    (slack : Nat) (hnext : Tells terms after next next' ended) :
    Tells terms before (do Loop.rounds step 0 (← Recorder.room slack); next)
      (do Loop.rounds model 0 (← Decoder.rest); next') ended := by
  have hloop := bind (rounds h hshort slack) fun _ => hnext
  rwa [bind_assoc, bind_assoc] at hloop

end Rounds

end Recorder.Tells

/-! ## Whole inputs -/

/-- What a whole input is held to: it affords one event more than it has octets. -/
def Terms.ofInput (Hands : Event → Prop) (Declares : UInt8 × Option UInt32 → Prop) (input : Bytes)
    (o : FoldOptions) : Terms where
  start := Folder.start .decode o
  budget := input.length + 1
  Hands := Hands
  Declares := Declares

theorem Decoder.finish_ok {d : Decoding Cursor} {digest : Digest} (h : d.folder.finish = .ok digest) :
    Decoder.finish d = .ok digest d := by
  rw [Decoder.finish, Steps.bind_ok (Steps.get_apply d), h]
  rfl

theorem Decoder.finish_error {d : Decoding Cursor} {e : Error} (h : d.folder.finish = .error e) :
    Decoder.finish d = .error e d := by
  rw [Decoder.finish, Steps.bind_ok (Steps.get_apply d), h]
  rfl

namespace Recorder

open Recording (Keeps)

variable {terms : Terms} {credit more : Nat}

/-- The digest is that of the folder. -/
theorem finish_tells : Tells terms (Keeps terms 0 0 credit) (of Decoder.finish) Decoder.finish
    fun digest r => r.Keeps terms 0 0 credit ∧ r.folder.finish = .ok digest := by
  have hat : ∀ {r : Recording}, r.Keeps terms 0 0 credit →
      (r.at r.toDecoding).Keeps terms 0 0 credit := by
    intro r hr
    have hnothing : r.input.rest.length + 0 ≤ r.input.rest.length := Nat.le_refl _
    exact hr.read hnothing
  refine ⟨fun {r digest d} hr hok => ?_, fun {r e d} hr herror => ?_⟩
  · cases hdigest : r.folder.finish with
    | error e => rw [Decoder.finish_error hdigest] at hok; cases hok
    | ok digest' =>
      rw [Decoder.finish_ok hdigest] at hok
      cases hok
      refine ⟨r.at r.toDecoding, ?_, rfl, hat hr, hdigest⟩
      rw [of, Decoder.finish_ok hdigest]
  · cases hdigest : r.folder.finish with
    | ok digest => rw [Decoder.finish_ok hdigest] at herror; cases herror
    | error e' =>
      rw [Decoder.finish_error hdigest] at herror
      cases herror
      refine ⟨r.at r.toDecoding, ?_, rfl, (hat hr).within⟩
      rw [of, Decoder.finish_error hdigest]

/-- What a run of a recorder over a whole input is, beside a decoder of one element. -/
structure Records (terms : Terms) (result : EStateM.Result Error Recording Digest)
    (model : Decoder Cursor Unit) (input : Bytes) : Prop where
  /-- Without the notes it is the run of the decoder, whatever the answer. -/
  erase_eq : erase result = Decoder.whole model ⟨Cursor.start input, terms.start⟩
  /-- It has kept within the terms, whatever the answer. -/
  within : (notes result).Within terms
  /-- With a digest it has kept the terms to the end. -/
  keeps : ∀ {digest r}, result = .ok digest r →
    r.Keeps terms 0 0 0 ∧ r.folder.finish = .ok digest

variable {Hands : Event → Prop} {Declares : UInt8 × Option UInt32 → Prop} {step : Recorder Unit}
  {model : Decoder Cursor Unit} {input : Bytes} {o : FoldOptions}

/-- At the start of an input there are no notes. -/
theorem start_keeps : ({ input := Cursor.start input, folder := .start .decode o } :
    Recording).Keeps (.ofInput Hands Declares input o) 0 0 1 where
  stands := Folder.stands_start o
  depth_le := Nat.zero_le _
  nesting_eq := rfl
  opened_le := Nat.zero_le _
  nested_le := Nat.zero_le _
  paid := by
    show 0 + input.length + 1 ≤ input.length + 1
    omega
  folds := rfl
  hands := nofun
  declares := nofun

/-- **A recorder of one element records the decoding of a whole input.** -/
theorem run_records
    (h : Tells (.ofInput Hands Declares input o) (Keeps (.ofInput Hands Declares input o) 0 0 1)
      step model fun _ => Keeps (.ofInput Hands Declares input o) 0 0 credit) :
    Records (.ofInput Hands Declares input o) (run step input o) model input := by
  have hwhole := h.bind fun _ => .read_bind Reader.spends_finished fun _ => finish_tells
  cases hmodel : Decoder.whole model ⟨Cursor.start input, Folder.start .decode o⟩ with
  | ok digest d =>
    obtain ⟨r, hrun, rfl, hkeeps, hdigest⟩ := hwhole.ok start_keeps hmodel
    have hrun : run step input o = .ok digest r := hrun
    rw [hrun]
    refine ⟨hmodel.symm, hkeeps.within, ?_⟩
    rintro _ _ ⟨⟩
    exact ⟨hkeeps.less (Nat.zero_le _), hdigest⟩
  | error e d =>
    obtain ⟨r, hrun, rfl, hwithin⟩ := hwhole.error start_keeps hmodel
    have hrun : run step input o = .error e r := hrun
    rw [hrun]
    exact ⟨hmodel.symm, hwithin, nofun⟩

/-- Where the decoder has a digest, there are notes that go with it. -/
theorem Records.exists_ok {terms : Terms} {result : EStateM.Result Error Recording Digest}
    {digest : Digest} (h : Records terms result model input) (hstart : terms.start = .start .decode o)
    (hok : Decoder.run (Decoder.whole model) (Cursor.start input) o = .ok digest) :
    ∃ r, result = .ok digest r := by
  have herase := h.erase_eq
  rw [hstart] at herase
  rw [Decoder.run, ← herase] at hok
  cases result with
  | ok digest' r =>
    cases hok
    exact ⟨r, rfl⟩
  | error e r => cases hok

end Recorder

end TreeDigest
