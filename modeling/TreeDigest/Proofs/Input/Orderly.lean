import TreeDigest.Proofs.Fold.Readiness
import TreeDigest.Proofs.Input.Persists

/-!
# Decoders that hand events over in order

A decoder that is at fault nowhere fails for a reason of its input: a defect of the
octets, containers that nest too deep, or one with more entries than can be counted.
`Orderly` says so of a step, for states of a certain kind, and in what kind of state it
leaves a decoding that goes on. It goes through sequences and loops.

Of the octets it is asked only that reading them never fails with a wrong count. No
reader here counts anything.
-/

namespace TreeDigest

/-! ## Decoding steps -/

/--
From states of one kind, a decoding step leads to states of another, which may depend
on its result, or fails for a reason of the input.
-/
structure Decoder.Orderly {σ α : Type} (crowded : Prop) (before : Decoding σ → Prop)
    (step : Decoder σ α) (after : α → Decoding σ → Prop) : Prop where
  ok : ∀ {d a d'}, before d → step d = .ok a d' → after a d'
  error : ∀ {d e d'}, before d → step d = .error e d' → d'.folder.Stops crowded e

/-- A folder like another, at a place with a property. -/
def Decoding.At {σ : Type} (p : σ → Prop) (g : Folder) (d : Decoding σ) : Prop :=
  d.folder.Alike g ∧ p d.input

namespace Decoder.Orderly

open Folder

variable {σ ε α β ρ : Type} {crowded : Prop} {before : Decoding σ → Prop} {step : Decoder σ α}
  {after middle : α → Decoding σ → Prop} {p q : σ → Prop} {g g' : Folder}

/-! ## Sequences -/

theorem pure {a : α} (h : ∀ d, before d → after a d) :
    Orderly crowded before (pure a : Decoder σ α) after where
  ok hd hok := by cases hok; exact h _ hd
  error _ herror := by cases herror

theorem throw {e : DecodeError} (h : e.NotOfCount) :
    Orderly crowded before (throw (.decode e) : Decoder σ α) after where
  ok _ hok := by cases hok
  error _ herror := by cases herror; exact .input h

theorem bind {next : α → Decoder σ β} {last : β → Decoding σ → Prop}
    (h : Orderly crowded before step middle) (hnext : ∀ a, Orderly crowded (middle a) (next a) last) :
    Orderly crowded before (step >>= next) last where
  ok hd hok := by
    obtain ⟨a, d₁, hstep, hmore⟩ := Steps.bind_eq_ok_iff.mp hok
    exact (hnext a).ok (h.ok hd hstep) hmore
  error hd herror := by
    rcases Steps.bind_eq_error_iff.mp herror with hstep | ⟨a, d₁, hstep, hmore⟩
    · exact h.error hd hstep
    · exact (hnext a).error (h.ok hd hstep) hmore

theorem mono {before' : Decoding σ → Prop} {after' : α → Decoding σ → Prop}
    (h : Orderly crowded before step after) (hbefore : ∀ d, before' d → before d)
    (hafter : ∀ a d, after a d → after' a d) : Orderly crowded before' step after' where
  ok hd hok := hafter _ _ (h.ok (hbefore _ hd) hok)
  error hd herror := h.error (hbefore _ hd) herror

/-- What is known because there is a state of the kind at all. -/
theorem of_before (h : ∀ d, before d → Orderly crowded before step after) :
    Orderly crowded before step after where
  ok hd hok := (h _ hd).ok hd hok
  error hd herror := (h _ hd).error hd herror

/-- States of one of several kinds. -/
theorem of_exists {ι : Type} {kind : ι → Decoding σ → Prop}
    (h : ∀ i, Orderly crowded (kind i) step after) :
    Orderly crowded (fun d => ∃ i, kind i d) step after where
  ok hd hok := by
    obtain ⟨i, hi⟩ := hd
    exact (h i).ok hi hok
  error hd herror := by
    obtain ⟨i, hi⟩ := hd
    exact (h i).error hi herror

/-! ## Readers and events -/

/-- A step of reading, whose failures are errors of the input. -/
theorem reading {wrap : ε → Error} {reader : EStateM ε σ α}
    (hwrap : ∀ {c e c'}, reader c = .error e c' → ∃ e', wrap e = .decode e' ∧ e'.NotOfCount)
    (hp : ∀ {c a c'}, p c → reader c = .ok a c' → q c') :
    Orderly crowded (Decoding.At p g) (Decoder.reading wrap reader) fun _ => Decoding.At q g where
  ok {d a d'} hd hok := by
    obtain ⟨input, hread, rfl⟩ := reading_eq_ok_iff.mp hok
    exact ⟨hd.1, hp hd.2 hread⟩
  error {d e d'} hd herror := by
    obtain ⟨e, input, hread, rfl, rfl⟩ := reading_eq_error_iff.mp herror
    obtain ⟨e', hdecode, hinput⟩ := hwrap hread
    rw [hdecode]
    exact .input hinput

/-- An event that a folder takes in order. -/
theorem fold {e : Event} (h : Folding.Turns (Stops crowded) (Folding.event e) g g') :
    Orderly crowded (Decoding.At p g) (Decoder.fold e : Decoder σ Unit) fun _ => Decoding.At p g' where
  ok {d a d'} hd hok := by
    obtain ⟨f, hevent, rfl⟩ := fold_eq_ok_iff.mp hok
    exact ⟨h.ok hd.1 hevent, hd.2⟩
  error {d e d'} hd herror := by
    obtain ⟨f, hevent, rfl⟩ := fold_eq_error_iff.mp herror
    exact h.error hd.1 hevent

/-- Looking at everything that is left. -/
theorem rest {before : Decoding Cursor → Prop} :
    Orderly crowded before Decoder.rest fun _ => before where
  ok hd hok := by cases hok; exact hd
  error _ herror := by cases herror

/-! ## Loops -/

/-- A loop of a known number of rounds, in which the kind of state may depend on the round. -/
theorem times {step : Decoder σ Unit} {n : Nat} (before : Nat → Decoding σ → Prop)
    (h : ∀ round < n, Orderly crowded (before round) step fun _ => before (round + 1)) :
    Orderly crowded (before 0) (Loop.times step n) fun _ => before n := by
  have hfrom : ∀ left round, round + left = n →
      Orderly crowded (before round) (Loop.times step left) fun _ => before n := by
    intro left
    induction left with
    | zero => exact fun round hround => pure fun d hd => hround ▸ hd
    | succ left ih =>
      exact fun round hround => bind (h round (by omega)) fun _ => ih (round + 1) (by omega)
  exact hfrom n 0 (Nat.zero_add n)

/-- A loop that goes on until a round says no. -/
theorem rounds {step : Nat → Decoder σ Bool} (before : Nat → Decoding σ → Prop)
    (h : ∀ round, Orderly crowded (before round) (step round)
      fun more => before (if more then round + 1 else round))
    (round : Nat) (room : List ρ) : Orderly crowded (before round) (Loop.rounds step round room)
      fun _ d => ∃ done, before done d := by
  induction room generalizing round with
  | nil => exact bind (h round) fun more => pure fun d hd => ⟨_, hd⟩
  | cons _ room ih =>
    refine bind (h round) fun more => ?_
    cases more with
    | true => exact ih (round + 1)
    | false => exact pure fun d hd => ⟨round, hd⟩

end Decoder.Orderly

/-! ## Whole inputs -/

/-- What can come of an input: a digest, an error of the input, or too many entries to count. -/
inductive Answered (crowded : Prop) : Except Error Digest → Prop
  | digest (digest : Digest) : Answered crowded (.ok digest)
  | input {e : DecodeError} : e.NotOfCount → Answered crowded (.error (.decode e))
  | full : crowded → Answered crowded (.error (.protocol .countOverflow))

theorem Answered.mono {crowded crowded' : Prop} {answer : Except Error Digest}
    (h : Answered crowded answer) (hcrowded : crowded → crowded') : Answered crowded' answer := by
  cases h with
  | digest digest => exact .digest digest
  | input he => exact .input he
  | full hfull => exact .full (hcrowded hfull)

namespace Decoder

variable {σ α : Type} {crowded : Prop} {p q r : σ → Prop} {o : FoldOptions}

/-- A decoder stops in a container with as many entries as there are numbers for. -/
def Overflows (step : Decoder σ α) (input : σ) (o : FoldOptions) : Prop :=
  ∃ d, step ⟨input, Folder.start .decode o⟩ = .error (.protocol .countOverflow) d ∧ d.folder.Full

/-- A document has ended, and so it has a digest. -/
theorem Orderly.finish : Orderly crowded (Decoding.At p (Folder.start .decode o).counted)
    (Decoder.finish : Decoder σ Digest) fun _ => Decoding.At p (Folder.start .decode o).counted := by
  have hfinish : ∀ {d : Decoding σ}, Decoding.At p (Folder.start .decode o).counted d →
      Decoder.finish d = .ok d.folder.digest d := by
    rintro ⟨input, f⟩ ⟨halike, -⟩
    have hframes : f.frames = [] := List.map_eq_nil_iff.mp halike.outlines
    have hcomplete : f.complete = true := halike.complete
    rw [Decoder.finish, Steps.bind_ok (Steps.get_apply _), Folder.finish]
    dsimp only
    rw [hframes, hcomplete]
    rfl
  refine ⟨fun {d a d'} hd hok => ?_, fun {d e d'} hd herror => ?_⟩
  · rw [hfinish hd] at hok
    cases hok
    exact hd
  · rw [hfinish hd] at herror
    cases herror

/-- **What is handed over in order is answered with a digest, or for a reason of the input.** -/
theorem Orderly.run {step finished : Decoder σ Unit} {input : σ}
    (h : Orderly crowded (Decoding.At p (Folder.start .decode o)) step
      fun _ => Decoding.At q (Folder.start .decode o).counted)
    (hend : Orderly crowded (Decoding.At q (Folder.start .decode o).counted) finished
      fun _ => Decoding.At r (Folder.start .decode o).counted)
    (hinput : p input) : Answered (crowded ∧ Overflows (do step; finished; Decoder.finish) input o)
      (Decoder.run (do step; finished; Decoder.finish) input o) := by
  have hrun : Orderly crowded (Decoding.At p (Folder.start .decode o))
      (do step; finished; Decoder.finish)
      fun _ => Decoding.At r (Folder.start .decode o).counted :=
    h.bind fun _ => hend.bind fun _ => .finish
  rw [Decoder.run]
  cases hdecode : (do step; finished; Decoder.finish : Decoder σ Digest) ⟨input, .start .decode o⟩ with
  | ok digest d => exact .digest digest
  | error e d =>
    cases hrun.error ⟨Folder.Alike.refl _, hinput⟩ hdecode with
    | input he => exact .input he
    | full hcrowded hfull => exact .full ⟨hcrowded, d, hdecode, hfull⟩

end Decoder

/-- An input that is read as a tree which can be folded is answered so, or for a defect. -/
theorem Reader.Uncounting.answered {reader : Reader Tree} {input : Bytes} {o : FoldOptions}
    (h : reader.Uncounting)
    (hfits : ∀ {c t c'}, reader c = .ok t c' → t.depth ≤ o.depthLimit ∧ t.Countable) :
    Answered False (do foldTree (← reader.whole input) o) := by
  have hwhole : Reader.Uncounting (do let t ← reader; Reader.finished; return t) :=
    h.bind fun t => .bind .finished fun _ => .pure t
  cases hread : reader.whole input with
  | ok t =>
    obtain ⟨c, hok, -⟩ := Reader.whole_ok hread
    obtain ⟨hdepth, hcount⟩ := hfits hok
    rw [show (do foldTree (← Except.ok t) o) = foldTree t o from rfl, foldTree,
      foldTreeOn_eq hdepth hcount]
    exact .digest _
  | error e =>
    rw [Reader.whole] at hread
    split at hread
    · cases hread
    · rename_i hfault
      cases hread
      exact .input (hwhole.error hfault)

/-- **A tree folds to a digest, or nests too deep, or has too many entries to count.** -/
theorem foldTreeOn_answered (t : Tree) (o : FoldOptions) :
    Answered (¬ t.Countable) (foldTreeOn .decode t o) := by
  by_cases ht : t.Countable
  · rw [foldTreeOn_eq_ite ht]
    split
    · exact .digest _
    · exact .input nofun
  · rw [foldTreeOn]
    cases hwalk : Folding.tree t (.start .decode o) with
    | ok _ f => exact absurd (Folding.tree_countable hwalk) ht
    | error e f =>
      have hstops : Folding.StopsWalk f e :=
        (Folding.tree_turns t (Folder.ready_start o)).error (Folder.Alike.refl _) hwalk
      rcases hstops with hstops | rfl
      · cases hstops with
        | input he => exact .input he
        | full _ _ => exact .full ht
      · exact .full ht

end TreeDigest
