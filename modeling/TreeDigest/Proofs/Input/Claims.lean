import TreeDigest.Proofs.Input.Spends

/-!
# Claims on what is left of an input

The head of a container may claim as many entries as can be counted. Before a reader begins
on them it can look whether as many octets are left as they take at least; a reader that does
not look comes to the end of the input some entries later. So looking changes which error is
given, and when, but never what is accepted.

`Concurs` compares two steps by what they give when they succeed, from states of a kind, and
`claimed` is its rule for a claim: what a step is certain to use up need not be looked for.
-/

namespace TreeDigest

/-- Goes on without looking whether `n` octets are left. -/
def Reader.trust (_ : Nat) : Reader Unit := pure ()

namespace Steps

variable {ε σ α β : Type} {before : σ → Prop}

/-- From states of a kind, two steps succeed with the same results in the same states. -/
structure Concurs (before : σ → Prop) (step step' : EStateM ε σ α) : Prop where
  ok_iff : ∀ {s a s'}, before s → (step s = .ok a s' ↔ step' s = .ok a s')

namespace Concurs

variable {step step' : EStateM ε σ α}

theorem refl (step : EStateM ε σ α) : Concurs before step step := ⟨fun _ => Iff.rfl⟩

/-- What is known of the result of the first step can be used of the second. -/
theorem given {p : Prop} (h : p → Concurs before step step') :
    Concurs (fun s => before s ∧ p) step step' where
  ok_iff hs := (h hs.2).ok_iff hs.1

theorem bind {middle : α → σ → Prop} {next next' : α → EStateM ε σ β}
    (h : Concurs before step step')
    (hmiddle : ∀ {s a s'}, before s → step s = .ok a s' → middle a s')
    (hnext : ∀ a, Concurs (middle a) (next a) (next' a)) :
    Concurs before (step >>= next) (step' >>= next') where
  ok_iff hs := by
    rw [bind_eq_ok_iff, bind_eq_ok_iff]
    constructor
    · rintro ⟨a, s₁, hstep, hok⟩
      exact ⟨a, s₁, (h.ok_iff hs).mp hstep, ((hnext a).ok_iff (hmiddle hs hstep)).mp hok⟩
    · rintro ⟨a, s₁, hstep', hok⟩
      have hstep := (h.ok_iff hs).mpr hstep'
      exact ⟨a, s₁, hstep, ((hnext a).ok_iff (hmiddle hs hstep)).mpr hok⟩

/-- The same step, before steps that concur. -/
theorem after {middle : α → σ → Prop} {next next' : α → EStateM ε σ β}
    (hmiddle : ∀ {s a s'}, before s → step s = .ok a s' → middle a s')
    (hnext : ∀ a, Concurs (middle a) (next a) (next' a)) :
    Concurs before (step >>= next) (step >>= next') := bind (.refl step) hmiddle hnext

/-- Steps that concur, before the same steps. -/
theorem first {next : α → EStateM ε σ β} (h : Concurs before step step') :
    Concurs before (step >>= next) (step' >>= next) := by
  have hnext : ∀ a, Concurs (fun _ => True) (next a) (next a) := fun a => .refl (next a)
  exact bind h (fun _ _ => trivial) hnext

theorem times {step step' : EStateM ε σ Unit} (h : Concurs before step step')
    (hkeeps : ∀ {s u s'}, before s → step s = .ok u s' → before s') (n : Nat) :
    Concurs before (Loop.times step n) (Loop.times step' n) := by
  induction n with
  | zero => exact .refl _
  | succ n ih => exact bind h hkeeps fun _ => ih

theorem rounds {ρ : Type} {step step' : Nat → EStateM ε σ Bool}
    (h : ∀ round, Concurs before (step round) (step' round))
    (hkeeps : ∀ {round s more s'}, before s → step round s = .ok more s' → before s')
    (round : Nat) (room : List ρ) :
    Concurs before (Loop.rounds step round room) (Loop.rounds step' round room) := by
  induction room generalizing round with
  | nil => exact first (h round)
  | cons _ room ih =>
    refine bind (h round) hkeeps fun more => ?_
    cases more with
    | true => exact ih (round + 1)
    | false => exact .refl _

theorem collect {step step' : EStateM ε σ α} (h : Concurs (fun _ => True) step step') (n : Nat) :
    Concurs (fun _ => True) (Loop.collect step n) (Loop.collect step' n) := by
  refine first ?_
  generalize ([] : List α) = results
  induction n generalizing results with
  | zero => exact .refl _
  | succ n ih => exact bind h (fun _ _ => trivial) fun a => ih (a :: results)

/-- **A claim that a step lives up to need not be checked.** -/
theorem claimed {claim free : EStateM ε σ Unit} {next next' : EStateM ε σ α}
    (hclaim : ∀ {s u s'}, claim s = .ok u s' → s' = s) (hfree : ∀ s, free s = .ok () s)
    (hnext : Concurs before next next')
    (hlives : ∀ {s a s'}, before s → next s = .ok a s' → claim s = .ok () s) :
    Concurs before (do claim; next) (do free; next') where
  ok_iff {s a s'} hs := by
    constructor
    · intro hok
      obtain ⟨_, s₁, hchecked, hrest⟩ := bind_eq_ok_iff.mp hok
      obtain rfl := hclaim hchecked
      rw [bind_ok (hfree s₁)]
      exact (hnext.ok_iff hs).mp hrest
    · intro hok
      rw [bind_ok (hfree s)] at hok
      have hchecked := (hnext.ok_iff hs).mpr hok
      rw [bind_ok (hlives hs hchecked)]
      exact hchecked

end Concurs

end Steps

open Steps (Concurs Spends)

/-! ## Readers and decoders -/

namespace Reader

variable {α : Type} {n : Nat} {next next' : Reader α} {before : Cursor → Prop}

theorem need_ok {u : Unit} {c c' : Cursor} (h : need n c = .ok u c') : c' = c :=
  (need_eq_ok_iff.mp h).2

/-- A claim of octets that are used up, or trusted. -/
theorem claimed (hnext : Concurs before next next') (hspends : Spends left (fun _ => n) next) :
    Concurs before (do need n; next) (do trust n; next') :=
  .claimed need_ok (fun _ => rfl) hnext fun _ hok =>
    need_eq_ok_iff.mpr ⟨hspends.le hok, rfl⟩

/-- Readers that concur read whole inputs alike. -/
theorem whole_iff {input : Bytes} {a : α} (h : Concurs (fun _ => True) next next') :
    whole next input = .ok a ↔ whole next' input = .ok a := by
  have hok : ∀ reader : Reader α, whole reader input = .ok a ↔
      ∃ c, (do let a ← reader; finished; return a : Reader α) (Cursor.start input) = .ok a c := by
    intro reader
    unfold whole
    cases (do let a ← reader; finished; return a : Reader α) (Cursor.start input) with
    | ok a' c => simp
    | error e c => simp
  rw [hok, hok]
  exact exists_congr fun c => h.first.ok_iff trivial

end Reader

namespace Decoder

variable {α : Type} {n : Nat} {next next' : Decoder Cursor α} {before : Decoding Cursor → Prop}
  {d d' : Decoding Cursor}

/-- A claim of octets that are used up, or trusted. -/
theorem claimed (hnext : Concurs before next next')
    (hspends : ∀ {d a d'}, before d → next d = .ok a d' → n ≤ left d) :
    Concurs before (do read (Reader.need n); next) (do read (Reader.trust n); next') := by
  refine .claimed (fun {d u d'} hok => ?_) (fun _ => rfl) hnext fun {d a d'} hd hok => ?_
  · obtain ⟨c, hneed, rfl⟩ := reading_eq_ok_iff.mp hok
    rw [Reader.need_ok hneed]
  · exact reading_eq_ok_iff.mpr
      ⟨d.input, Reader.need_eq_ok_iff.mpr ⟨hspends hd hok, rfl⟩, rfl⟩

/-- Decoders that concur at the start of a whole input give the same digests. -/
theorem run_iff {step step' : Decoder Cursor α} {input : Cursor} {o : FoldOptions} {a : α}
    (h : Concurs before step step') (hstart : before ⟨input, Folder.start .decode o⟩) :
    run step input o = .ok a ↔ run step' input o = .ok a := by
  have hok : ∀ {step : Decoder Cursor α}, run step input o = .ok a ↔
      ∃ d, step ⟨input, Folder.start .decode o⟩ = .ok a d := by
    intro step
    unfold run
    cases step ⟨input, Folder.start .decode o⟩ with
    | ok a' d => simp
    | error e d => simp
  rw [hok, hok]
  exact exists_congr fun d => h.ok_iff hstart

end Decoder

end TreeDigest
