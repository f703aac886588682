import TreeDigest.Loop

/-!
# Steps that succeed and steps that fail

Every reader, writer and fold here is a step: it takes a state and leaves a
result and a state. This module says how steps in sequence behave, and how the
loops of `TreeDigest.Loop` behave in terms of what one round does.

`bind_ok` and `bind_error` run a sequence forwards once its first step is known.
`bind_eq_ok_iff` takes a successful sequence apart again, `bind_eq_error_iff` one that
fails.
-/

namespace TreeDigest.Steps

variable {ε σ α β : Type}

@[simp] theorem pure_apply (a : α) (s : σ) : (pure a : EStateM ε σ α) s = .ok a s := rfl

@[simp] theorem throw_apply (e : ε) (s : σ) : (throw e : EStateM ε σ α) s = .error e s := rfl

@[simp] theorem get_apply (s : σ) : (get : EStateM ε σ σ) s = .ok s s := rfl

@[simp] theorem set_apply (s s' : σ) : (set s' : EStateM ε σ PUnit) s = .ok () s' := rfl

@[simp] theorem modify_apply (f : σ → σ) (s : σ) :
    (modify f : EStateM ε σ PUnit) s = .ok () (f s) := rfl

@[simp] theorem bind_apply (x : EStateM ε σ α) (f : α → EStateM ε σ β) (s : σ) :
    (x >>= f) s = match x s with
      | .ok a s' => f a s'
      | .error e s' => .error e s' := rfl

theorem bind_ok {x : EStateM ε σ α} {f : α → EStateM ε σ β} {s s' : σ} {a : α}
    (h : x s = .ok a s') : (x >>= f) s = f a s' := by
  rw [bind_apply, h]

theorem bind_error {x : EStateM ε σ α} {f : α → EStateM ε σ β} {s s' : σ} {e : ε}
    (h : x s = .error e s') : (x >>= f) s = .error e s' := by
  rw [bind_apply, h]

theorem bind_eq_ok_iff {x : EStateM ε σ α} {f : α → EStateM ε σ β} {s s'' : σ} {b : β} :
    (x >>= f) s = .ok b s'' ↔ ∃ a s', x s = .ok a s' ∧ f a s' = .ok b s'' := by
  constructor
  · intro h
    cases hx : x s with
    | ok a s' => exact ⟨a, s', rfl, by rwa [bind_ok hx] at h⟩
    | error e s' => rw [bind_error hx] at h; exact absurd h (by simp)
  · rintro ⟨a, s', hx, hf⟩
    rw [bind_ok hx, hf]

theorem bind_eq_error_iff {x : EStateM ε σ α} {f : α → EStateM ε σ β} {s s'' : σ} {e : ε} :
    (x >>= f) s = .error e s'' ↔
      x s = .error e s'' ∨ ∃ a s', x s = .ok a s' ∧ f a s' = .error e s'' := by
  constructor
  · intro h
    cases hx : x s with
    | ok a s' => exact .inr ⟨a, s', rfl, by rwa [bind_ok hx] at h⟩
    | error e' s' => rw [bind_error hx] at h; cases h; exact .inl rfl
  · rintro (hx | ⟨a, s', hx, hf⟩)
    · exact bind_error hx
    · rw [bind_ok hx, hf]

/-- A sequence whose first step fails with an error fails with it. -/
theorem bind_fails {x : EStateM ε σ α} {f : α → EStateM ε σ β} {s : σ} {e : ε}
    (h : ∃ s', x s = .error e s') : ∃ s', (x >>= f) s = .error e s' := by
  obtain ⟨s', h⟩ := h
  exact ⟨s', bind_error h⟩

/-! ## Loops

A loop that collects goes through its results one by one, and `Collects` and
`Gathers` are that run. What holds of every round is shown by induction on it, and
so is what a loop does on an input that is known.
-/

/-- The rounds of a step, each giving the next of certain results. -/
inductive Collects (step : EStateM ε σ α) : σ → List α → σ → Prop
  | nil {s : σ} : Collects step s [] s
  | cons {s s₁ s' : σ} {x : α} {xs : List α} : step s = .ok x s₁ → Collects step s₁ xs s' →
      Collects step s (x :: xs) s'

/-- The rounds of a step, each giving the next of certain results, and a last one giving none. -/
inductive Gathers (step : Nat → EStateM ε σ (Option α)) : Nat → σ → List α → σ → Prop
  | nil {round : Nat} {s s' : σ} : step round s = .ok none s' → Gathers step round s [] s'
  | cons {round : Nat} {s s₁ s' : σ} {x : α} {xs : List α} : step round s = .ok (some x) s₁ →
      Gathers step (round + 1) s₁ xs s' → Gathers step round s (x :: xs) s'

variable {s s' : σ} {xs : List α}

theorem collectOnto_eq_ok_iff {step : EStateM ε σ α} {n : Nat} {done : List α} :
    Loop.collectOnto step done n s = .ok xs s' ↔
      ∃ results, xs = results.reverse ++ done ∧ results.length = n ∧ Collects step s results s' := by
  induction n generalizing s done with
  | zero =>
    constructor
    · rintro ⟨⟩
      exact ⟨[], rfl, rfl, .nil⟩
    · rintro ⟨results, rfl, hlen, h⟩
      cases List.eq_nil_of_length_eq_zero hlen
      cases h
      rfl
  | succ n ih =>
    rw [Loop.collectOnto, bind_eq_ok_iff]
    constructor
    · rintro ⟨x, s₁, hstep, h⟩
      obtain ⟨results, rfl, rfl, hruns⟩ := ih.mp h
      exact ⟨x :: results, by rw [List.reverse_cons, List.append_assoc]; rfl, rfl, .cons hstep hruns⟩
    · rintro ⟨results, rfl, hlen, h⟩
      cases h with
      | nil => cases hlen
      | @cons _ s₁ _ x results hstep hruns =>
        refine ⟨x, s₁, hstep, ih.mpr ⟨results, ?_, Nat.succ.inj hlen, hruns⟩⟩
        rw [List.reverse_cons, List.append_assoc]
        rfl

theorem collect_eq_ok_iff {step : EStateM ε σ α} {n : Nat} :
    Loop.collect step n s = .ok xs s' ↔ xs.length = n ∧ Collects step s xs s' := by
  rw [Loop.collect, bind_eq_ok_iff]
  constructor
  · rintro ⟨results, s₁, h, hpure⟩
    cases hpure
    obtain ⟨results, rfl, hlen, hruns⟩ := collectOnto_eq_ok_iff.mp h
    rw [List.append_nil, List.reverse_reverse]
    exact ⟨hlen, hruns⟩
  · rintro ⟨hlen, hruns⟩
    refine ⟨xs.reverse, s', collectOnto_eq_ok_iff.mpr ⟨xs, ?_, hlen, hruns⟩, ?_⟩
    · rw [List.append_nil]
    · rw [List.reverse_reverse]
      rfl

/-- What every round gives holds of every result. -/
theorem Collects.forall {step : EStateM ε σ α} {p : α → Prop} (h : Collects step s xs s')
    (hp : ∀ {s x s'}, step s = .ok x s' → p x) : ∀ x ∈ xs, p x := by
  induction h with
  | nil => simp
  | cons hstep _ ih => exact List.forall_mem_cons.mpr ⟨hp hstep, ih⟩

theorem Gathers.gatherOnto {ρ : Type} {step : Nat → EStateM ε σ (Option α)} {round : Nat}
    (h : Gathers step round s xs s') {done : List α} {room : List ρ} (hroom : xs.length ≤ room.length) :
    Loop.gatherOnto step round done room s = .ok (xs.reverse ++ done) s' := by
  induction h generalizing done room with
  | nil hstep =>
    -- a loop does one round more than it has room for, so the last one is always done
    cases room with
    | nil => rw [Loop.gatherOnto, bind_ok hstep]; rfl
    | cons _ room => rw [Loop.gatherOnto, bind_ok hstep]; rfl
  | @cons round s s₁ s' x xs hstep _ ih =>
    cases room with
    | nil => cases hroom
    | cons _ room =>
      rw [Loop.gatherOnto, bind_ok hstep, List.reverse_cons, List.append_assoc]
      exact ih (Nat.le_of_succ_le_succ hroom)

/-- A loop with room for its rounds gives their results. -/
theorem Gathers.gather {ρ : Type} {step : Nat → EStateM ε σ (Option α)} (h : Gathers step 0 s xs s')
    {room : List ρ} (hroom : xs.length ≤ room.length) : Loop.gather step room s = .ok xs s' := by
  rw [Loop.gather, bind_ok (h.gatherOnto hroom), List.append_nil, List.reverse_reverse]
  rfl

/-- A loop that is given room for as long as its rounds can go on is not cut short. -/
theorem gathers_of_gather {ρ : Type} {step : Nat → EStateM ε σ (Option α)} {room : List ρ}
    (size : σ → Nat) (hsize : ∀ {round s x s'}, step round s = .ok (some x) s' → size s' < size s)
    (hroom : size s ≤ room.length) (h : Loop.gather step room s = .ok xs s') :
    Gathers step 0 s xs s' := by
  have honto : ∀ (room : List ρ) (round : Nat) (done : List α) (s : σ) (xs : List α),
      size s ≤ room.length → Loop.gatherOnto step round done room s = .ok xs s' →
        ∃ results, xs = results.reverse ++ done ∧ Gathers step round s results s' := by
    intro room
    induction room with
    | nil =>
      intro round done s xs hroom h
      obtain ⟨result, s₁, hstep, hrest⟩ := bind_eq_ok_iff.mp h
      cases result with
      | none => cases hrest; exact ⟨[], rfl, .nil hstep⟩
      | some x =>
        -- there is nothing left for a round that goes on
        have hlt := hsize hstep
        rw [List.length_nil] at hroom
        omega
    | cons _ room ih =>
      intro round done s xs hroom h
      obtain ⟨result, s₁, hstep, hrest⟩ := bind_eq_ok_iff.mp h
      cases result with
      | none => cases hrest; exact ⟨[], rfl, .nil hstep⟩
      | some x =>
        have hlt := hsize hstep
        rw [List.length_cons] at hroom
        obtain ⟨results, rfl, hruns⟩ := ih (round + 1) (x :: done) s₁ xs (by omega) hrest
        exact ⟨x :: results, by rw [List.reverse_cons, List.append_assoc]; rfl, .cons hstep hruns⟩
  obtain ⟨results, s₁, hloop, hresults⟩ := bind_eq_ok_iff.mp h
  cases hresults
  obtain ⟨xs, rfl, hruns⟩ := honto room 0 [] s results hroom hloop
  rwa [List.append_nil, List.reverse_reverse]

section Invariants

variable {ρ : Type} {step : Nat → EStateM ε σ (Option α)} {room : List ρ} {I : List α → σ → Prop}

/-- An invariant of the results so far and the state, kept by every round, holds at the end. -/
theorem gather_ok
    (hnext : ∀ xs s result s', I xs s → step xs.length s = .ok result s' →
      I (xs ++ result.toList) s')
    (hinv : I [] s) (h : Loop.gather step room s = .ok xs s') : I xs s' := by
  -- the loop keeps its results newest first, and the round is how many there are
  have honto : ∀ (room : List ρ) (done : List α) (s s' : σ) (results : List α),
      I done s → Loop.gatherOnto step done.length done.reverse room s = .ok results s' →
        I results.reverse s' := by
    intro room
    induction room with
    | nil =>
      intro done s s' results hinv h
      obtain ⟨result, s₁, hstep, hrest⟩ := bind_eq_ok_iff.mp h
      have hend := hnext done s result s₁ hinv hstep
      cases result with
      | none => cases hrest; simpa using hend
      | some x => cases hrest; simpa using hend
    | cons _ room ih =>
      intro done s s' results hinv h
      obtain ⟨result, s₁, hstep, hrest⟩ := bind_eq_ok_iff.mp h
      have hend := hnext done s result s₁ hinv hstep
      cases result with
      | none => cases hrest; simpa using hend
      | some x =>
        -- what was added to the results is what the loop has put in front of them
        refine ih (done ++ [x]) s₁ s' results hend ?_
        rw [List.length_append, List.reverse_append]
        exact hrest
  obtain ⟨results, s₁, hloop, hresults⟩ := bind_eq_ok_iff.mp h
  cases hresults
  exact honto room [] s s' results hinv hloop

theorem gather_fails {step : Nat → EStateM ε σ (Option α)} {room : List ρ} {e : ε}
    (h : ∃ s', step 0 s = .error e s') : ∃ s', Loop.gather step room s = .error e s' := by
  refine bind_fails ?_
  cases room with
  | nil => exact bind_fails h
  | cons _ room => exact bind_fails h

theorem gather_forall {p : α → Prop} (hp : ∀ {round s x s'}, step round s = .ok (some x) s' → p x)
    (h : Loop.gather step room s = .ok xs s') : ∀ x ∈ xs, p x := by
  refine gather_ok (I := fun xs _ => ∀ x ∈ xs, p x) (fun xs s result s' hxs hstep => ?_) (by simp) h
  cases result with
  | none => simpa using hxs
  | some x => exact List.forall_mem_append.mpr ⟨hxs, List.forall_mem_singleton.mpr (hp hstep)⟩

end Invariants

end TreeDigest.Steps
