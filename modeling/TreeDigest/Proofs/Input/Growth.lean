import TreeDigest.Proofs.Input.Advance

/-!
# Inputs that grow

What a reader does with an input says what it does with a longer one that begins like
it. A reader that succeeds does so again and stops at the same place, with more behind
it. One that fails fails in the same way, except that a truncated input lacks as many
octets less as there are more of, and that nothing is known of it once it lacks none.

The relation is between a step in a state and one in the grown state, so that it goes
through sequences also where the steps look at the whole rest of the input. Loops over
that rest have more room in the grown state, which makes no difference as long as every
round that goes on uses up an octet.
-/

namespace TreeDigest

/-! ## Growing states -/

/-- What a longer input does to the states of steps and to their errors. -/
structure Growth (ε σ : Type) where
  /-- A state with more input behind it. -/
  grown : σ → σ
  /-- One state is further on than another in the same input, or the same. -/
  reaches : σ → σ → Prop
  reaches_refl : ∀ s, reaches s s
  reaches_trans : ∀ {s s' s''}, reaches s s' → reaches s' s'' → reaches s s''
  /-- What is known of the error that takes the place of a certain one. -/
  still : (ε → Prop) → ε → Prop
  still_mono : ∀ {p q : ε → Prop} {e}, (∀ e, p e → q e) → still p e → still q e

namespace Steps

variable {ε σ α β ρ : Type} {g : Growth ε σ}

/-- In a grown state, a step does what another one does in the state itself. -/
structure Outlasts (g : Growth ε σ) (step grown : EStateM ε σ α) (s : σ) : Prop where
  ok : ∀ {a s'}, step s = .ok a s' → grown (g.grown s) = .ok a (g.grown s') ∧ g.reaches s s'
  error : ∀ {e s'}, step s = .error e s' → g.still (fun e' => ∃ s'', grown (g.grown s) = .error e' s'') e

namespace Outlasts

variable {step grown : EStateM ε σ α} {next more : α → EStateM ε σ β} {s : σ}

/-! ### Sequences -/

theorem pure (a : α) : Outlasts g (pure a) (pure a) s where
  ok h := by cases h; exact ⟨rfl, g.reaches_refl _⟩
  error h := by cases h

theorem throw {e : ε} (h : ∀ p : ε → Prop, p e → g.still p e) :
    Outlasts g (throw e : EStateM ε σ α) (throw e) s where
  ok hok := by cases hok
  error herror := by cases herror; exact h _ ⟨_, rfl⟩

theorem bind (h : Outlasts g step grown s) (hnext : ∀ a s', step s = .ok a s' → g.reaches s s' →
    Outlasts g (next a) (more a) s') : Outlasts g (step >>= next) (grown >>= more) s where
  ok hok := by
    obtain ⟨a, s₁, hstep, hmore⟩ := bind_eq_ok_iff.mp hok
    obtain ⟨hgrown, hreaches⟩ := h.ok hstep
    obtain ⟨hsame, hreaches'⟩ := (hnext a s₁ hstep hreaches).ok hmore
    exact ⟨by rw [bind_ok hgrown, hsame], g.reaches_trans hreaches hreaches'⟩
  error herror := by
    rcases bind_eq_error_iff.mp herror with hstep | ⟨a, s₁, hstep, hmore⟩
    · exact g.still_mono (fun _ => bind_fails) (h.error hstep)
    · obtain ⟨hgrown, hreaches⟩ := h.ok hstep
      rw [bind_ok hgrown]
      exact (hnext a s₁ hstep hreaches).error hmore

/-- Steps that fail alike. -/
theorem fails {e : ε} (h : ∃ s', step s = .error e s') (h' : ∃ s', grown (g.grown s) = .error e s')
    (he : ∀ p : ε → Prop, p e → g.still p e) : Outlasts g step grown s where
  ok hok := by
    obtain ⟨s', h⟩ := h
    rw [h] at hok
    cases hok
  error herror := by
    obtain ⟨s', h⟩ := h
    rw [h] at herror
    cases herror
    exact he _ h'

/-- A step that looks at the whole state. -/
theorem get_bind {next more : σ → EStateM ε σ α} (h : Outlasts g (next s) (more (g.grown s)) s) :
    Outlasts g (get >>= next) (get >>= more) s := ⟨h.ok, h.error⟩

/-! ### Loops -/

theorem times {step : EStateM ε σ Unit} {n : Nat} (h : ∀ s', g.reaches s s' → Outlasts g step step s') :
    Outlasts g (Loop.times step n) (Loop.times step n) s := by
  induction n generalizing s with
  | zero => exact pure ()
  | succ n ih =>
    exact bind (h s (g.reaches_refl s)) fun _ s' _ hreaches =>
      ih fun s'' hreaches' => h s'' (g.reaches_trans hreaches hreaches')

theorem collectOnto {n : Nat} {results : List α}
    (h : ∀ s', g.reaches s s' → Outlasts g step step s') :
    Outlasts g (Loop.collectOnto step results n) (Loop.collectOnto step results n) s := by
  induction n generalizing s results with
  | zero => exact pure results
  | succ n ih =>
    exact bind (h s (g.reaches_refl s)) fun _ s' _ hreaches =>
      ih fun s'' hreaches' => h s'' (g.reaches_trans hreaches hreaches')

theorem collect {n : Nat} (h : ∀ s', g.reaches s s' → Outlasts g step step s') :
    Outlasts g (Loop.collect step n) (Loop.collect step n) s :=
  bind (collectOnto h) fun _ _ _ _ => pure _

section Rooms

variable {room room' : List ρ} (size : σ → Nat)

/-- A loop whose room is enough for as long as it goes on has no use for more. -/
theorem rounds {step : Nat → EStateM ε σ Bool} {round : Nat}
    (h : ∀ round s', g.reaches s s' → Outlasts g (step round) (step round) s')
    (hsize : ∀ round s₁ s₂, g.reaches s s₁ → step round s₁ = .ok true s₂ → size s₂ < size s₁)
    (hroom : size s ≤ room.length) (hroom' : room.length ≤ room'.length) :
    Outlasts g (Loop.rounds step round room) (Loop.rounds step round room') s := by
  induction room generalizing s round room' with
  | nil =>
    cases room' with
    | nil => exact bind (h round s (g.reaches_refl s)) fun _ _ _ _ => pure _
    | cons _ room' =>
      refine bind (h round s (g.reaches_refl s)) fun more s' hstep _ => ?_
      cases more with
      | false => exact pure _
      | true =>
        -- there is nothing left for a round that goes on
        have hlt := hsize round s s' (g.reaches_refl s) hstep
        rw [List.length_nil] at hroom
        omega
  | cons _ room ih =>
    cases room' with
    | nil => cases hroom'
    | cons _ room' =>
      refine bind (h round s (g.reaches_refl s)) fun more s' hstep hreaches => ?_
      cases more with
      | false => exact pure _
      | true =>
        have hlt := hsize round s s' (g.reaches_refl s) hstep
        rw [List.length_cons] at hroom
        exact ih (fun round s₁ hs₁ => h round s₁ (g.reaches_trans hreaches hs₁))
          (fun round s₁ s₂ hs₁ => hsize round s₁ s₂ (g.reaches_trans hreaches hs₁)) (by omega)
          (Nat.le_of_succ_le_succ hroom')

theorem gatherOnto {step : Nat → EStateM ε σ (Option α)} {round : Nat} {results : List α}
    (h : ∀ round s', g.reaches s s' → Outlasts g (step round) (step round) s')
    (hsize : ∀ round s₁ a s₂, g.reaches s s₁ → step round s₁ = .ok (some a) s₂ → size s₂ < size s₁)
    (hroom : size s ≤ room.length) (hroom' : room.length ≤ room'.length) :
    Outlasts g (Loop.gatherOnto step round results room) (Loop.gatherOnto step round results room')
      s := by
  induction room generalizing s round results room' with
  | nil =>
    cases room' with
    | nil =>
      refine bind (h round s (g.reaches_refl s)) fun result _ _ _ => ?_
      cases result <;> exact pure _
    | cons _ room' =>
      refine bind (h round s (g.reaches_refl s)) fun result s' hstep _ => ?_
      cases result with
      | none => exact pure _
      | some a =>
        have hlt := hsize round s a s' (g.reaches_refl s) hstep
        rw [List.length_nil] at hroom
        omega
  | cons _ room ih =>
    cases room' with
    | nil => cases hroom'
    | cons _ room' =>
      refine bind (h round s (g.reaches_refl s)) fun result s' hstep hreaches => ?_
      cases result with
      | none => exact pure _
      | some a =>
        have hlt := hsize round s a s' (g.reaches_refl s) hstep
        rw [List.length_cons] at hroom
        exact ih (fun round s₁ hs₁ => h round s₁ (g.reaches_trans hreaches hs₁))
          (fun round s₁ b s₂ hs₁ => hsize round s₁ b s₂ (g.reaches_trans hreaches hs₁)) (by omega)
          (Nat.le_of_succ_le_succ hroom')

theorem gather {step : Nat → EStateM ε σ (Option α)}
    (h : ∀ round s', g.reaches s s' → Outlasts g (step round) (step round) s')
    (hsize : ∀ round s₁ a s₂, g.reaches s s₁ → step round s₁ = .ok (some a) s₂ → size s₂ < size s₁)
    (hroom : size s ≤ room.length) (hroom' : room.length ≤ room'.length) :
    Outlasts g (Loop.gather step room) (Loop.gather step room') s :=
  bind (gatherOnto size h hsize hroom hroom') fun _ _ _ _ => pure _

end Rooms

end Outlasts

end Steps

end TreeDigest
