import TreeDigest.Proofs.Input.Advance
import TreeDigest.Proofs.Tree

/-!
# Steps under a limit

A tree reader takes a limit on open containers. What it builds does not depend on
the limit: with another one it builds the same tree, if that fits, and fails with
the limit if not. This module says so of steps in general.

A step is *limited*, compared with a free one, if it does the same wherever the
free one succeeds with a result that has a property, and fails with one certain
error wherever the result lacks the property. The relation goes through sequences
and loops, so a reader has it as soon as its parts do. It says nothing of a state
in which the free step fails, since there the limit may be met first.
-/

namespace TreeDigest

namespace Steps

variable {ε σ α β : Type}

/-- A step does what a free one does, or fails with `e` if the result would lack a property. -/
structure Limited (e : ε) (p : α → Prop) (step free : EStateM ε σ α) : Prop where
  keeps : ∀ {s a s'}, free s = .ok a s' → p a → step s = .ok a s'
  refuses : ∀ {s a s'}, free s = .ok a s' → ¬ p a → ∃ s'', step s = .error e s''

namespace Limited

variable {e : ε} {p : α → Prop} {q : β → Prop} {step free : EStateM ε σ α}

/-- Nothing is limited about a step whose results all have the property. -/
theorem same (h : ∀ {s a s'}, step s = .ok a s' → p a) : Limited e p step step where
  keeps hok _ := hok
  refuses hok hp := absurd (h hok) hp

theorem pure {a : α} (h : p a) : Limited e p (pure a : EStateM ε σ α) (pure a) :=
  .same fun hok => by cases hok; exact h

/-- Failing at once is right where no result has the property. -/
theorem throw (h : ∀ {s a s'}, free s = .ok a s' → ¬ p a) :
    Limited e p (throw e : EStateM ε σ α) free where
  keeps hok hp := absurd hp (h hok)
  refuses _ _ := ⟨_, rfl⟩

theorem of_throw (e' : ε) : Limited e p step (MonadExcept.throw e' : EStateM ε σ α) where
  keeps hok := by cases hok
  refuses hok := by cases hok

/-- In a sequence, a result with the property must come from one with the property. -/
theorem bind {next more : α → EStateM ε σ β} (h : Limited e p step free)
    (hnext : ∀ a, p a → Limited e q (next a) (more a))
    (hback : ∀ {a s b s'}, more a s = .ok b s' → q b → p a) :
    Limited e q (step >>= next) (free >>= more) where
  keeps hok hq := by
    obtain ⟨a, s₁, hfree, hmore⟩ := bind_eq_ok_iff.mp hok
    have hp := hback hmore hq
    rw [bind_ok (h.keeps hfree hp)]
    exact (hnext a hp).keeps hmore hq
  refuses hok hq := by
    obtain ⟨a, s₁, hfree, hmore⟩ := bind_eq_ok_iff.mp hok
    by_cases hp : p a
    · rw [bind_ok (h.keeps hfree hp)]
      exact (hnext a hp).refuses hmore hq
    · exact bind_fails (h.refuses hfree hp)

/-- A step that is the same on both sides, before one that is limited. -/
theorem after {step : EStateM ε σ α} {next more : α → EStateM ε σ β}
    (h : ∀ a, Limited e q (next a) (more a)) : Limited e q (step >>= next) (step >>= more) :=
  .bind (p := fun _ => True) (.same fun _ => trivial) (fun a _ => h a) fun _ _ => trivial

/-- A limited step, after which the result is looked at in another way. -/
theorem map {g : α → β} (h : Limited e p step free) (hg : ∀ a, q (g a) ↔ p a) :
    Limited e q (do return g (← step)) (do return g (← free)) :=
  .bind h (fun a hp => .pure ((hg a).mpr hp)) fun hok hq => by cases hok; exact (hg _).mp hq

/-! ### Loops -/

theorem collectOnto (h : Limited e p step free) {n : Nat} {done : List α} (hdone : ∀ x ∈ done, p x) :
    Limited e (fun xs => ∀ x ∈ xs, p x) (Loop.collectOnto step done n)
      (Loop.collectOnto free done n) := by
  induction n generalizing done with
  | zero => exact .pure hdone
  | succ n ih =>
    refine .bind h (fun x hx => ih (List.forall_mem_cons.mpr ⟨hx, hdone⟩)) fun hok hall => ?_
    -- what was collected before is still there at the end
    obtain ⟨results, rfl, -, -⟩ := collectOnto_eq_ok_iff.mp hok
    exact hall _ (List.mem_append_right _ (List.mem_cons_self ..))

theorem collect (h : Limited e p step free) {n : Nat} :
    Limited e (fun xs => ∀ x ∈ xs, p x) (Loop.collect step n) (Loop.collect free n) :=
  .map (h.collectOnto fun _ hx => nomatch hx) fun xs => by simp only [List.mem_reverse]

section Gathering

variable {ρ : Type} {step free : Nat → EStateM ε σ (Option α)}

/-- A loop that gathers keeps what it has. -/
theorem mem_of_gatherOnto {round : Nat} {done xs : List α} {room : List ρ} {s s' : σ} {x : α}
    (h : Loop.gatherOnto free round done room s = .ok xs s') (hx : x ∈ done) : x ∈ xs := by
  induction room generalizing round done s with
  | nil =>
    obtain ⟨result, s₁, -, hrest⟩ := bind_eq_ok_iff.mp h
    cases result with
    | none => cases hrest; exact hx
    | some y => cases hrest; exact List.mem_cons_of_mem _ hx
  | cons _ room ih =>
    obtain ⟨result, s₁, -, hrest⟩ := bind_eq_ok_iff.mp h
    cases result with
    | none => cases hrest; exact hx
    | some y => exact ih hrest (List.mem_cons_of_mem _ hx)

theorem gatherOnto
    (h : ∀ round, Limited e (fun result => ∀ x ∈ result, p x) (step round) (free round))
    {round : Nat} {done : List α} {room : List ρ} (hdone : ∀ x ∈ done, p x) :
    Limited e (fun xs => ∀ x ∈ xs, p x) (Loop.gatherOnto step round done room)
      (Loop.gatherOnto free round done room) := by
  have hcons : ∀ {y : α}, (∀ x ∈ some y, p x) → ∀ x ∈ y :: done, p x := fun hy =>
    List.forall_mem_cons.mpr ⟨hy _ rfl, hdone⟩
  induction room generalizing round done with
  | nil =>
    refine .bind (h round) (fun result hresult => ?_) fun {result s xs s'} hok hall => ?_
    · cases result with
      | none => exact .pure hdone
      | some y => exact .pure (hcons hresult)
    · cases result with
      | none => exact fun _ hx => nomatch hx
      | some y => cases hok; rintro _ ⟨⟩; exact hall y (List.mem_cons_self ..)
  | cons _ room ih =>
    refine .bind (h round) (fun result hresult => ?_) fun {result s xs s'} hok hall => ?_
    · cases result with
      | none => exact .pure hdone
      | some y => exact ih (hcons hresult) fun hz => List.forall_mem_cons.mpr ⟨hz _ rfl, hcons hresult⟩
    · cases result with
      | none => exact fun _ hx => nomatch hx
      | some y => rintro _ ⟨⟩; exact hall y (mem_of_gatherOnto hok (List.mem_cons_self ..))

theorem gather (h : ∀ round, Limited e (fun result => ∀ x ∈ result, p x) (step round) (free round))
    {room : List ρ} :
    Limited e (fun xs => ∀ x ∈ xs, p x) (Loop.gather step room) (Loop.gather free room) :=
  .map (gatherOnto h fun _ hx => nomatch hx) fun xs => by simp only [List.mem_reverse]

end Gathering

end Limited

end Steps

/-! ## Trees -/

namespace Reader

/-- A tree reader goes as another does, on trees of at most `levels` open containers. -/
abbrev LimitedTo (limit levels : Nat) (step free : Reader Tree) : Prop :=
  Steps.Limited (.depthExceeded limit) (fun t => t.depth ≤ levels) step free

namespace LimitedTo

variable {limit levels : Nat} {step free : Reader Tree}

/-- What a limited reader gives on a whole input that a free one reads. -/
theorem whole {input : Bytes} {t : Tree} (h : LimitedTo limit limit step free)
    (hfree : free.whole input = .ok t) :
    step.whole input = if t.depth ≤ limit then .ok t else .error (.decode (.depthExceeded limit)) := by
  have hwhole : LimitedTo limit limit (do let t ← step; finished; return t)
      (do let t ← free; finished; return t) := by
    refine .bind h (fun t ht => .after fun _ => .pure ht) fun hok hdepth => ?_
    obtain ⟨_, _, -, hpure⟩ := Steps.bind_eq_ok_iff.mp hok
    cases hpure
    exact hdepth
  unfold Reader.whole at hfree ⊢
  cases hrun : (do let t ← free; finished; return t : Reader Tree) (Cursor.start input) with
  | error e c => rw [hrun] at hfree; cases hfree
  | ok t' c =>
    rw [hrun] at hfree
    cases hfree
    by_cases hdepth : t.depth ≤ limit
    · rw [hwhole.keeps hrun hdepth, if_pos hdepth]
    · obtain ⟨c', herror⟩ := hwhole.refuses hrun hdepth
      rw [herror, if_neg hdepth]

end LimitedTo

end Reader

end TreeDigest
