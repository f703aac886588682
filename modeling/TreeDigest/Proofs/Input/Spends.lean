import TreeDigest.Proofs.Input.Persists

/-!
# How much steps use up

Readers only ever move on, and some of them take an octet at least, or more, before they can
succeed. `Spends` says how much of something a step uses up when it succeeds, which may depend
on its result. Here that something is the octets that are left.
-/

namespace TreeDigest

namespace Steps

variable {ε σ α β : Type} {size : σ → Nat}

/-- A step that succeeds leaves less than there was, by a number at least. -/
structure Spends (size : σ → Nat) (least : α → Nat) (step : EStateM ε σ α) : Prop where
  spent : ∀ {s a s'}, step s = .ok a s' → size s' + least a ≤ size s

namespace Spends

variable {m n : Nat} {least less : α → Nat} {step : EStateM ε σ α}

theorem le (h : Spends size least step) {s s' : σ} {a : α} (hok : step s = .ok a s') :
    least a ≤ size s := Nat.le_trans (Nat.le_add_left ..) (h.spent hok)

theorem pure (a : α) : Spends size (fun _ => 0) (pure a : EStateM ε σ α) where
  spent hok := by cases hok; exact Nat.le_refl _

theorem throw (least : α → Nat) (e : ε) : Spends size least (throw e : EStateM ε σ α) where
  spent hok := by cases hok

theorem mono (h : Spends size least step) (hle : ∀ a, less a ≤ least a) : Spends size less step where
  spent hok := Nat.le_trans (Nat.add_le_add_left (hle _) _) (h.spent hok)

theorem bind {next : α → EStateM ε σ β} (h : Spends size (fun _ => n) step)
    (hnext : ∀ a, Spends size (fun _ => m) (next a)) :
    Spends size (fun _ => n + m) (step >>= next) where
  spent hok := by
    obtain ⟨a, s₁, hstep, hok⟩ := bind_eq_ok_iff.mp hok
    have hfirst := h.spent hstep
    have hrest := (hnext a).spent hok
    omega

/-- A step after which nothing has to be used up. -/
theorem bind_last {next : α → EStateM ε σ β} (h : Spends size (fun _ => n) step)
    (hnext : ∀ a, Spends size (fun _ => 0) (next a)) :
    Spends size (fun _ => n) (step >>= next) := bind h hnext

/-- A step before which nothing has to be used up. -/
theorem bind_first {next : α → EStateM ε σ β} (h : Spends size (fun _ => 0) step)
    (hnext : ∀ a, Spends size (fun _ => n) (next a)) :
    Spends size (fun _ => n) (step >>= next) :=
  (bind h hnext).mono fun _ => Nat.le_add_left n 0

theorem times {step : EStateM ε σ Unit} (h : Spends size (fun _ => m) step) (n : Nat) :
    Spends size (fun _ => n * m) (Loop.times step n) := by
  induction n with
  | zero => exact (pure ()).mono fun _ => Nat.le_of_eq (Nat.zero_mul m)
  | succ n ih => exact (bind h fun _ => ih).mono fun _ => by rw [Nat.succ_mul, Nat.add_comm]

theorem collect (h : Spends size (fun _ => m) step) (n : Nat) :
    Spends size (fun _ => n * m) (Loop.collect step n) where
  spent hok := by
    obtain ⟨rfl, hruns⟩ := collect_eq_ok_iff.mp hok
    clear hok
    induction hruns with
    | nil => simp
    | cons hstep _ ih =>
      have hfirst := h.spent hstep
      rw [List.length_cons, Nat.succ_mul]
      omega

theorem rounds {ρ : Type} {step : Nat → EStateM ε σ Bool}
    (h : ∀ round, Spends size (fun _ => 0) (step round)) (round : Nat) (room : List ρ) :
    Spends size (fun _ => 0) (Loop.rounds step round room) := by
  induction room generalizing round with
  | nil => exact bind_last (h round) fun _ => pure ()
  | cons _ room ih =>
    refine bind_last (h round) fun more => ?_
    cases more with
    | true => exact ih (round + 1)
    | false => exact pure ()

end Spends

end Steps

open Steps (Spends)

/-! ## Octets that are left -/

namespace Reader

variable {α : Type} {n : Nat}

/-- How many octets are left. -/
def left (c : Cursor) : Nat := c.rest.length

/-- A reader that persists goes back nowhere. -/
theorem Persists.spends {reader : Reader α} (h : reader.Persists) :
    Spends left (fun _ => 0) reader where
  spent hok := (h.reaches hok).rest_le

/-- What was taken is no longer left. -/
theorem left_of_takes {c c' : Cursor} {bytes : Bytes} (h : c.Takes bytes c') :
    left c' + bytes.length = left c := by
  rw [left, left, h.1, List.length_append, Nat.add_comm]

theorem spends_need : Spends left (fun _ => 0) (need n) := (Persists.need n).spends

theorem spends_finished : Spends left (fun _ => 0) finished where
  spent hok := by
    obtain ⟨-, rfl⟩ := finished_ok hok
    exact Nat.le_refl _

end Reader

namespace Decoder

variable {σ α : Type} {least : α → Nat}

/-- How many octets are left. -/
def left (d : Decoding Cursor) : Nat := d.input.rest.length

theorem spends_read {reader : Reader α} (h : Spends Reader.left least reader) :
    Spends left least (read reader) where
  spent hok := by
    obtain ⟨c, hread, rfl⟩ := reading_eq_ok_iff.mp hok
    exact h.spent hread

theorem spends_fold (e : Event) : Spends left (fun _ => 0) (fold e) where
  spent hok := by
    obtain ⟨f, -, rfl⟩ := fold_eq_ok_iff.mp hok
    exact Nat.le_refl _

end Decoder

end TreeDigest
