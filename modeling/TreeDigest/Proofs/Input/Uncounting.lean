import TreeDigest.Input.Cursor
import TreeDigest.Proofs.Fold.Readiness
import TreeDigest.Proofs.Fold.Refusals

/-!
# Readers that count nothing

How many entries a container has is the business of folders. Whatever a reader finds wrong with
an input, it is never a count: the primitives fail otherwise, if at all, and what is put together
from them fails where its parts do.
-/

namespace TreeDigest

namespace Reader

variable {α β ρ : Type}

/-- Whatever a reader fails with, it is not a count that is wrong. -/
def Uncounting (step : Reader α) : Prop := Steps.FailsWith DecodeError.NotOfCount step

namespace Uncounting

variable {step : Reader α}

open Steps (FailsWith)

theorem pure (a : α) : Uncounting (pure a : Reader α) := FailsWith.pure a

theorem bind {next : α → Reader β} (h : step.Uncounting) (hnext : ∀ a, (next a).Uncounting) :
    Uncounting (step >>= next) := FailsWith.bind h hnext

theorem get : Uncounting (get : Reader Cursor) := FailsWith.get

theorem set (c : Cursor) : Uncounting (set c : Reader PUnit) := FailsWith.set c

theorem modify (f : Cursor → Cursor) : Uncounting (modify f : Reader PUnit) := FailsWith.modify f

theorem malformed (offset : Nat) (defect : Defect) :
    (malformed offset defect : Reader α).Uncounting := FailsWith.throw nofun

theorem unsupportedType (offset : Nat) (marker : UInt8) :
    (throw (.unsupportedType offset marker) : Reader α).Uncounting := FailsWith.throw nofun

theorem depthExceeded (limit : Nat) : (throw (.depthExceeded limit) : Reader α).Uncounting :=
  FailsWith.throw nofun

theorem map (h : step.Uncounting) (g : α → β) : (do return g (← step) : Reader β).Uncounting :=
  bind h fun _ => pure _

theorem offset : offset.Uncounting := map get _

theorem need (n : Nat) : (need n).Uncounting where
  error {c e c'} herror := by
    unfold Reader.need at herror
    split at herror
    · cases herror
    · cases herror
      exact nofun

theorem take (n : Nat) : (take n).Uncounting :=
  bind (need n) fun _ => bind get fun _ =>
    bind (set _) fun _ => pure _

theorem octet : octet.Uncounting where
  error {c e c'} herror := by
    unfold Reader.octet at herror
    split at herror
    · cases herror
    · cases herror
      exact nofun

theorem peek : peek.Uncounting where
  error {c e c'} herror := by
    unfold Reader.peek at herror
    split at herror
    · cases herror
    · cases herror
      exact nofun

theorem skip : skip.Uncounting := modify _

theorem big (width : Nat) : (big width).Uncounting := map (take width) _

theorem little (width : Nat) : (little width).Uncounting := map (take width) _

theorem signedBig (width : Nat) : (signedBig width).Uncounting := map (big width) _

theorem signedLittle (width : Nat) : (signedLittle width).Uncounting := map (little width) _

theorem finished : finished.Uncounting :=
  bind get fun _ => by
    split
    · exact pure _
    · exact FailsWith.throw nofun

theorem collect {step : Reader α} (h : step.Uncounting) (n : Nat) :
    Uncounting (Loop.collect step n) := by
  have honto : ∀ results, Uncounting (Loop.collectOnto step results n) := by
    induction n with
    | zero => exact fun _ => pure _
    | succ n ih => exact fun _ => bind h fun _ => ih _
  exact map (honto []) _

theorem gather {step : Nat → Reader (Option α)} (h : ∀ round, (step round).Uncounting)
    (room : List ρ) : Uncounting (Loop.gather step room) := by
  have honto : ∀ round results, Uncounting (Loop.gatherOnto step round results room) := by
    induction room with
    | nil =>
      refine fun round results => bind (h round) fun result => ?_
      cases result <;> exact pure _
    | cons _ room ih =>
      refine fun round results => bind (h round) fun result => ?_
      cases result with
      | some result => exact ih (round + 1) _
      | none => exact pure _
  exact map (honto 0 []) _

end Uncounting

end Reader

end TreeDigest
