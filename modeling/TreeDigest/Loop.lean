/-!
# Repeating a step

Readers repeat a step either a known number of times or until the input says
stop. Both are recursions on something that shrinks, and both are ordinary loops
when run: the state is handed on, and nothing waits for the rounds to come.

A loop of the second kind is bounded by a list, one round for each element. The
readers pass the octets that are left when the loop begins, since each round
that goes on uses up at least one of them.
-/

namespace TreeDigest.Loop

variable {ε σ α β : Type}

/-- Does a step `n` times. -/
def times (step : EStateM ε σ Unit) : Nat → EStateM ε σ Unit
  | 0 => pure ()
  | n + 1 => do
    step
    times step n

/-- Does a step `n` times and keeps the results, newest first, before those already there. -/
def collectOnto (step : EStateM ε σ α) (results : List α) : Nat → EStateM ε σ (List α)
  | 0 => pure results
  | n + 1 => do
    let result ← step
    collectOnto step (result :: results) n

/-- Does a step `n` times and keeps the results in order. -/
def collect (step : EStateM ε σ α) (n : Nat) : EStateM ε σ (List α) := do
  let results ← collectOnto step [] n
  return results.reverse

/--
Does a step, which is told its round, until it answers no, at most once more
than `room` has elements.
-/
def rounds (step : Nat → EStateM ε σ Bool) (round : Nat) : (room : List β) → EStateM ε σ Unit
  | [] => do
    let _ ← step round
  | _ :: room => do
    if ← step round then rounds step (round + 1) room

/--
Does a step, which is told its round, until it has no result, at most once more
than `room` has elements, and keeps the results, newest first, before those
already there.
-/
def gatherOnto (step : Nat → EStateM ε σ (Option α)) (round : Nat) (results : List α) :
    (room : List β) → EStateM ε σ (List α)
  | [] => do
    match ← step round with
    | some result => return result :: results
    | none => return results
  | _ :: room => do
    match ← step round with
    | some result => gatherOnto step (round + 1) (result :: results) room
    | none => return results

/-- Does a step until it has no result and keeps the results in order. -/
def gather (step : Nat → EStateM ε σ (Option α)) (room : List β) : EStateM ε σ (List α) := do
  let results ← gatherOnto step 0 [] room
  return results.reverse

end TreeDigest.Loop
