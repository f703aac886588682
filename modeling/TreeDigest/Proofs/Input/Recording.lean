import TreeDigest.Proofs.Fold.Acceptance
import TreeDigest.Proofs.Fold.Reachable
import TreeDigest.Proofs.Input.Persists
import TreeDigest.Proofs.Input.Brings

/-!
# Recording what a decoder does

What a decoder costs, and what it hands to its folder on the way to an error, is not to be
seen from its answer. A recorder is a decoder that also takes notes: the events it has handed
over, how many containers were open at once, how many elements were being read at once, and
what containers have declared.

That the notes are those of a decoder is said by `Tells`, which compares a recorder with the
decoder it is to be a recording of: they end alike, with an error or not. Beside that, `Tells`
is a triple of conditions on the notes, and the condition that goes through a decoder is
`Keeps`. It pays for events in octets. An octet that is read is a credit, and an event that
is no end of a container costs one, so that an input affords as many as it has octets, and the
one that it was given at the start.
-/

namespace TreeDigest

/-! ## Notes -/

/-- Whether an event is the end of a container. -/
def Event.closes : Event → Bool
  | .endList | .endMap => true
  | _ => false

/-- How many of some events are beginnings of containers, scalars and keys. -/
def Event.issued (es : List Event) : Nat := es.countP (!·.closes)

theorem Event.issued_cons (e : Event) (es : List Event) :
    issued (e :: es) = issued es + if e.closes then 0 else 1 := by
  rw [issued, List.countP_cons, issued]
  cases e.closes <;> rfl

/-- A decoding and notes of what led to it. -/
structure Recording extends Decoding Cursor where
  /-- The events that were handed to the folder, newest first, one that was refused included. -/
  events : List Event := []
  /-- The most containers that were open at once. -/
  opened : Nat := 0
  /-- How many elements are being read, each within the one before. -/
  nesting : Nat := 0
  /-- The most elements that were being read at once. -/
  nested : Nat := 0
  /-- The octets that containers declared for all their values, each with the count. -/
  declared : List (UInt8 × Option UInt32) := []

/-- The same notes at another point of decoding, with what is open there. -/
def Recording.at (r : Recording) (d : Decoding Cursor) : Recording :=
  { r with toDecoding := d, opened := max r.opened d.folder.depth }

/-- A step of a decoder that takes notes. -/
abbrev Recorder := EStateM Error Recording

namespace Recorder

variable {α : Type}

/-- A step of a decoder. -/
def of (step : Decoder Cursor α) : Recorder α := fun r =>
  match step r.toDecoding with
  | .ok a d => .ok a (r.at d)
  | .error e d => .error e (r.at d)

/-- A step of reading octets. -/
def read (reader : Reader α) : Recorder α := of (Decoder.read reader)

/-- An event for the folder. -/
def fold (e : Event) : Recorder Unit := do
  modify fun r => { r with events := e :: r.events }
  of (Decoder.fold e)

/-- The reading of an element. -/
def element (step : Recorder Unit) : Recorder Unit := do
  modify fun r => { r with nesting := r.nesting + 1, nested := max r.nested (r.nesting + 1) }
  step
  modify fun r => { r with nesting := r.nesting - 1 }

/-- A container that was read has declared what its values share. -/
def declare (shared : Option UInt8) (count : Option UInt32) : Recorder Unit :=
  modify fun r => { r with declared := shared.toList.map (·, count) ++ r.declared }

/-- Room for as many rounds as there are octets left, and some more. -/
def room (slack : Nat) : Recorder Bytes := return (← get).input.rest ++ List.replicate slack 0

/-- What a run of a recorder is without the notes. -/
def erase : EStateM.Result Error Recording α → EStateM.Result Error (Decoding Cursor) α
  | .ok a r => .ok a r.toDecoding
  | .error e r => .error e r.toDecoding

/-- The notes of a recorder, whatever its answer. -/
def notes : EStateM.Result Error Recording α → Recording
  | .ok _ r => r
  | .error _ r => r

/-- Runs a recorder of one element over a whole input with a fresh folder. -/
def run (step : Recorder Unit) (input : Bytes) (o : FoldOptions) :
    EStateM.Result Error Recording Digest :=
  let whole : Recorder Digest := do
    step
    read Reader.finished
    of Decoder.finish
  whole { input := Cursor.start input, folder := Folder.start .decode o }

end Recorder

/-! ## Conditions on notes -/

/-- What a recording is held to. -/
structure Terms where
  /-- The folder it began with. -/
  start : Folder
  /-- How many events the input affords, ends of containers apart. -/
  budget : Nat
  /-- Which events may be handed over. -/
  Hands : Event → Prop
  /-- What may be declared. -/
  Declares : UInt8 × Option UInt32 → Prop

/-- How many containers may be open at once. -/
def Terms.limit (terms : Terms) : Nat := terms.start.limit

namespace Recording

variable {terms : Terms} {depth nesting credit more : Nat} {r : Recording}

/-- No more has been opened, begun and handed over than the terms allow. -/
structure Within (terms : Terms) (r : Recording) : Prop where
  /-- The folder is what the events have left of the one at the start, a refused one included. -/
  folder_eq : Steps.left (Folding.events r.events.reverse) terms.start = r.folder
  opened_le : r.opened ≤ terms.limit
  nested_le : r.nested ≤ terms.limit + 1
  issued_le : Event.issued r.events ≤ terms.budget

/--
The terms have been kept so far. So many containers are open and so many elements are being
read, and with the octets that are left and a credit all events have been paid for.
-/
structure Keeps (terms : Terms) (depth nesting credit : Nat) (r : Recording) : Prop where
  stands : r.folder.Stands terms.limit depth
  depth_le : depth ≤ terms.limit
  nesting_eq : r.nesting = nesting
  opened_le : r.opened ≤ terms.limit
  nested_le : r.nested ≤ terms.limit + 1
  paid : Event.issued r.events + r.input.rest.length + credit ≤ terms.budget
  /-- The folder is what the events have made of the one at the start. -/
  folds : Folding.events r.events.reverse terms.start = .ok () r.folder
  hands : ∀ e ∈ r.events, terms.Hands e
  declares : ∀ b ∈ r.declared, terms.Declares b

namespace Keeps

theorem within (h : r.Keeps terms depth nesting credit) : r.Within terms where
  folder_eq := Steps.left_ok h.folds
  opened_le := h.opened_le
  nested_le := h.nested_le
  issued_le := by
    have := h.paid
    omega

/-- A credit need not be used. -/
theorem less (h : r.Keeps terms depth nesting credit) (hle : more ≤ credit) :
    r.Keeps terms depth nesting more :=
  { h with paid := Nat.le_trans (Nat.add_le_add_left hle _) h.paid }

/-- Octets that are read are a credit. -/
theorem read (h : r.Keeps terms depth nesting credit) {c : Cursor}
    (hspent : c.rest.length + more ≤ r.input.rest.length) :
    (r.at { r.toDecoding with input := c }).Keeps terms depth nesting (credit + more) :=
  { h with
    opened_le := Nat.max_le.mpr ⟨h.opened_le, h.stands.depth_eq ▸ h.depth_le⟩
    paid := by
      have hpaid := h.paid
      show Event.issued r.events + c.rest.length + (credit + more) ≤ terms.budget
      omega }

/-- The price of an event. -/
theorem fold {e : Event} {f : Folder} {depth' : Nat}
    (h : r.Keeps terms depth nesting (credit + if e.closes then 0 else 1))
    (hevent : Folding.event e r.folder = .ok () f) (hhands : terms.Hands e)
    (hstands : depth' ≤ terms.limit ∧ f.Stands terms.limit depth') :
    ({ r with events := e :: r.events }.at { r.toDecoding with folder := f } : Recording).Keeps
      terms depth' nesting credit where
  stands := hstands.2
  depth_le := hstands.1
  nesting_eq := h.nesting_eq
  opened_le := Nat.max_le.mpr ⟨h.opened_le, hstands.2.depth_eq ▸ hstands.1⟩
  nested_le := h.nested_le
  paid := by
    have hpaid := h.paid
    show Event.issued (e :: r.events) + r.input.rest.length + credit ≤ terms.budget
    rw [Event.issued_cons]
    omega
  folds := by
    show Folding.events (e :: r.events).reverse terms.start = .ok () f
    rw [List.reverse_cons, Folding.events_append h.folds]
    exact Folding.events_singleton hevent
  hands := List.forall_mem_cons.mpr ⟨hhands, h.hands⟩
  declares := h.declares

/-- What is left of a folder that refused an event has no more open. -/
theorem refused {e : Event} {f : Folder} {x : Error}
    (h : r.Keeps terms depth nesting (credit + if e.closes then 0 else 1))
    (hevent : Folding.event e r.folder = .error x f) :
    ({ r with events := e :: r.events }.at { r.toDecoding with folder := f } : Recording).Within
      terms where
  folder_eq := by
    show Steps.left (Folding.events (e :: r.events).reverse) terms.start = f
    rw [List.reverse_cons, Steps.left, Folding.events_append h.folds, Folding.events,
      Steps.bind_error hevent]
  opened_le := by
    have hdepth : f.depth ≤ r.folder.depth := by
      cases Folding.event_error hevent with
      | rejects _ _ => exact Nat.le_refl _
      | dangles hframes => exact (Folder.Within.pop hframes).depth_le
      | miscounts _ _ hwithin => exact hwithin.depth_le
    exact Nat.max_le.mpr ⟨h.opened_le, Nat.le_trans hdepth (h.stands.depth_eq ▸ h.depth_le)⟩
  nested_le := h.nested_le
  issued_le := by
    have hpaid := h.paid
    show Event.issued (e :: r.events) ≤ terms.budget
    rw [Event.issued_cons]
    omega

end Keeps

end Recording

end TreeDigest
