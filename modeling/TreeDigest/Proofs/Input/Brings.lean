import TreeDigest.Proofs.Fold.Value
import TreeDigest.Proofs.Input.Persists

/-!
# Where a decoder leaves its folder

A folder has a number of containers open, and a value leaves as many open as there were.
Where none was open, the value was the root, and the document is complete. So a decoder
that hands over a whole value to a fresh folder never finishes in the middle of a document,
whatever the input.

`Brings` says of a decoding step in what kind of state it leaves a folder that was in a
certain kind of state, if it succeeds.
-/

namespace TreeDigest

/-! ## Open containers -/

namespace Folder

variable {f f' : Folder} {limit depth : Nat} {u : Unit}

/-- A number of containers are open, of as many as can be. -/
structure Stands (limit depth : Nat) (f : Folder) : Prop where
  limit_eq : f.limit = limit
  depth_eq : f.depth = depth

/-- A value has ended among open containers, and the document with it if there are none. -/
structure Ends (limit depth : Nat) (f : Folder) : Prop extends f.Stands limit depth where
  complete : depth = 0 → f.complete = true

theorem stands_start (o : FoldOptions) : (start .decode o).Stands o.depthLimit 0 := ⟨rfl, rfl⟩

/-- A document that has ended has a digest. -/
theorem Ends.finish (h : f.Ends limit 0) : ∃ digest, f.finish = .ok digest := by
  have hframes : f.frames = [] := List.eq_nil_of_length_eq_zero h.depth_eq
  refine ⟨f.digest, ?_⟩
  rw [Folder.finish, hframes, h.complete rfl]
  rfl

theorem Stands.takeAll (h : f.Stands limit depth) (ps : List Primitive) :
    (f.takeAll ps).Stands limit depth :=
  ⟨limit_takeAll.trans h.limit_eq, depth_takeAll.trans h.depth_eq⟩

theorem Stands.counted (h : f.Stands limit depth) : f.counted.Ends limit depth := by
  obtain ⟨side, keyOrder, limit, digest, frames, complete⟩ := f
  obtain ⟨hlimit, hdepth⟩ := h
  cases frames with
  | nil => exact ⟨⟨hlimit, hdepth⟩, fun _ => rfl⟩
  | cons frame frames =>
    refine ⟨⟨hlimit, hdepth⟩, fun hzero => ?_⟩
    rw [hzero] at hdepth
    cases hdepth

theorem Stands.folded (h : f.Stands limit depth) (ps : List Primitive) :
    (f.folded ps).Ends limit depth := (h.takeAll ps).counted

end Folder

namespace Folding

open Folder

variable {f f' : Folder} {limit depth : Nat} {u : Unit}

theorem scalar_ends {p : Primitive} (h : f.Stands limit depth) (hok : scalar p f = .ok u f') :
    f'.Ends limit depth := by
  obtain ⟨-, -, rfl⟩ := scalar_eq_ok_iff.mp hok
  exact h.folded [p]

theorem key_stands {octets : Bytes} (h : f.Stands limit depth) (hok : key octets f = .ok u f') :
    f'.Stands limit depth := by
  obtain ⟨declared, seen, held, frames, hframes, rfl⟩ := key_eq_ok_iff.mp hok
  have hdepth : frames.length + 1 = depth := by
    rw [← h.depth_eq, Folder.depth, hframes, List.length_cons]
  cases held with
  | some pairs => exact ⟨h.limit_eq, hdepth⟩
  | none =>
    have hmap : Stands limit depth { f with frames := .map declared seen true none :: frames } :=
      ⟨h.limit_eq, hdepth⟩
    exact hmap.takeAll [.bytes octets]

theorem beginList_stands {declared : Option UInt32} (h : f.Stands limit depth)
    (hok : beginList declared f = .ok u f') : depth < limit ∧ f'.Stands limit (depth + 1) := by
  obtain ⟨-, hdepth, rfl⟩ := beginList_eq_ok_iff.mp hok
  rw [h.depth_eq, h.limit_eq] at hdepth
  exact ⟨hdepth, h.limit_eq, congrArg Nat.succ h.depth_eq⟩

theorem beginMap_stands {declared : Option UInt32} (h : f.Stands limit depth)
    (hok : beginMap declared f = .ok u f') : depth < limit ∧ f'.Stands limit (depth + 1) := by
  obtain ⟨-, hdepth, rfl⟩ := beginMap_eq_ok_iff.mp hok
  rw [h.depth_eq, h.limit_eq] at hdepth
  exact ⟨hdepth, h.limit_eq, congrArg Nat.succ h.depth_eq⟩

/-- A container that is no longer open, with one less around it. -/
theorem stands_closed {frame : Frame} {frames : List Frame} (h : f.Stands limit (depth + 1))
    (hframes : f.frames = frame :: frames) : Stands limit depth { f with frames } := by
  refine ⟨h.limit_eq, ?_⟩
  have hdepth := h.depth_eq
  rw [Folder.depth, hframes, List.length_cons] at hdepth
  exact Nat.succ.inj hdepth

theorem endList_ends (h : f.Stands limit (depth + 1)) (hok : endList f = .ok u f') :
    f'.Ends limit depth := by
  obtain ⟨declared, seen, frames, hframes, -, -, rfl⟩ := endList_eq_ok_iff.mp hok
  exact (stands_closed h hframes).folded _

theorem endMap_ends (h : f.Stands limit (depth + 1)) (hok : endMap f = .ok u f') :
    f'.Ends limit depth := by
  obtain ⟨declared, seen, held, frames, hframes, -, -, rfl⟩ := endMap_eq_ok_iff.mp hok
  exact (stands_closed h hframes).folded _

end Folding

/-! ## Decoding steps -/

/-- From a folder of a certain kind, a decoding step that succeeds leads to one of another. -/
structure Decoder.Brings {σ α : Type} (before after : Folder → Prop) (step : Decoder σ α) : Prop where
  after : ∀ {d a d'}, before d.folder → step d = .ok a d' → after d'.folder

namespace Decoder.Brings

variable {σ ε α β ρ : Type} {step : Decoder σ α} {before middle after : Folder → Prop}

theorem pure (a : α) : Brings before before (pure a : Decoder σ α) where
  after h hok := by cases hok; exact h

theorem throw (e : Error) : Brings before after (throw e : Decoder σ α) where
  after _ hok := by cases hok

theorem bind {next : α → Decoder σ β} (h : Brings before middle step)
    (hnext : ∀ a, Brings middle after (next a)) : Brings before after (step >>= next) where
  after hd hok := by
    obtain ⟨a, d₁, hstep, hok⟩ := Steps.bind_eq_ok_iff.mp hok
    exact (hnext a).after (h.after hd hstep) hok

theorem mono (h : Brings before middle step) (hafter : ∀ f, middle f → after f) :
    Brings before after step where
  after hd hok := hafter _ (h.after hd hok)

/-- A step of reading leaves the folder as it is. -/
theorem reading {wrap : ε → Error} (reader : EStateM ε σ α) :
    Brings before before (Decoder.reading wrap reader) where
  after hd hok := by
    obtain ⟨input, -, rfl⟩ := reading_eq_ok_iff.mp hok
    exact hd

theorem rest : Brings before before Decoder.rest where
  after hd hok := by cases hok; exact hd

theorem fold {e : Event} (h : ∀ {f u f'}, before f → Folding.event e f = .ok u f' → after f') :
    Brings before after (Decoder.fold e : Decoder σ Unit) where
  after hd hok := by
    obtain ⟨f, hevent, rfl⟩ := fold_eq_ok_iff.mp hok
    exact h hd hevent

theorem times {step : Decoder σ Unit} (h : Brings before before step) (n : Nat) :
    Brings before before (Loop.times step n) := by
  induction n with
  | zero => exact pure ()
  | succ n ih => exact bind h fun _ => ih

theorem rounds {step : Nat → Decoder σ Bool} (h : ∀ round, Brings before before (step round))
    (round : Nat) (room : List ρ) : Brings before before (Loop.rounds step round room) := by
  induction room generalizing round with
  | nil => exact bind (h round) fun _ => pure ()
  | cons _ room ih =>
    refine bind (h round) fun more => ?_
    cases more with
    | true => exact ih (round + 1)
    | false => exact pure ()

end Decoder.Brings

end TreeDigest
