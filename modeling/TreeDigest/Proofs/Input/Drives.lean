import TreeDigest.Codec
import TreeDigest.Input.Decoding
import TreeDigest.Proofs.Fold.Depth
import TreeDigest.Proofs.Input.Reads

/-!
# What a decoder hands to its folder

On an input that a writer wrote, a decoder does to its folder what a list of events
does to it: it ends behind what was written if the folder takes all of them, and with
the error of the folder if not. `Drives` says so of a step, and goes through sequences
and loops, event after event.

Places are described by predicates, since formats differ in what has to be known of
them. A step that fails is not described further: nothing comes after it.
-/

namespace TreeDigest

/--
From a place of one kind, a decoding step hands certain events to its folder. If
these are taken, it gives a result at a place of another kind; if not, it fails with
the error of the folder.
-/
structure Decoder.Drives {σ α : Type} (step : Decoder σ α) (before : σ → Prop) (f : Folder)
    (es : List Event) (a : α) (after : σ → Prop) : Prop where
  apply : ∀ input, before input → match Folding.events es f with
    | .ok _ f' => ∃ input', after input' ∧ step ⟨input, f⟩ = .ok a ⟨input', f'⟩
    | .error e _ => ∃ d, step ⟨input, f⟩ = .error e d

namespace Decoder.Drives

variable {σ ε α β : Type} {step : Decoder σ α} {next : α → Decoder σ β} {f : Folder}
  {before middle after : σ → Prop} {es fs : List Event} {a : α} {b : β}

theorem ok (h : step.Drives before f es a after) {input : σ} (hinput : before input) {f' : Folder}
    {u : Unit} (hes : Folding.events es f = .ok u f') :
    ∃ input', after input' ∧ step ⟨input, f⟩ = .ok a ⟨input', f'⟩ := by
  have happly := h.apply input hinput
  rwa [hes] at happly

theorem error (h : step.Drives before f es a after) {input : σ} (hinput : before input)
    {f' : Folder} {e : Error} (hes : Folding.events es f = .error e f') :
    ∃ d, step ⟨input, f⟩ = .error e d := by
  have happly := h.apply input hinput
  rwa [hes] at happly

/-! ## Sequences -/

theorem pure : Drives (pure a : Decoder σ α) before f [] a before where
  apply input hinput := ⟨input, hinput, rfl⟩

theorem bind (h : step.Drives before f es a middle)
    (hnext : ∀ f', Folding.events es f = .ok () f' → (next a).Drives middle f' fs b after) :
    (step >>= next).Drives before f (es ++ fs) b after where
  apply input hinput := by
    cases hes : Folding.events es f with
    | ok _ f' =>
      obtain ⟨input', hmiddle, hstep⟩ := h.ok hinput hes
      rw [Folding.events_append hes, Steps.bind_ok hstep]
      exact (hnext f' hes).apply input' hmiddle
    | error e f' =>
      obtain ⟨f'', hes'⟩ : ∃ f'', Folding.events (es ++ fs) f = .error e f'' :=
        Folding.events_append_error ⟨f', hes⟩
      rw [hes']
      exact Steps.bind_fails (h.error hinput hes)

/-- A step that hands over nothing, before one that may. -/
theorem bind_nil (h : step.Drives before f [] a middle)
    (hnext : (next a).Drives middle f fs b after) : (step >>= next).Drives before f fs b after :=
  bind h fun f' hes => by cases hes; exact hnext

/-- A step that hands over nothing, after one that may. -/
theorem bind_last (h : step.Drives before f es a middle)
    (hnext : ∀ f', (next a).Drives middle f' [] b after) :
    (step >>= next).Drives before f es b after := by
  have hbind := bind h fun f' _ => hnext f'
  rwa [List.append_nil] at hbind

/-! ## Readers and events -/

theorem reading {wrap : ε → Error} {reader : EStateM ε σ α}
    (h : ∀ input, before input → ∃ input', after input' ∧ reader input = .ok a input') :
    (Decoder.reading wrap reader).Drives before f [] a after where
  apply input hinput := by
    obtain ⟨input', hafter, hread⟩ := h input hinput
    refine ⟨input', hafter, ?_⟩
    rw [Decoder.reading]
    dsimp only
    rw [hread]

theorem fold {e : Event} : (Decoder.fold e : Decoder σ Unit).Drives before f [e] () before where
  apply input hinput := by
    rw [← Folding.event_eq, Decoder.fold]
    cases Folding.event e f with
    | ok _ f' => exact ⟨input, hinput, rfl⟩
    | error e f' => exact ⟨_, rfl⟩

/-- An event, before steps that go on from the folder that took it. -/
theorem fold_bind {e : Event} {next : Unit → Decoder σ β}
    (hnext : ∀ f', Folding.event e f = .ok () f' → (next ()).Drives before f' fs b after) :
    (Decoder.fold e >>= next).Drives before f (e :: fs) b after :=
  bind fold fun f' hes => hnext f' (by rwa [Folding.event_eq])

/-- An event that the folder refuses, before anything at all. -/
theorem refused {e : Event} {fault : Error} {f' : Folder} {next : Unit → Decoder σ β}
    (h : Folding.event e f = .error fault f') :
    (Decoder.fold e >>= next).Drives before f (e :: fs) b after :=
  fold_bind fun f' hok => by rw [h] at hok; cases hok

/-! ## Loops

In both loops the entries are handed over one after the other. What is known of the
folder is an invariant of the entries that it was handed so far.
-/

section Loops

variable {γ : Type} {xs : List γ} {events : γ → List Event} (place : List γ → List γ → σ → Prop)
  (I : List γ → Folder → Prop)

/-- A loop of as many rounds as there are entries. -/
theorem times {step : Decoder σ Unit}
    (h : ∀ seen x left, xs = seen ++ x :: left → ∀ f, I seen f →
      step.Drives (place seen (x :: left)) f (events x) () (place (seen ++ [x]) left))
    (hkeeps : ∀ seen x left, xs = seen ++ x :: left → ∀ f f', I seen f →
      Folding.events (events x) f = .ok () f' → I (seen ++ [x]) f')
    (hf : I [] f) :
    Drives (Loop.times step xs.length) (place [] xs) f (xs.flatMap events) () (place xs []) := by
  -- by induction on what is left, since the invariant is about what was handed over
  have hfrom : ∀ seen left, xs = seen ++ left → ∀ f, I seen f →
      Drives (Loop.times step left.length) (place seen left) f (left.flatMap events) ()
        (place xs []) := by
    intro seen left
    induction left generalizing seen with
    | nil =>
      intro hxs f _
      rw [List.append_nil] at hxs
      exact hxs ▸ pure
    | cons x left ih =>
      intro hxs f hf
      have hxs' : xs = (seen ++ [x]) ++ left := by rw [hxs, List.append_assoc]; rfl
      exact bind (h seen x left hxs f hf) fun f' hes =>
        ih (seen ++ [x]) hxs' f' (hkeeps seen x left hxs f f' hf hes)
  exact hfrom [] xs rfl f hf

/-- A loop that goes on until a round, after the last entry, says no. -/
theorem rounds {ρ : Type} {step : Nat → Decoder σ Bool} {room : List ρ}
    (h : ∀ seen x left, xs = seen ++ x :: left → ∀ f, I seen f →
      (step seen.length).Drives (place seen (x :: left)) f (events x) true (place (seen ++ [x]) left))
    (hkeeps : ∀ seen x left, xs = seen ++ x :: left → ∀ f f', I seen f →
      Folding.events (events x) f = .ok () f' → I (seen ++ [x]) f')
    (hlast : ∀ f, (step xs.length).Drives (place xs []) f [] false after)
    (hroom : xs.length ≤ room.length) (hf : I [] f) :
    Drives (Loop.rounds step 0 room) (place [] xs) f (xs.flatMap events) () after := by
  -- the room of the loop shrinks with what is left, and is never the shorter one
  have hfrom : ∀ (seen left : List γ) (room : List ρ), xs = seen ++ left →
      left.length ≤ room.length → ∀ f, I seen f →
      Drives (Loop.rounds step seen.length room) (place seen left) f (left.flatMap events) () after := by
    intro seen left
    induction left generalizing seen with
    | nil =>
      intro room hxs _ f _
      rw [List.append_nil] at hxs
      subst hxs
      cases room with
      | nil => exact bind_nil (hlast f) pure
      | cons _ room => exact bind_nil (hlast f) pure
    | cons x left ih =>
      intro room hxs hroom f hf
      cases room with
      | nil => cases hroom
      | cons _ room =>
        have hxs' : xs = (seen ++ [x]) ++ left := by rw [hxs, List.append_assoc]; rfl
        refine bind (h seen x left hxs f hf) fun f' hes => ?_
        have hloop := ih (seen ++ [x]) room hxs' (Nat.le_of_succ_le_succ hroom) f'
          (hkeeps seen x left hxs f f' hf hes)
        rwa [List.length_append, List.length_singleton] at hloop
  exact hfrom [] xs room rfl hroom f hf

end Loops

/-! ## Whole inputs -/

/-- What a decoder with a fresh folder gives on an input that it goes over to its end. -/
theorem run {step finished : Decoder σ Unit} {input : σ} {o : FoldOptions} {ended : σ → Prop}
    (h : step.Drives before (.start .decode o) es () after) (hinput : before input)
    (hend : ∀ f, finished.Drives after f [] () ended) :
    Decoder.run (do step; finished; Decoder.finish) input o = foldEvents .decode es o := by
  rw [Decoder.run, foldEvents]
  cases hes : Folding.events es (.start .decode o) with
  | ok _ f =>
    obtain ⟨input₁, hafter, hstep⟩ := h.ok hinput hes
    obtain ⟨input₂, -, hfinished⟩ := (hend f).ok hafter (rfl : Folding.events [] f = .ok () f)
    rw [Steps.bind_ok hstep, Steps.bind_ok hfinished, Decoder.finish,
      Steps.bind_ok (Steps.get_apply _)]
    dsimp only
    cases f.finish <;> rfl
  | error e f =>
    obtain ⟨d, hstep⟩ := h.error hinput hes
    rw [Steps.bind_error hstep]

end Decoder.Drives

/-! ## Octets -/

/-- A place in front of certain octets. -/
def Cursor.Before (bytes : Bytes) (c : Cursor) : Prop := c.rest = bytes

namespace Decoder.Drives

open Cursor (Before)

variable {α β : Type} {next : Nat → Decoder Cursor β} {reader : Reader α} {f : Folder}
  {bytes rest : Bytes} {before after : Cursor → Prop} {fs : List Event} {a : α} {b : β}

/-- What a reader reads a decoder takes. -/
theorem read (h : reader.Reads bytes a) :
    (Decoder.read reader).Drives (Before (bytes ++ rest)) f [] a (Before rest) := by
  refine reading fun c hc => ?_
  obtain ⟨offset, octets⟩ := c
  obtain rfl : octets = bytes ++ rest := hc
  exact ⟨⟨offset + bytes.length, rest⟩, rfl, h.apply offset rest⟩

/-- A reader that only looks at what comes next. -/
theorem look (h : ∀ offset, reader ⟨offset, bytes⟩ = .ok a ⟨offset, bytes⟩) :
    (Decoder.read reader).Drives (Before bytes) f [] a (Before bytes) := by
  refine reading fun c hc => ?_
  obtain ⟨offset, octets⟩ := c
  obtain rfl : octets = bytes := hc
  exact ⟨⟨offset, octets⟩, rfl, h offset⟩

/-- Nothing is left, and so the end of the input is found. -/
theorem finished : (Decoder.read Reader.finished).Drives (Before []) f [] () (Before []) :=
  look fun _ => rfl

/-- The current offset, whatever it is. -/
theorem offset_bind (h : ∀ offset, (next offset).Drives before f fs b after) :
    (Decoder.read Reader.offset >>= next).Drives before f fs b after where
  apply c hc := by
    have hoffset : Decoder.read Reader.offset ⟨c, f⟩ = .ok c.offset ⟨c, f⟩ := rfl
    rw [Steps.bind_ok hoffset]
    exact (h c.offset).apply c hc

/-- All octets that are left. -/
theorem left : Decoder.rest.Drives (Before bytes) f [] bytes (Before bytes) where
  apply c hc := by
    obtain rfl : c.rest = bytes := hc
    exact ⟨c, rfl, rfl⟩

end Decoder.Drives

/-! ## Codecs -/

/-- About certain octets a codec answers what folding a tree answers, under every limit. -/
structure Codec.Recovers (codec : Codec) (bytes : Bytes) (t : Tree) : Prop where
  /-- The digest is that of the tree, if the tree fits the limit. -/
  within : ∀ o : FoldOptions, t.depth ≤ o.depthLimit →
    ∃ digest, foldTree t o = .ok digest ∧ codec.decode bytes o = .ok digest
  /-- The limit is reported, if it does not. -/
  beyond : ∀ o : FoldOptions, o.depthLimit < t.depth →
    codec.decode bytes o = .error (.decode (.depthExceeded o.depthLimit))

theorem Codec.Recovers.of_eq_ite {codec : Codec} {bytes : Bytes} {t : Tree} (ht : t.Countable)
    (h : ∀ o : FoldOptions, codec.decode bytes o = if t.depth ≤ o.depthLimit then .ok (t.digest o)
      else .error (.decode (.depthExceeded o.depthLimit))) : codec.Recovers bytes t where
  within o hdepth := ⟨t.digest o, foldTreeOn_eq hdepth ht, (h o).trans (if_pos hdepth)⟩
  beyond o hdepth := (h o).trans (if_neg (Nat.not_le.mpr hdepth))

end TreeDigest
