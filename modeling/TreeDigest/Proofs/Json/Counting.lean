import TreeDigest.Proofs.Input.Orderly
import TreeDigest.Proofs.Json.Direct

/-!
# Entries of a text are counted as they come

A text does not say how many entries a container has, so the folder counts them as they
come. Whatever the text is, the reader that folds hands over its events in order. So its
answer is a digest or an error of the input, but for a container with more entries than
there are numbers for.
-/

namespace TreeDigest.Json

open Decoder (Orderly)
open Decoding (At)

variable {codec : String} {levels : Nat} {g : Folder}

/-- At any place. -/
abbrev Anywhere (_ : Cursor) : Prop := True

/-- Whatever a parser fails with is a fault of the text. -/
theorem parse_orderly {α : Type} (parser : Parser α) :
    Orderly True (At Anywhere g) (Direct.parse codec parser) fun _ => At Anywhere g :=
  .reading (fun _ => ⟨_, rfl, nofun⟩) fun _ _ => trivial

/-- A text with more containers open than it can have is at fault. -/
theorem tooDeep_orderly {after : Unit → Decoding Cursor → Prop} :
    Orderly True (At Anywhere g) (Direct.parse codec (Parser.fail .tooDeep)) after where
  ok _ hok := by cases hok
  error hd herror := (parse_orderly _).error hd herror

theorem rest_orderly : Orderly True (At Anywhere g) Direct.rest fun _ => At Anywhere g where
  ok hd hok := by cases hok; exact hd
  error _ herror := by cases herror

/-- Without a declared count, an entry can always follow. -/
theorem undeclared (seen : UInt32) : (seen = Folder.greatestCount → True) ∧
    Folder.surplus? none (seen + 1) = none := ⟨fun _ => trivial, rfl⟩

/-- From every folder that is ready for a value, a step counts one or fails for a reason. -/
structure Counting (step : Decoder Cursor Unit) : Prop where
  orderly : ∀ {g}, g.Ready True → Orderly True (At Anywhere g) step fun _ => At Anywhere g.counted

theorem foldItem_orderly {value : Decoder Cursor Unit} (h : Counting value) (hg : g.Ready True)
    (round : Nat) (seen : UInt32) : Orderly True (At Anywhere (g.inList none seen))
      (Direct.foldItem codec value round)
      fun more => At Anywhere (g.inList none (if more then seen + 1 else seen)) := by
  refine .bind (parse_orderly _) fun more => ?_
  cases more with
  | false => exact .pure fun _ hd => hd
  | true => exact .bind (h.orderly (hg.inList (undeclared seen))) fun _ => .pure fun _ hd => hd

theorem foldMember_orderly {value : Decoder Cursor Unit} (h : Counting value) (hg : g.Ready True)
    (round : Nat) (seen : UInt32) : Orderly True (At Anywhere (g.inMap none seen false none))
      (Direct.foldMember codec value round)
      fun more => At Anywhere (g.inMap none (if more then seen + 1 else seen) false none) := by
  refine .bind (parse_orderly _) fun more => ?_
  cases more with
  | false => exact .pure fun _ hd => hd
  | true =>
    refine .bind (parse_orderly _) fun k => .bind (.fold (Folding.key_turns k)) fun _ => ?_
    refine .bind (parse_orderly _) fun _ => ?_
    exact .bind (h.orderly (hg.inMap (undeclared seen))) fun _ => .pure fun _ hd => hd

/-- Entries up to the end of a container, each of them counted. -/
theorem rounds_orderly {step : Nat → Decoder Cursor Bool} {room : Bytes} {inside : UInt32 → Folder}
    (h : ∀ round seen, Orderly True (At Anywhere (inside seen)) (step round)
      fun more => At Anywhere (inside (if more then seen + 1 else seen))) :
    Orderly True (At Anywhere (inside 0)) (Loop.rounds step 0 room)
      fun _ d => ∃ seen, At Anywhere (inside seen) d := by
  refine (Orderly.rounds (fun round => At Anywhere (inside round.toUInt32)) (fun round => ?_) 0
    room).mono (fun _ hd => hd) fun _ d ⟨seen, hd⟩ => ⟨seen.toUInt32, hd⟩
  refine (h round round.toUInt32).mono (fun _ hd => hd) fun more d hd => ?_
  cases more with
  | false => exact hd
  | true => rwa [if_pos rfl, Folder.succ_toUInt32] at hd

/-- **A value of a text counts as one, or fails for a reason.** -/
theorem fold_counting (levels : Nat) : Counting (Direct.fold codec levels) := by
  induction levels with
  | zero =>
    refine ⟨fun {g} hg => ?_⟩
    rw [Direct.fold]
    refine .bind (parse_orderly _) fun next => ?_
    cases next with
    | number n => cases n <;> exact .fold (Folding.scalar_turns _ hg)
    | listStart => exact tooDeep_orderly
    | objectStart => exact tooDeep_orderly
    | _ => exact .fold (Folding.scalar_turns _ hg)
  | succ levels ih =>
    refine ⟨fun {g} hg => ?_⟩
    rw [Direct.fold]
    refine .bind (parse_orderly _) fun next => ?_
    cases next with
    | number n => cases n <;> exact .fold (Folding.scalar_turns _ hg)
    | listStart =>
      refine .bind (.fold (Folding.beginList_turns none hg)) fun _ => .bind rest_orderly fun room => ?_
      refine .bind (rounds_orderly (foldItem_orderly ih hg)) fun _ => .bind (.of_exists fun seen => ?_)
        fun _ => parse_orderly _
      exact .fold (Folding.endList_turns hg rfl)
    | objectStart =>
      refine .bind (.fold (Folding.beginMap_turns none hg)) fun _ => .bind rest_orderly fun room => ?_
      refine .bind (rounds_orderly (foldMember_orderly ih hg)) fun _ =>
        .bind (.of_exists fun seen => ?_) fun _ => parse_orderly _
      exact .fold (Folding.endMap_turns hg rfl)
    | _ => exact .fold (Folding.scalar_turns _ hg)

/-! ## Whole texts -/

/-- In a text the visitor gives up in a container with as many entries as there are numbers for. -/
def Visitor.Overflows (input : Bytes) (o : FoldOptions) : Prop :=
  ∃ fault s, Visitor.document ⟨Cursor.start input, .start .decode o, none⟩ = .error fault s ∧
    s.noted = some (.protocol .countOverflow) ∧ s.folder.Full

/-- A fold that has ended does not fail with a count. -/
theorem finish_ne_overflow (f : Folder) : f.finish ≠ .error (.protocol .countOverflow) := by
  unfold Folder.finish
  split
  · split <;> nofun
  · nofun

theorem visitor_overflows {input : Bytes} {o : FoldOptions}
    (h : Decoder.Overflows (do Direct.document codec; Decoder.finish) (Cursor.start input) o) :
    Visitor.Overflows input o := by
  obtain ⟨d, hstep, hfull⟩ := h
  rcases Steps.bind_eq_error_iff.mp hstep with hdocument | ⟨_, d₁, -, hfinish⟩
  · obtain ⟨fault, hnoted | ⟨-, hreports⟩⟩ := Visitor.notes_document.error hdocument
    · exact ⟨fault, _, hnoted, rfl, hfull⟩
    · cases hreports
  · rw [Decoder.finish, Steps.bind_ok (Steps.get_apply _)] at hfinish
    cases hend : d₁.folder.finish with
    | ok digest => rw [hend] at hfinish; cases hfinish
    | error e =>
      rw [hend] at hfinish
      cases hfinish
      exact absurd hend (finish_ne_overflow _)

/-- **What is folded while it is read is answered with a digest or for a reason of the text.** -/
theorem decodeStream_orderly (codec : String) (input : Bytes) (o : FoldOptions) :
    Answered (Visitor.Overflows input o) (decodeStream codec input o) := by
  have hanswered : Answered (True ∧ Decoder.Overflows (do
      Direct.fold codec nestingCeiling
      Direct.parse codec Parser.finished
      Decoder.finish) (Cursor.start input) o) _ :=
    ((fold_counting nestingCeiling).orderly (Folder.ready_start o)).run
      (parse_orderly Parser.finished) trivial
  have hdocument : (do Direct.document codec; Decoder.finish : Decoder Cursor Digest) = (do
      Direct.fold codec nestingCeiling
      Direct.parse codec Parser.finished
      Decoder.finish) := by rw [Direct.document, bind_assoc]
  rw [← hdocument] at hanswered
  rw [decodeStream_eq]
  exact hanswered.mono fun hfull => visitor_overflows hfull.2

end TreeDigest.Json
