import TreeDigest.Proofs.Input.Brings
import TreeDigest.Proofs.Input.Continues
import TreeDigest.Proofs.Ubjson.Inverse

/-!
# UBJSON inputs that go on

No-ops are passed over as far as they go, so passing over them alone does not persist: at
the end of an input there may be more of them. With the octet of a marker behind it, it
does. A container without a count goes on as long as no marker closes it, and every entry
takes the octet of a marker at least, so that the loop is never cut short.
-/

namespace TreeDigest.Ubjson

open Reader (Persists)
open Steps (Outlasts)

variable {α : Type} {levels : Nat} {shape : Shape} {c c' : Cursor} {more : Bytes}

/-! ## Markers -/

theorem afterNoops_reaches (offset : Nat) (bytes : Bytes) :
    (⟨offset, bytes⟩ : Cursor).Reaches (afterNoops offset bytes) := by
  induction bytes generalizing offset with
  | nil => exact .refl _
  | cons b bytes ih =>
    rw [afterNoops]
    split
    · exact .trans ⟨[b], rfl, rfl⟩ (ih (offset + 1))
    · exact .refl _

/-- Where something follows the no-ops, the same follows them in a longer input. -/
theorem afterNoops_append {offset : Nat} {bytes : Bytes} (h : (afterNoops offset bytes).rest ≠ []) :
    afterNoops offset (bytes ++ more) = (afterNoops offset bytes).followed more := by
  induction bytes generalizing offset with
  | nil => exact absurd rfl h
  | cons b bytes ih =>
    rw [afterNoops] at h
    rw [List.cons_append, afterNoops, afterNoops]
    split
    · rename_i hnoop
      rw [if_pos hnoop] at h
      exact ih h
    · rfl

/-- A reader that lacks an octet at the end of an input may have no-ops in front of it. -/
theorem noops_persist {reader : Reader α} (h : reader.Persists)
    (hend : ∀ offset, reader ⟨offset, []⟩ = .error (.truncated offset 1) ⟨offset, []⟩) :
    Persists (do skipNoops; reader) := by
  refine .of_longer (.bind (.modify _) fun _ => h.uncounting) (fun {more c a c'} hok => ?_) fun {more c e c'} herror => ?_
  · have hread : reader (afterNoops c.offset c.rest) = .ok a c' := hok
    have hrest : (afterNoops c.offset c.rest).rest ≠ [] := by
      intro hnil
      rw [show afterNoops c.offset c.rest = ⟨_, []⟩ from congrArg (Cursor.mk _) hnil, hend] at hread
      cases hread
    obtain ⟨hlonger, hreaches⟩ := (h.outlasts more _).ok hread
    refine ⟨?_, (afterNoops_reaches c.offset c.rest).trans hreaches⟩
    show reader (afterNoops c.offset (c.rest ++ more)) = _
    rw [afterNoops_append hrest]
    exact hlonger
  · have hread : reader (afterNoops c.offset c.rest) = .error e c' := herror
    by_cases hrest : (afterNoops c.offset c.rest).rest = []
    · rw [show afterNoops c.offset c.rest = ⟨_, []⟩ from congrArg (Cursor.mk _) hrest, hend] at hread
      cases hread
      refine .of_one fun hmore => ?_
      rw [hmore, Cursor.followed, List.append_nil]
      exact ⟨_, herror⟩
    · refine (Reader.still_of_outlasts (h.outlasts more _) hread).mono fun e' hlonger => ?_
      obtain ⟨c'', hlonger⟩ := hlonger
      refine ⟨c'', ?_⟩
      show reader (afterNoops c.offset (c.rest ++ more)) = _
      rw [afterNoops_append hrest]
      exact hlonger

theorem marker_persists : marker.Persists := noops_persist .octet fun _ => rfl

theorem peekMarker_persists : peekMarker.Persists := noops_persist .peek fun _ => rfl

theorem rest_of_peekMarker {b : UInt8} (h : peekMarker c = .ok b c') : c'.rest ≠ [] := by
  obtain ⟨_, c₁, -, hpeek⟩ := Steps.bind_eq_ok_iff.mp h
  obtain ⟨offset, rest⟩ := c₁
  cases rest with
  | nil => cases hpeek
  | cons b rest =>
    cases hpeek
    exact List.cons_ne_nil _ _

/-- A marker that was looked at is there to be moved past. -/
theorem peekMarker_skip_persists {found other : Reader α} {m : UInt8} (hfound : found.Persists)
    (hother : other.Persists) :
    Persists (do
      if (← peekMarker) = m then
        Reader.skip
        found
      else other) where
  outlasts more c := by
    refine (peekMarker_persists.outlasts more c).bind fun b c₁ hpeek _ => ?_
    split
    · exact (Reader.outlasts_skip (rest_of_peekMarker hpeek)).bind fun _ c₂ _ _ =>
        hfound.outlasts more c₂
    · exact hother.outlasts more c₁
  uncounting := by
    refine peekMarker_persists.uncounting.bind fun b => ?_
    split
    · exact .bind .skip fun _ => hfound.uncounting
    · exact hother.uncounting

/-! ## Lengths and heads -/

theorem integerOf_persists (form : IntegerForm) : (integerOf form).Persists := .map (.big _) _

theorem integer_persists (marker : UInt8) : (integer marker).Persists := by
  unfold integer
  split
  · exact integerOf_persists _
  · exact .bind .offset fun _ => .malformed _ _

theorem length_persists : length.Persists := by
  refine .bind .offset fun offset => .bind marker_persists fun marker => ?_
  refine .bind (integer_persists marker) fun n => ?_
  split
  · exact .malformed _ _
  · exact .pure _

theorem text_persists : text.Persists := by
  refine .bind .offset fun offset => .bind length_persists fun n => .bind (.take n) fun octets => ?_
  split
  · exact .pure _
  · exact .malformed _ _

theorem sharedMarker_persists : sharedMarker.Persists := by
  refine peekMarker_skip_persists ?_ (.pure none)
  refine .bind .offset fun offset => .bind .octet fun shared => ?_
  split
  · refine .bind peekMarker_persists fun b => ?_
    split
    · exact .pure _
    · exact .bind .offset fun _ => .malformed _ _
  · exact .unsupportedType _ _

theorem entryCount_persists : entryCount.Persists := by
  refine peekMarker_skip_persists ?_ (.pure none)
  refine .bind .offset fun offset => .bind length_persists fun n => ?_
  split
  · exact .pure _
  · exact .malformed _ _

theorem heading_persists : heading.Persists :=
  .bind sharedMarker_persists fun _ => .map entryCount_persists _

/-! ## Elements -/

section Elements

open Decoder (Persists Shortens)

theorem marked_persists {payload : UInt8 → Nat → Decoder Cursor Unit}
    (h : ∀ marker offset, (payload marker offset).Persists) : (marked payload).Persists :=
  .bind (.read .offset) fun offset => .bind (.read marker_persists) fun marker => h marker offset

theorem entry_persists {value : Decoder Cursor Unit} (h : value.Persists) :
    (entry shape value).Persists := by
  cases shape with
  | list => exact h
  | map => exact .bind (.read text_persists) fun k => .bind (.fold (.key k)) fun _ => h

theorem marker_shortens : (Decoder.read marker).Shortens := by
  refine ⟨fun {d b d'} hok => ?_⟩
  obtain ⟨c, hmarker, rfl⟩ := Decoder.reading_eq_ok_iff.mp hok
  obtain ⟨_, c₁, hnoops, hoctet⟩ := Steps.bind_eq_ok_iff.mp hmarker
  cases hnoops
  obtain ⟨hrest, -⟩ := Reader.octet_eq_ok_iff.mp hoctet
  obtain ⟨taken, htaken, -⟩ := afterNoops_reaches d.input.offset d.input.rest
  show c.rest.length < d.input.rest.length
  rw [show d.input.rest = _ from htaken, hrest, List.length_append, List.length_cons]
  omega

theorem marked_shortens {payload : UInt8 → Nat → Decoder Cursor Unit}
    (h : ∀ marker offset, (payload marker offset).Persists) : (marked payload).Shortens :=
  .after (.read .offset) fun offset => .bind marker_shortens fun marker => h marker offset

theorem entry_shortens {value : Decoder Cursor Unit} (h : value.Shortens) :
    (entry shape value).Shortens := by
  cases shape with
  | list => exact h
  | map => exact .after (.read text_persists) fun k => .after (.fold (.key k)) fun _ => h

/-- One round of reading entries up to the marker that closes their container. -/
def closedRound (shape : Shape) (payload : UInt8 → Nat → Decoder Cursor Unit) (_ : Nat) :
    Decoder Cursor Bool := do
  if (← Decoder.read peekMarker) = endOctet shape then
    Decoder.read Reader.skip
    return false
  else
    entry shape (marked payload)
    return true

theorem entries_closed (shared : Option UInt8) (payload : UInt8 → Nat → Decoder Cursor Unit) :
    entries shape ⟨shared, none⟩ payload =
      (do Loop.rounds (closedRound shape payload) 0 (← Decoder.rest)) := rfl

/-- A round that goes on reads an entry, and that takes an octet. -/
theorem closedRound_shorter {payload : UInt8 → Nat → Decoder Cursor Unit}
    (h : ∀ marker offset, (payload marker offset).Persists) (round : Nat)
    {d d' : Decoding Cursor} (hok : closedRound shape payload round d = .ok true d') :
    d'.input.rest.length < d.input.rest.length := by
  obtain ⟨b, d₁, hpeek, hok⟩ := Steps.bind_eq_ok_iff.mp hok
  have hle := (Persists.read peekMarker_persists).rest_le hpeek
  split at hok
  · obtain ⟨_, d₂, -, hok⟩ := Steps.bind_eq_ok_iff.mp hok
    cases hok
  · obtain ⟨_, d₂, hentry, hok⟩ := Steps.bind_eq_ok_iff.mp hok
    cases hok
    exact Nat.lt_of_lt_of_le ((entry_shortens (marked_shortens h)).shorter hentry) hle

theorem entries_persists {heading : Heading} {payload : UInt8 → Nat → Decoder Cursor Unit}
    (h : ∀ marker offset, (payload marker offset).Persists) :
    (entries shape heading payload).Persists := by
  have hmarked : (marked payload).Persists := marked_persists h
  obtain ⟨shared, count⟩ := heading
  cases count with
  | some count =>
    refine .bind (.read (.need _)) fun _ => ?_
    cases shared with
    | some shared =>
      exact .times (entry_persists (.bind (.read .offset) fun offset => h shared offset)) _
    | none => exact .times (entry_persists hmarked) _
  | none =>
    refine ⟨fun more d => Decoder.outlasts_rest_bind ?_⟩
    refine .rounds (fun d => d.input.rest.length) (fun round d' _ => ?_)
      (fun round _ _ _ hround => closedRound_shorter h round hround) (Nat.le_refl _) ?_
    · refine ((Persists.read peekMarker_persists).outlasts more d').bind fun b d₁ hpeek _ => ?_
      obtain ⟨c, hmarker, rfl⟩ := Decoder.reading_eq_ok_iff.mp hpeek
      split
      · exact (Decoder.outlasts_read (Reader.outlasts_skip (rest_of_peekMarker hmarker))).bind
          fun _ _ _ _ => .pure _
      · exact ((entry_persists hmarked).outlasts more _).bind fun _ _ _ _ => .pure _
    · show d.input.rest.length ≤ (d.input.rest ++ more).length
      rw [List.length_append]
      omega

/-- The entries of a container and its end, if there is a level left for it. -/
def body : (levels : Nat) → Shape → Heading → Decoder Cursor Unit
  | 0, _, _ => pure ()
  | levels + 1, shape, heading => do
    entries shape heading (foldMarked levels)
    Decoder.fold (endEvent shape)

/-- A whole container, after its opening marker. -/
def container (levels : Nat) (shape : Shape) : Decoder Cursor Unit := do
  let heading ← Decoder.read heading
  Decoder.fold (beginEvent shape heading.count)
  body levels shape heading

/-- What a marker can announce: a scalar with or without a payload, a container, or nothing. -/
inductive Announced (levels : Nat) : Decoder Cursor Unit → Prop where
  | scalar {e : Event} {p : Primitive} : Folding.event e = Folding.scalar p →
      Announced levels (Decoder.fold e)
  | payload {α : Type} {reader : Reader α} {e : α → Event} {p : α → Primitive} :
      reader.Persists → (∀ a, Folding.event (e a) = Folding.scalar (p a)) →
      Announced levels (do Decoder.fold (e (← Decoder.read reader)))
  | container (shape : Shape) : Announced levels (container levels shape)
  | nothing (offset : Nat) (marker : UInt8) :
      Announced levels (throw (.decode (.unsupportedType offset marker)))

theorem foldMarked_announced (levels : Nat) (marker : UInt8) (offset : Nat) :
    Announced levels (foldMarked levels marker offset) := by
  rw [foldMarked.eq_def]
  dsimp only
  split
  · exact .scalar rfl
  · exact .scalar rfl
  · exact .scalar rfl
  · exact .payload (integerOf_persists _) fun _ => rfl
  · exact .payload (.big 4) fun _ => rfl
  · exact .payload (.big 8) fun _ => rfl
  · exact .payload (.take 1) fun _ => rfl
  · exact .payload text_persists fun _ => rfl
  · cases levels <;> exact .container .list
  · cases levels <;> exact .container .map
  · exact .nothing offset marker

theorem Announced.persists {step : Decoder Cursor Unit} (h : Announced levels step)
    (hbody : ∀ shape heading, (body levels shape heading).Persists) : step.Persists := by
  cases h with
  | scalar _ => exact .fold _
  | payload hreader _ => exact .bind (.read hreader) fun _ => .fold _
  | container shape =>
    exact .bind (.read heading_persists) fun heading => .bind (.fold _) fun _ => hbody shape heading
  | nothing offset marker => exact .unsupportedType offset marker

theorem body_persists (shape : Shape) (heading : Heading) : (body levels shape heading).Persists := by
  induction levels generalizing shape heading with
  | zero => exact .pure ()
  | succ levels ih =>
    refine .bind (entries_persists fun marker offset => ?_) fun _ => .fold _
    exact (foldMarked_announced levels marker offset).persists ih

/-- **What a marker announces is read alike, whatever follows it.** -/
theorem foldMarked_persists (marker : UInt8) (offset : Nat) :
    (foldMarked levels marker offset).Persists :=
  (foldMarked_announced levels marker offset).persists body_persists

theorem fold_persists : (fold levels).Persists := marked_persists foldMarked_persists

end Elements

/-! ## Whole values -/

section Values

open Decoder (Brings)
open Folder (Stands Ends)

variable {limit depth : Nat} {before after : Folder → Prop}

theorem marked_brings {payload : UInt8 → Nat → Decoder Cursor Unit}
    (h : ∀ marker offset, Brings before after (payload marker offset)) :
    Brings before after (marked payload) :=
  .bind (.reading _) fun offset => .bind (.reading _) fun marker => h marker offset

theorem entry_brings {value : Decoder Cursor Unit}
    (h : Brings (Stands limit depth) (Stands limit depth) value) :
    Brings (Stands limit depth) (Stands limit depth) (entry shape value) := by
  cases shape with
  | list => exact h
  | map => exact .bind (.reading _) fun k => .bind (.fold Folding.key_stands) fun _ => h

theorem entries_brings {heading : Heading} {payload : UInt8 → Nat → Decoder Cursor Unit}
    (h : ∀ marker offset, Brings (Stands limit depth) (Stands limit depth) (payload marker offset)) :
    Brings (Stands limit depth) (Stands limit depth) (entries shape heading payload) := by
  obtain ⟨shared, count⟩ := heading
  cases count with
  | some count =>
    refine .bind (.reading _) fun _ => ?_
    cases shared with
    | some shared => exact .times (entry_brings (.bind (.reading _) fun offset => h shared offset)) _
    | none => exact .times (entry_brings (marked_brings h)) _
  | none =>
    refine .bind .rest fun room => .rounds (fun round => .bind (.reading _) fun b => ?_) 0 room
    split
    · exact .bind (.reading _) fun _ => .pure _
    · exact .bind (entry_brings (marked_brings h)) fun _ => .pure _

/-- A container is opened only where the limit allows one more. -/
def Begun (limit depth : Nat) (f : Folder) : Prop := depth < limit ∧ f.Stands limit (depth + 1)

theorem beginEvent_brings (declared : Option UInt32) : Brings (Stands limit depth)
    (Begun limit depth) (Decoder.fold (beginEvent shape declared) : Decoder Cursor Unit) := by
  cases shape with
  | list => exact .fold Folding.beginList_stands
  | map => exact .fold Folding.beginMap_stands

theorem endEvent_brings : Brings (Stands limit (depth + 1)) (Ends limit depth)
    (Decoder.fold (endEvent shape) : Decoder Cursor Unit) := by
  cases shape with
  | list => exact .fold Folding.endList_ends
  | map => exact .fold Folding.endMap_ends

theorem Announced.brings {step : Decoder Cursor Unit} (h : Announced levels step)
    (hbody : ∀ shape heading,
      Brings (Begun limit depth) (Ends limit depth) (body levels shape heading)) :
    Brings (Stands limit depth) (Ends limit depth) step := by
  cases h with
  | scalar hscalar => exact .fold fun hf hok => Folding.scalar_ends hf (hscalar ▸ hok)
  | payload _ hscalar =>
    exact .bind (.reading _) fun a => .fold fun hf hok => Folding.scalar_ends hf (hscalar a ▸ hok)
  | container shape =>
    exact .bind (.reading _) fun heading =>
      .bind (beginEvent_brings heading.count) fun _ => hbody shape heading
  | nothing offset marker => exact .throw _

/-- As many containers can be opened as there are levels, so that one more is never begun. -/
theorem body_brings (hlimit : limit = depth + levels) (shape : Shape) (heading : Heading) :
    Brings (Begun limit depth) (Ends limit depth) (body levels shape heading) := by
  induction levels generalizing depth shape heading with
  | zero => exact ⟨fun hf _ => absurd hf.1 (by omega)⟩
  | succ levels ih =>
    have hentries : Brings (Stands limit (depth + 1)) (Stands limit (depth + 1))
        (entries shape heading (foldMarked levels)) := entries_brings fun marker offset =>
      .mono ((foldMarked_announced levels marker offset).brings (ih (by omega))) fun _ hf =>
        hf.toStands
    exact ⟨fun hf hok => (hentries.bind fun _ => endEvent_brings).after hf.2 hok⟩

/-- **A whole value leaves as many containers open as there were.** -/
theorem fold_brings (hlimit : limit = depth + levels) :
    Brings (Stands limit depth) (Ends limit depth) (fold levels) :=
  marked_brings fun marker offset =>
    (foldMarked_announced levels marker offset).brings (body_brings hlimit)

end Values

/-- **Inputs that go on, for every UBJSON codec.** -/
theorem decode_continues {codec : Codec} (h : codec ∈ Codec.ofFormat .ubjson) (o : FoldOptions)
    (input more : Bytes) : Decoder.Continues (codec.decode · o) input more := by
  have hdecode : (codec.decode · o) = (decode · o) := funext fun input => decode_eq h input o
  rw [hdecode]
  refine .run fold_persists fun {d} hok => ?_
  have hlimit : o.depthLimit = 0 + o.depthLimit := (Nat.zero_add _).symm
  exact ((fold_brings hlimit).after (Folder.stands_start o) hok).finish

end TreeDigest.Ubjson
