import TreeDigest.Registry
import TreeDigest.Proofs.Json.Errors
import TreeDigest.Proofs.MessagePack.Errors
import TreeDigest.Proofs.Bson.Errors
import TreeDigest.Proofs.Ubjson.Errors

/-!
# Errors on their own side

What a decoder reports is a defect of its input, and what an encoder reports is something
its format has no form for, or too deep a tree. A violation of the order of events is not
among them: the folder is never told of a value where none can come, nor of more or fewer
entries than were announced.

There is one exception, and it is not of the order. A container can have more entries than
there are numbers for. A MessagePack container announces all that it has, and a BSON document
says how long it is, so it happens to readers of the two other formats only, and only on
inputs of four gibibytes or more.
-/

namespace TreeDigest.Codec

variable {codec : Codec} {input : Bytes} {o : FoldOptions}

/-- A container of an input has more entries than can be counted. -/
inductive Overfull (input : Bytes) (o : FoldOptions) : Codec → Prop
  | stream : 0x100000000 ≤ input.length → Json.Visitor.Overflows input o →
      Overfull input o Json.stream
  | dom {t : Tree} : 0x100000000 ≤ input.length →
      Json.readTree Json.dom.name input = .ok t → ¬ t.Countable →
      Overfull input o Json.dom
  | ubjson {codec : Codec} : codec ∈ ofFormat .ubjson → 0x100000000 ≤ input.length →
      Decoder.Overflows (Decoder.whole (Ubjson.fold o.depthLimit)) (Cursor.start input) o →
      Overfull input o codec

/-- No input of less than four gibibytes has so many. -/
theorem Overfull.length_le (h : codec.Overfull input o) : 0x100000000 ≤ input.length := by
  cases h with
  | stream hlen => exact hlen
  | dom hlen => exact hlen
  | ubjson _ hlen => exact hlen

theorem decode_answered (h : codec ∈ all) (input : Bytes) (o : FoldOptions) :
    Answered (codec.Overfull input o) (codec.decode input o) := by
  have hmem : codec ∈ ofFormat codec.format :=
    List.mem_filter.mpr ⟨h, beq_self_eq_true codec.format⟩
  cases hformat : codec.format with
  | json =>
    rw [hformat, Json.codecs_eq] at hmem
    rcases List.mem_cons.mp hmem with rfl | hmem
    · exact (Json.decodeStream_answered input o).mono fun hfull => .stream hfull.1 hfull.2
    · obtain rfl := List.mem_singleton.mp hmem
      exact (Json.decodeTree_answered input o).mono fun ⟨hlen, _, hread, ht⟩ =>
        .dom hlen hread ht
  | messagePack =>
    exact (MessagePack.decode_answered (hformat ▸ hmem) input o).mono False.elim
  | bson => exact (Bson.decode_answered (hformat ▸ hmem) input o).mono False.elim
  | ubjson =>
    rw [hformat] at hmem
    rw [Ubjson.decode_eq hmem]
    exact (Ubjson.decode_answered input o).mono fun hfull => .ubjson hmem hfull.1 hfull.2

theorem encode_written (h : codec ∈ all) {t : Tree} (ht : t.Countable) (o : FoldOptions) :
    Written codec.name o.depthLimit (codec.encode t o) := by
  have hmem : codec ∈ ofFormat codec.format :=
    List.mem_filter.mpr ⟨h, beq_self_eq_true codec.format⟩
  cases hformat : codec.format with
  | json => exact Json.encode_written (hformat ▸ hmem) ht o
  | messagePack => exact MessagePack.encode_written (hformat ▸ hmem) ht o
  | bson => exact Bson.encode_written (hformat ▸ hmem) ht o
  | ubjson => exact Ubjson.encode_written (hformat ▸ hmem) ht o

/-! ## At the top -/

/--
**Every error is of its own side.** About an input a codec answers with a digest or with
a defect of the input, and the defect is never a wrong count. About a tree that can be
counted it answers with the encoding, with what of the tree it has no form for, or with
the limit that the tree exceeds.
-/
theorem errors_on_their_side (h : codec ∈ all) :
    (∀ input o, Answered (codec.Overfull input o) (codec.decode input o)) ∧
      ∀ t : Tree, t.Countable → ∀ o, Written codec.name o.depthLimit (codec.encode t o) :=
  ⟨decode_answered h, fun _ ht => encode_written h ht⟩

/-- Neither an empty input nor a number at the root is a violation. -/
theorem errors_on_their_side_bson :
    Bson.stream ∈ all ∧ Tree.Countable (.uint 7) ∧
    (∀ fault, Bson.stream.decode [] {} ≠ .error (.protocol fault)) ∧
    ∀ fault, Bson.stream.encode (.uint 7) {} ≠ .error (.protocol fault) := by
  have hcodec : Bson.stream ∈ all := by simp [all]
  have hcount : Tree.Countable (.uint 7) := show (0 : Nat) < 0x100000000 by decide
  obtain ⟨hdecode, hencode⟩ := errors_on_their_side hcodec
  refine ⟨hcodec, hcount, fun fault hfault => ?_, fun fault hfault => ?_⟩
  · cases hfault ▸ hdecode [] {} with
    | full hfull => exact absurd hfull.length_le (by decide)
  · cases hfault ▸ hencode _ hcount {}

end TreeDigest.Codec
