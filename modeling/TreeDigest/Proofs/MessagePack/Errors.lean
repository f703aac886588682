import TreeDigest.Proofs.Input.Orderly
import TreeDigest.Proofs.MessagePack.Persists
import TreeDigest.Proofs.Output.Performs

/-!
# What goes wrong in MessagePack

No reader of MessagePack fails with a wrong count: a container whose entries cannot all be
there is a truncated input, and the entries that are there are as many as were said. All
decoders answer as the one that reads a tree first, and a tree that is read fits.

A writer has no form for a text or a container of too great a length, and otherwise does
what a walk over its tree does.
-/

namespace TreeDigest.MessagePack

/-! ## Reading -/

/-- **About every input every MessagePack codec answers with a digest or for a defect of it.** -/
theorem decode_answered {codec : Codec} (h : codec ∈ Codec.ofFormat .messagePack) (input : Bytes)
    (o : FoldOptions) : Answered False (codec.decode input o) := by
  rw [decode_eq h, decodeTree, readTree]
  exact read_persists.uncounting.answered read_fits

/-! ## Writing -/

section Writing

open Encoder (performs_fold performs_put performs_write)
open Steps (FailsWith)

variable {codec : String} {widths : Widths}

theorem fieldLength_refuses (n : Nat) (tooLong : Obstacle) :
    FailsWith (EncodeError.Refusal codec) (fieldLength codec n tooLong) := by
  unfold fieldLength
  split
  · exact .pure _
  · exact .throw ⟨tooLong, rfl⟩

theorem putText_refuses (octets : Bytes) :
    FailsWith (EncodeError.Refusal codec) (putText codec widths octets) :=
  .bind (fieldLength_refuses _ _) fun _ => .bind (.modify _) fun _ => .modify _

/-- The length of a container is its count, if there is one. -/
theorem fieldLength_performs (n : Nat) (tooLong : Obstacle) :
    Encoder.Performs codec (Encoder.write (fieldLength codec n tooLong)) (Folding.count n) where
  ok {s count s'} hok := by
    obtain ⟨out, hlength, rfl⟩ := Encoder.write_eq_ok_iff.mp hok
    obtain ⟨hn, rfl, rfl⟩ := fieldLength_ok hlength
    exact Folder.count_ok hn
  error {s e s'} herror := by
    unfold Encoder.write at herror
    split at herror
    · cases herror
    · rename_i hlength
      cases herror
      exact .inl ((fieldLength_refuses n tooLong).error hlength).encode

/-- **To its folder a writer does what a walk over the tree does.** -/
theorem write_performs (t : Tree) :
    Encoder.Performs codec (write codec widths t) (Folding.tree t) := by
  induction t using Tree.induct with
  | scalar t hscalar =>
    cases t with
    | list items => exact Bool.noConfusion hscalar
    | map pairs => exact Bool.noConfusion hscalar
    | text octets => exact .after (performs_fold _) (performs_write (putText_refuses octets))
    | _ => exact .after (performs_fold _) (performs_put _)
  | list items ih =>
    refine .bind (fieldLength_performs _ _) fun count => .bind (performs_fold _) fun _ => ?_
    refine .before (performs_put _) (.bind ?_ fun _ => performs_fold _)
    exact .items (fun _ => writeItems codec widths) (fun _ => write codec widths) (fun _ => rfl)
      (fun _ _ _ => rfl) (fun _ t ht => ih t ht) 0
  | map pairs ih =>
    refine .bind (fieldLength_performs _ _) fun count => .bind (performs_fold _) fun _ => ?_
    refine .before (performs_put _) (.bind ?_ fun _ => performs_fold _)
    refine .pairs (fun _ => writePairs codec widths) (fun _ => writeKey codec widths)
      (fun _ => write codec widths) (fun _ => rfl) (fun _ _ _ _ => writePairs_cons)
      (fun _ k => ?_) ih 0
    exact .after (performs_fold _) (performs_write (putText_refuses k))

/-- **About every tree every MessagePack codec answers with its encoding or for its content.** -/
theorem encode_written {codec : Codec} (h : codec ∈ Codec.ofFormat .messagePack) {t : Tree}
    (ht : t.Countable) (o : FoldOptions) : Written codec.name o.depthLimit (codec.encode t o) := by
  rw [codecs_eq] at h
  rcases List.mem_cons.mp h with rfl | h
  · exact (write_performs t).run ht
  rcases List.mem_cons.mp h with rfl | h
  · exact (write_performs t).run ht
  · rw [List.mem_singleton.mp h]
    exact (write_performs t).run ht

end Writing

end TreeDigest.MessagePack
