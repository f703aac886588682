import TreeDigest.Proofs.Bson.Inverse
import TreeDigest.Proofs.Input.Orderly
import TreeDigest.Proofs.Output.Performs

/-!
# What goes wrong in BSON

No reader of BSON fails with a wrong count, since nothing says how many elements a document
has. Both decoders answer as the one that reads a tree first. A document has less than
2^31 octets, and so no tree that is read has more entries than can be counted.

A writer refuses some roots, keys, texts, integers and lengths, and otherwise does what a
walk over its tree does. That each document is written for itself first makes no difference.
-/

namespace TreeDigest.Bson

/-! ## Reading -/

/-- **About every input every BSON codec answers with a digest or for a defect of it.** -/
theorem decode_answered {codec : Codec} (h : codec ∈ Codec.ofFormat .bson) (input : Bytes)
    (o : FoldOptions) : Answered False (codec.decode input o) := by
  rw [decode_eq h, decodeTree, readTree]
  exact read_persists.uncounting.answered read_fits

/-! ## Writing -/

section Writing

open Encoder (performs_fold performs_count performs_write)
open Steps (FailsWith)

variable {codec : String} {key : Bytes}

theorem putHead_refuses (type : ElementType) (key : Bytes) :
    FailsWith (EncodeError.Refusal codec) (putHead codec type key) := by
  unfold putHead
  split
  · exact .bind (.throw ⟨_, rfl⟩) fun _ => .modify _
  · exact .modify _

theorem putInt_refuses (key : Bytes) (i : Int64) :
    FailsWith (EncodeError.Refusal codec) (putInt codec key i) := by
  unfold putInt
  dsimp only
  split
  · exact .bind (putHead_refuses _ _) fun _ => .modify _
  · exact .bind (putHead_refuses _ _) fun _ => .modify _

theorem putUInt_refuses (key : Bytes) (u : UInt64) :
    FailsWith (EncodeError.Refusal codec) (putUInt codec key u) := by
  unfold putUInt
  split
  · exact putInt_refuses key _
  · exact .throw ⟨_, rfl⟩

theorem putText_refuses (key octets : Bytes) :
    FailsWith (EncodeError.Refusal codec) (putText codec key octets) := by
  have hput : FailsWith (EncodeError.Refusal codec) (do
      putHead codec .text key
      Writer.put (Bytes.little 4 (octets.length + 1))
      Writer.put octets
      Writer.put [0]) :=
    .bind (putHead_refuses _ _) fun _ => .bind (.modify _) fun _ =>
      .bind (.modify _) fun _ => .modify _
  unfold putText
  dsimp only
  split
  · exact .bind (.throw ⟨_, rfl⟩) fun _ => hput
  · exact hput

theorem close_refuses (octets : Bytes) : FailsWith (EncodeError.Refusal codec) (do
    if 0x80000000 ≤ octets.length + 5 then
      Writer.refuse codec (.longDocument (octets.length + 5))
    Writer.put (Bytes.little 4 (octets.length + 5))
    Writer.put octets
    Writer.put [0]) := by
  have hput : FailsWith (EncodeError.Refusal codec) (do
      Writer.put (Bytes.little 4 (octets.length + 5))
      Writer.put octets
      Writer.put [0]) :=
    .bind (.modify _) fun _ => .bind (.modify _) fun _ => .modify _
  dsimp only
  split
  · exact .bind (.throw ⟨_, rfl⟩) fun _ => hput
  · exact hput

/-- A document does what its content does, and may turn out to be too long. -/
theorem document_performs {content : Encoder Unit} {act : Folding Unit}
    (h : Encoder.Performs codec content act) :
    Encoder.Performs codec (document codec content) act where
  ok hok := by
    obtain ⟨inner, hcontent, -, rfl⟩ := document_ok hok
    have hact := h.ok hcontent
    exact hact
  error {s e s'} herror := by
    unfold document at herror
    split at herror
    · have hclose := (performs_write (close_refuses _)).error herror
      exact hclose.imp_right fun ⟨_, hpure⟩ => nomatch hpure
    · rename_i hcontent
      cases herror
      have hact := h.error hcontent
      exact hact

theorem list_performs {items : List Tree}
    (h : ∀ t ∈ items, ∀ key,
      Encoder.Performs codec (writeElement codec key t) (Folding.tree t)) :
    Encoder.Performs codec (do
      let count ← Encoder.count items.length
      Encoder.fold (.beginList (some count))
      document codec (writeItems codec 0 items)
      Encoder.fold .endList) (Folding.tree (.list items)) := by
  refine .bind (performs_count _) fun count => .bind (performs_fold _) fun _ => ?_
  refine .bind (document_performs ?_) fun _ => performs_fold _
  exact .items (writeItems codec) (fun i => writeElement codec (Bytes.decimal i)) (fun _ => rfl)
    (fun _ _ _ => rfl) (fun i t ht => h t ht _) 0

theorem map_performs {pairs : List (Bytes × Tree)}
    (h : ∀ kv ∈ pairs,
      Encoder.Performs codec (writeElement codec kv.1 kv.2) (Folding.tree kv.2)) :
    Encoder.Performs codec (do
      let count ← Encoder.count pairs.length
      Encoder.fold (.beginMap (some count))
      document codec (writePairs codec pairs)
      Encoder.fold .endMap) (Folding.tree (.map pairs)) := by
  refine .bind (performs_count _) fun count => .bind (performs_fold _) fun _ => ?_
  refine .bind (document_performs ?_) fun _ => performs_fold _
  exact .pairs (fun _ => writePairs codec) (fun _ k => Encoder.fold (.key k)) (writeElement codec)
    (fun _ => rfl) (fun _ _ _ _ => rfl) (fun _ _ => performs_fold _) h 0

theorem writeElement_performs (key : Bytes) (t : Tree) :
    Encoder.Performs codec (writeElement codec key t) (Folding.tree t) := by
  induction t using Tree.induct generalizing key with
  | scalar t hscalar =>
    cases t with
    | list items => exact Bool.noConfusion hscalar
    | map pairs => exact Bool.noConfusion hscalar
    | null => exact .after (performs_fold _) (performs_write (putHead_refuses _ _))
    | bool b =>
      exact .after (performs_fold _)
        (performs_write (.bind (putHead_refuses _ _) fun _ => .modify _))
    | int i => exact .after (performs_fold _) (performs_write (putInt_refuses key i))
    | uint u => exact .before (performs_write (putUInt_refuses key u)) (performs_fold _)
    | double bits =>
      exact .after (performs_fold _)
        (performs_write (.bind (putHead_refuses _ _) fun _ => .modify _))
    | text octets => exact .after (performs_fold _) (performs_write (putText_refuses key octets))
  | list items ih =>
    exact .before (performs_write (putHead_refuses _ _)) (list_performs fun t ht key => ih t ht key)
  | map pairs ih =>
    exact .before (performs_write (putHead_refuses _ _)) (map_performs fun kv hkv => ih kv hkv kv.1)

/-- A root that cannot be one is refused before anything is folded. -/
theorem refuse_performs {act : Folding Unit} (what : Obstacle) :
    Encoder.Performs codec (Encoder.write (Writer.refuse codec what)) act where
  ok hok := by cases hok
  error herror := by
    cases herror
    exact .inl ⟨what, rfl⟩

/-- **To its folder a writer does what a walk over the tree does.** -/
theorem write_performs (t : Tree) : Encoder.Performs codec (write codec t) (Folding.tree t) := by
  cases t with
  | list items => exact list_performs fun t _ key => writeElement_performs key t
  | map pairs =>
    rw [write]
    split
    · exact refuse_performs _
    · exact map_performs fun kv _ => writeElement_performs kv.1 kv.2
  | _ => exact refuse_performs _

/-- **About every tree every BSON codec answers with its encoding or for its content.** -/
theorem encode_written {codec : Codec} (h : codec ∈ Codec.ofFormat .bson) {t : Tree}
    (ht : t.Countable) (o : FoldOptions) : Written codec.name o.depthLimit (codec.encode t o) := by
  rw [codecs_eq] at h
  rcases List.mem_cons.mp h with rfl | h
  · exact (write_performs t).run ht
  · rw [List.mem_singleton.mp h]
    exact (write_performs t).run ht

end Writing

end TreeDigest.Bson
