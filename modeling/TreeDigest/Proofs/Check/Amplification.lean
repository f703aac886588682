import TreeDigest.Proofs.Bson.Inverse
import TreeDigest.Proofs.Bson.Recorded
import TreeDigest.Proofs.MessagePack.Recorded
import TreeDigest.Proofs.MessagePack.Tags
import TreeDigest.Proofs.Ubjson.Recorded

/-!
# Input is not amplified

A few octets can claim four thousand million entries, and containers can be opened one inside
the other. What a decoder does with them is bounded by the octets that are there and by the
depth limit all the same, on the way to an error no less than on the way to a digest. The
bounds are those of the recorders of the decoders, and a recorder is its decoder with notes.

A reader that builds a tree leaves something to measure where it succeeds: the tree.
-/

namespace TreeDigest

/-- A decoder that folds while it reads, beside a recorder of it. -/
structure Streamed where
  codec : Codec
  /-- The step of the decoder for one element. -/
  element : Bytes → FoldOptions → Decoder Cursor Unit
  /-- A run with notes, with a number of levels and rounds to spare. -/
  recorded : Nat → Bytes → FoldOptions → EStateM.Result Error Recording Digest

/-- Every decoder of octets that folds while it reads. -/
def Streamed.all : List Streamed :=
  [⟨MessagePack.compact, fun _ o => MessagePack.fold o.depthLimit, MessagePack.recorded⟩,
    ⟨MessagePack.wide, fun _ o => MessagePack.fold o.depthLimit, MessagePack.recorded⟩,
    ⟨Bson.stream, fun input o => Bson.fold o.depthLimit (Bson.rootIsArray input), Bson.recorded⟩,
    ⟨Ubjson.closed, fun _ o => Ubjson.fold o.depthLimit, Ubjson.recorded⟩,
    ⟨Ubjson.counted, fun _ o => Ubjson.fold o.depthLimit, Ubjson.recorded⟩]

/-- What a decoder does on the way to its answer, whichever it is, is bounded. -/
structure Streamed.Bounded (s : Streamed) : Prop where
  decode_eq : ∀ input o, s.codec.decode input o =
    Decoder.run (Decoder.whole (s.element input o)) (Cursor.start input) o
  /-- The recorder is the decoder, and it is never for want of levels or rounds that it ends. -/
  erase_eq : ∀ slack input o, Recorder.erase (s.recorded slack input o) =
    Decoder.whole (s.element input o) ⟨Cursor.start input, Folder.start .decode o⟩
  /-- The events that were noted are the ones that the folder has seen. -/
  folder_eq : ∀ slack input o, let r := Recorder.notes (s.recorded slack input o)
    Steps.left (Folding.events r.events.reverse) (Folder.start .decode o) = r.folder
  issued_le : ∀ slack input o,
    Event.issued (Recorder.notes (s.recorded slack input o)).events ≤ input.length + 1
  opened_le : ∀ slack input o,
    (Recorder.notes (s.recorded slack input o)).opened ≤ o.depthLimit
  nested_le : ∀ slack input o,
    (Recorder.notes (s.recorded slack input o)).nested ≤ o.depthLimit + 1

/-- A recorder of a decoder bounds it. -/
theorem Streamed.Bounded.of_records {s : Streamed} {Hands : Event → Prop}
    {Declares : UInt8 × Option UInt32 → Prop}
    (hdecode : ∀ input o, s.codec.decode input o =
      Decoder.run (Decoder.whole (s.element input o)) (Cursor.start input) o)
    (h : ∀ slack input o, Recorder.Records (.ofInput Hands Declares input o)
      (s.recorded slack input o) (s.element input o) input) : s.Bounded where
  decode_eq := hdecode
  erase_eq slack input o := (h slack input o).erase_eq
  folder_eq slack input o := (h slack input o).within.folder_eq
  issued_le slack input o := (h slack input o).within.issued_le
  opened_le slack input o := (h slack input o).within.opened_le
  nested_le slack input o := (h slack input o).within.nested_le

/-- A tree that was read is no larger than its input, nor deeper than was granted. -/
def ReadsWithin (readValue : Bytes → Nat → Except Error Tree) : Prop :=
  ∀ input maxDepth t, readValue input maxDepth = .ok t →
    t.nodes + t.keys ≤ input.length ∧ t.depth ≤ min maxDepth 126

/--
**Input is not amplified.** A decoder that folds while it reads ends, with a digest or with an
error, after one event more than there are octets, ends of containers apart. It never has more
containers open than the depth limit allows, and no more elements begun than one for each and
the root. A tree that is read has a node or a key for each octet at most.
-/
theorem hostile_input_is_not_amplified :
    (∀ s ∈ Streamed.all, s.Bounded) ∧
      ReadsWithin MessagePack.readValue ∧ ReadsWithin Bson.readValue := by
  have hmessagePack := fun codec hcodec => Streamed.Bounded.of_records
    (s := ⟨codec, fun _ o => MessagePack.fold o.depthLimit, MessagePack.recorded⟩) hcodec
    MessagePack.recorded_records
  have hubjson := fun codec hcodec => Streamed.Bounded.of_records
    (s := ⟨codec, fun _ o => Ubjson.fold o.depthLimit, Ubjson.recorded⟩) hcodec
    Ubjson.recorded_records
  refine ⟨?_, fun input maxDepth t h => ?_, fun input maxDepth t h => ?_⟩
  · simp only [Streamed.all, List.forall_mem_cons, List.not_mem_nil, false_imp_iff, implies_true,
      and_true]
    exact ⟨hmessagePack _ fun _ _ => rfl, hmessagePack _ fun _ _ => rfl,
      .of_records (fun _ _ => rfl) Bson.recorded_records, hubjson _ fun _ _ => rfl,
      hubjson _ fun _ _ => rfl⟩
  · refine ⟨MessagePack.size_le_of_read h, ?_⟩
    obtain ⟨c, hread, -⟩ := Reader.whole_ok h
    exact (MessagePack.read_fits hread).1
  · refine ⟨Bson.size_le_of_read h, ?_⟩
    obtain ⟨c, hread, -⟩ := Reader.whole_ok h
    exact (Bson.read_fits hread).1

/-- A head that claims lists of lists and ends with them, and a map that is read. -/
theorem hostile_input_is_not_amplified_claimed :
    (Event.issued (Recorder.notes
        (Ubjson.recorded 0 [0x5B, 0x24, 0x5B, 0x23, 0x6C, 0x7F, 0xFF, 0xFF, 0xFF] {})).events ≤ 10 ∧
      Ubjson.closed.decode [0x5B, 0x24, 0x5B, 0x23, 0x6C, 0x7F, 0xFF, 0xFF, 0xFF] {} =
        .error (.decode (.truncated 9 0x7FFFFFFF))) ∧
    Bson.readValue [8, 0, 0, 0, 0x0A, 0x61, 0, 0] 5 = .ok (.map [([0x61], .null)]) ∧
      (Tree.map [([0x61], .null)]).nodes + (Tree.map [([0x61], .null)]).keys ≤ 8 := by
  obtain ⟨hstreamed, -, hread⟩ := hostile_input_is_not_amplified
  have hclosed : (⟨Ubjson.closed, fun _ o => Ubjson.fold o.depthLimit, Ubjson.recorded⟩ : Streamed) ∈
      Streamed.all := by simp [Streamed.all]
  have hmap : Bson.readValue [8, 0, 0, 0, 0x0A, 0x61, 0, 0] 5 = .ok (.map [([0x61], .null)]) := by
    rfl
  exact ⟨⟨(hstreamed _ hclosed).issued_le 0 _ {}, by rfl⟩, hmap, (hread _ _ _ hmap).1⟩

/-- One event more than there are octets can happen: a document is begun before it is read. -/
example : Event.issued (Recorder.notes (Bson.recorded 0 [] {})).events = 1 := by rfl

end TreeDigest
