import TreeDigest.Proofs.Input.Continues
import TreeDigest.Proofs.MessagePack.Inverse

/-!
# MessagePack inputs that go on

Every reader persists, one after the other. A container looks at how many octets are left
before its entries, and in a longer input there may be enough of them: then it does not
lack any more what it lacked before.
-/

namespace TreeDigest.MessagePack

variable {limit levels : Nat}

open Reader (Persists)

theorem sizedText_persists (width : Nat) : (sizedText width).Persists :=
  .bind (.big width) fun _ => .map (.take _) _

theorem unsigned_persists (width : Nat) : (unsigned width).Persists := .map (.big width) _

theorem signed_persists (width : Nat) : (signed width).Persists := .map (.signedBig width) _

theorem wideTag_persists (offset : Nat) (marker : UInt8) : (wideTag offset marker).Persists := by
  unfold wideTag
  split
  · exact .pure _
  · exact .pure _
  · exact .pure _
  all_goals first
    | exact sizedText_persists _
    | exact unsigned_persists _
    | exact signed_persists _
    | exact .map (.big _) _
    | exact .unsupportedType _ _

theorem tag_persists : tag.Persists := by
  refine .bind .offset fun offset => .bind .octet fun marker => ?_
  split
  · exact .pure _
  split
  · exact .pure _
  split
  · exact .pure _
  split
  · exact .map (.take _) _
  split
  · exact wideTag_persists _ _
  · exact .pure _

theorem key_persists : key.Persists := by
  refine .bind .offset fun offset => .bind tag_persists fun tag => ?_
  cases tag with
  | text octets => exact .pure _
  | _ => exact .malformed _ _

theorem readPair_persists {value : Reader Tree} (h : value.Persists) : (readPair value).Persists :=
  .bind key_persists fun _ => .map h _

/-- **Reading an element persists.** -/
theorem read_persists : (read limit levels).Persists := by
  induction levels with
  | zero =>
    rw [read]
    refine .bind tag_persists fun tag => ?_
    cases tag with
    | array count => exact .depthExceeded limit
    | map count => exact .depthExceeded limit
    | _ => exact .pure _
  | succ levels ih =>
    rw [read]
    refine .bind tag_persists fun tag => ?_
    cases tag with
    | array count => exact .bind (.need _) fun _ => .map (.collect ih _) _
    | map count => exact .bind (.need _) fun _ => .map (.collect (readPair_persists ih) _) _
    | _ => exact .pure _

/-! ## Whole inputs -/

/-- **Inputs that go on, for every MessagePack codec.** -/
theorem decode_continues {codec : Codec} (h : codec ∈ Codec.ofFormat .messagePack) (o : FoldOptions)
    (input more : Bytes) : Decoder.Continues (codec.decode · o) input more :=
  .folded (fun _ limit => read limit limit) (decode_eq h) read_fits (read_persists.outlasts _ _)

end TreeDigest.MessagePack
