import TreeDigest.Registry
import TreeDigest.Proofs.Bson.RoundTrip
import TreeDigest.Proofs.Generator
import TreeDigest.Proofs.Json.RoundTrip
import TreeDigest.Proofs.MessagePack.RoundTrip
import TreeDigest.Proofs.Text.Utf8
import TreeDigest.Proofs.Ubjson.RoundTrip

/-!
# Every codec carries what is portable

A codec carries a document if it writes it with its digest and if each codec of its
format reads that digest from what was written. Of a portable map within the limits
on depths and lengths this is so for all codecs there are.

What a portable tree is was said with no format in mind. Here it is seen to be what
each of them asks for.
-/

namespace TreeDigest

/-- What a codec writes for a document is read, by it and by the others of its format, with the
digest of the document. -/
structure Codec.Carries (codec : Codec) (t : Tree) (o : FoldOptions) : Prop where
  exchange : ∃ bytes, codec.encode t o = .ok ⟨bytes, t.digest o⟩ ∧
    ∀ reader ∈ ofFormat codec.format, reader.decode bytes o = .ok (t.digest o)

namespace Generator

variable {t : Tree}

theorem isValid_printable {octets : Bytes} (h : ∀ b ∈ octets, 0x20 ≤ b.toNat ∧ b.toNat < 0x7F) :
    Utf8.isValid octets = true := by
  refine Utf8.isValid_ascii fun b hb => ?_
  have := h b hb
  rw [UInt8.lt_iff_toNat_lt, show (0x80 : UInt8).toNat = 0x80 from rfl]
  omega

theorem IsName.isValid {k : Bytes} (h : IsName k) : Utf8.isValid k = true :=
  isValid_printable h.printable

/-- No name has a zero octet. -/
theorem IsName.not_mem_zero {k : Bytes} (h : IsName k) : (0 : UInt8) ∉ k := by
  intro hzero
  have := (h.printable 0 hzero).1
  rw [show (0 : UInt8).toNat = 0 from rfl] at this
  omega

theorem Portable.expressible (h : Portable t) : Json.Expressible t := by
  refine Tree.All.mono (fun s hs => ?_) h
  cases s with
  | double bits => exact hs
  | text octets => exact isValid_printable hs.2
  | map pairs => exact fun kv hkv => (hs.names kv.1 (List.mem_map_of_mem hkv)).isValid
  | _ => trivial

theorem Portable.distinct (h : Portable t) : Json.Distinct t := by
  refine Tree.All.mono (fun s hs => ?_) h
  cases s with
  | map pairs => exact hs.distinct
  | _ => trivial

theorem Portable.plain (h : Portable t) : Bson.Plain t := by
  refine Tree.All.mono (fun s hs => ?_) h
  cases s with
  | uint u => exact hs
  | map pairs => exact fun kv hkv => (hs.names kv.1 (List.mem_map_of_mem hkv)).not_mem_zero
  | _ => trivial

theorem Portable.writable (h : Portable t)
    (hlengths : t.All (Tree.LengthsBelow 0x8000000000000000)) : Ubjson.Writable t := by
  refine Tree.All.mono (fun s hs => ?_) (h.and hlengths)
  obtain ⟨hportable, hlengths⟩ := hs
  cases s with
  | uint u => exact hportable
  | text octets => exact ⟨isValid_printable hportable.2, hlengths⟩
  | map pairs =>
    exact fun kv hkv => ⟨(hportable.names kv.1 (List.mem_map_of_mem hkv)).isValid, hlengths.2 kv hkv⟩
  | _ => trivial

/-- The first key of a portable map is not the one that a BSON array begins with. -/
theorem Portable.head_ne_zero {pairs : List (Bytes × Tree)} (h : Portable (.map pairs)) :
    pairs.head?.map (·.1) ≠ some [0x30] := by
  cases pairs with
  | nil => exact fun h => nomatch h
  | cons pair pairs =>
    intro hzero
    have hname := (portable_map.mp h).1.names pair.1 (List.mem_map_of_mem (List.mem_cons_self ..))
    obtain ⟨b, tail, hletter, hb⟩ := hname.letter
    have hkey : b :: tail = [0x30] := hletter.symm.trans (Option.some.inj hzero)
    rw [(List.cons.inj hkey).1, show (0x30 : UInt8).toNat = 0x30 from rfl] at hb
    omega

end Generator

/-! ## Formats -/

namespace Codec

open Generator (Portable)

variable {t : Tree} {o : FoldOptions}

theorem json_carries (h : Portable t) (hcount : t.Countable) (hdepth : t.depth ≤ o.depthLimit) :
    ∀ codec ∈ ofFormat .json, codec.Carries t o := by
  have ht := h.expressible
  have hceiling := Json.depth_le_nestingCeiling hdepth
  have hstream : ∀ name, Json.decodeStream name (Json.layout t) o = .ok (t.digest o) := fun name =>
    (Json.decodeStream_form_eq ht hcount hceiling o).trans (if_pos hdepth)
  have htree : ∀ name, Json.decodeTree name (Json.layout t) o = .ok (t.digest o) := fun name => by
    rw [Json.decodeTree_form_eq ht hcount hceiling, Json.collapse_of_distinct h.distinct,
      if_pos hdepth]
  have hread : ∀ reader ∈ ofFormat .json, reader.decode (Json.layout t) o = .ok (t.digest o) :=
    List.forall_mem_cons.mpr ⟨hstream _, List.forall_mem_singleton.mpr (htree _)⟩
  exact List.forall_mem_cons.mpr
    ⟨⟨_, Json.encodeStream_eq_ok_iff.mpr ⟨⟨ht, hcount⟩, hdepth, rfl⟩, hread⟩,
      List.forall_mem_singleton.mpr
        ⟨_, Json.encodeTree_eq_ok_iff.mpr ⟨⟨ht, h.distinct, hcount⟩, hdepth, rfl⟩, hread⟩⟩

theorem messagePack_carries (hshort : t.Short) (hdepth : t.depth ≤ o.depthLimit) :
    ∀ codec ∈ ofFormat .messagePack, codec.Carries t o := by
  have hread : ∀ widths, ∀ reader ∈ ofFormat .messagePack,
      reader.decode (MessagePack.form widths t) o = .ok (t.digest o) := fun widths =>
    List.forall_mem_cons.mpr ⟨MessagePack.decodeStream_form hshort hdepth,
      List.forall_mem_cons.mpr ⟨MessagePack.decodeStream_form hshort hdepth,
        List.forall_mem_singleton.mpr (MessagePack.decodeTree_form hshort hdepth)⟩⟩
  exact List.forall_mem_cons.mpr ⟨⟨_, MessagePack.encode_form hshort hdepth, hread _⟩,
    List.forall_mem_cons.mpr ⟨⟨_, MessagePack.encode_form hshort hdepth, hread _⟩,
      List.forall_mem_singleton.mpr ⟨_, MessagePack.encode_form hshort hdepth, hread _⟩⟩⟩

theorem bson_carries {pairs : List (Bytes × Tree)} (h : Portable (.map pairs))
    (hlen : (Bson.form (.map pairs)).length < 0x80000000)
    (hdepth : (Tree.map pairs).depth ≤ o.depthLimit) :
    ∀ codec ∈ ofFormat .bson, codec.Carries (.map pairs) o := by
  have hread : ∀ reader ∈ ofFormat .bson,
      reader.decode (Bson.form (.map pairs)) o = .ok ((Tree.map pairs).digest o) :=
    List.forall_mem_cons.mpr ⟨Bson.decodeStream_form h.plain h.head_ne_zero hlen hdepth,
      List.forall_mem_singleton.mpr
        (Bson.decodeTree_form h.plain h.head_ne_zero hlen hdepth)⟩
  exact List.forall_mem_cons.mpr
    ⟨⟨_, Bson.encode_form h.plain h.head_ne_zero hlen hdepth, hread⟩,
      List.forall_mem_singleton.mpr
        ⟨_, Bson.encode_form h.plain h.head_ne_zero hlen hdepth, hread⟩⟩

theorem ubjson_carries (h : Portable t) (hcount : t.Countable)
    (hlengths : t.All (Tree.LengthsBelow 0x8000000000000000)) (hdepth : t.depth ≤ o.depthLimit) :
    ∀ codec ∈ ofFormat .ubjson, codec.Carries t o := by
  have ht := h.writable hlengths
  have hencode : ∀ codec framing,
      Ubjson.encode codec framing t o = .ok ⟨Ubjson.form framing false t, t.digest o⟩ :=
    fun codec framing => Ubjson.encode_eq_ok_iff.mpr ⟨⟨ht, hcount⟩, hdepth, rfl⟩
  have hdecode : ∀ framing, Ubjson.decode (Ubjson.form framing false t) o = .ok (t.digest o) :=
    fun framing => (Ubjson.decode_form_eq ht hcount o).trans (if_pos hdepth)
  have hread : ∀ framing, ∀ reader ∈ ofFormat .ubjson,
      reader.decode (Ubjson.form framing false t) o = .ok (t.digest o) := fun framing =>
    List.forall_mem_cons.mpr ⟨hdecode framing, List.forall_mem_singleton.mpr (hdecode framing)⟩
  exact List.forall_mem_cons.mpr ⟨⟨_, hencode _ _, hread _⟩,
    List.forall_mem_singleton.mpr ⟨_, hencode _ _, hread _⟩⟩

/-- The sizes that a format has room for. -/
def TakesSizes (codec : Codec) (t : Tree) : Prop :=
  match codec.format with
  | .messagePack => t.Short
  | .bson => (Bson.form t).length < 0x80000000
  | .ubjson => t.Countable ∧ t.All (Tree.LengthsBelow 0x8000000000000000)
  | .json => t.Countable

/-- Every format has room for lengths in 32 bits, but for BSON, where all of a document counts. -/
theorem TakesSizes.of_short {codec : Codec} (hshort : t.Short)
    (hlen : codec.format = .bson → (Bson.form t).length < 0x80000000) : codec.TakesSizes t := by
  unfold TakesSizes
  cases hformat : codec.format with
  | json => exact hshort.countable
  | messagePack => exact hshort
  | bson => exact hlen hformat
  | ubjson =>
    exact ⟨hshort.countable, Tree.All.mono (fun _ => Tree.LengthsBelow.mono (by decide)) hshort⟩

/-- **Every codec carries a portable map of sizes that its format has room for.** -/
theorem carries {pairs : List (Bytes × Tree)} {codec : Codec} (hcodec : codec ∈ all)
    (h : Portable (.map pairs)) (hsizes : codec.TakesSizes (.map pairs))
    (hdepth : (Tree.map pairs).depth ≤ o.depthLimit) : codec.Carries (.map pairs) o := by
  have hmem : codec ∈ ofFormat codec.format :=
    List.mem_filter.mpr ⟨hcodec, beq_self_eq_true codec.format⟩
  unfold TakesSizes at hsizes
  cases hformat : codec.format with
  | json =>
    rw [hformat] at hsizes hmem
    exact json_carries h hsizes hdepth codec hmem
  | messagePack =>
    rw [hformat] at hsizes hmem
    exact messagePack_carries hsizes hdepth codec hmem
  | bson =>
    rw [hformat] at hsizes hmem
    exact bson_carries h hsizes hdepth codec hmem
  | ubjson =>
    rw [hformat] at hsizes hmem
    exact ubjson_carries h hsizes.1 hsizes.2 hdepth codec hmem

end Codec

end TreeDigest
