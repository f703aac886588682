import TreeDigest.Proofs.Bson.Continues
import TreeDigest.Proofs.MessagePack.Persists
import TreeDigest.Proofs.Ubjson.Persists

/-!
# Inputs and their prefixes

The decoders of the binary formats are honest about prefixes: each takes a document off
the front of its input, and what it answers depends on nothing that comes after it. So an
input with a document in front can only have octets left over, a document that is cut
short is truncated, and a defect stays what it is however the input goes on.
-/

namespace TreeDigest

/-- What a codec answers to an input settles what it answers to prefixes of it and to inputs
that go on. -/
structure Codec.PrefixHonest (codec : Codec) (o : FoldOptions) (b : Bytes) : Prop where
  /-- Whatever follows a document is left over. -/
  followed : ∀ {digest}, codec.decode b o = .ok digest → ∀ s, s ≠ [] →
    codec.decode (b ++ s) o = .error (.decode (.trailingBytes s.length))
  /-- A document that is cut short is truncated. -/
  cut : ∀ {digest}, codec.decode b o = .ok digest → ∀ p, p <+: b → p ≠ b →
    ∃ offset needed, codec.decode p o = .error (.decode (.truncated offset needed))
  /-- Where octets are left over, what follows is left over too. -/
  trailing : ∀ {k}, codec.decode b o = .error (.decode (.trailingBytes k)) → ∀ s, s ≠ [] →
    codec.decode (b ++ s) o = .error (.decode (.trailingBytes (k + s.length)))
  /-- Where octets are lacking, as many less are when some of them follow. -/
  truncated : ∀ {offset needed}, codec.decode b o = .error (.decode (.truncated offset needed)) →
    ∀ s, s ≠ [] → s.length < needed →
      codec.decode (b ++ s) o = .error (.decode (.truncated offset (needed - s.length)))
  /-- Any other error is the error of every input that goes on. -/
  refused : ∀ {e}, codec.decode b o = .error e → (∀ k, e ≠ .decode (.trailingBytes k)) →
    (∀ offset needed, e ≠ .decode (.truncated offset needed)) → ∀ s, s ≠ [] →
      codec.decode (b ++ s) o = .error e

namespace Codec

variable {codec : Codec} {o : FoldOptions} {format : Format}

theorem decode_continues (hformat : format ≠ .json) (h : codec ∈ ofFormat format) (o : FoldOptions)
    (b s : Bytes) : Decoder.Continues (codec.decode · o) b s := by
  cases format with
  | json => exact absurd rfl hformat
  | messagePack => exact MessagePack.decode_continues h o b s
  | bson => exact Bson.decode_continues h o b s
  | ubjson => exact Ubjson.decode_continues h o b s

/-- Before the end of a document there is nothing to be found but that it is truncated. -/
theorem truncated_of_continues {p s : Bytes} {digest : Digest}
    (h : Decoder.Continues (codec.decode · o) p s) (hs : s ≠ [])
    (hok : codec.decode (p ++ s) o = .ok digest) :
    ∃ offset needed, codec.decode p o = .error (.decode (.truncated offset needed)) := by
  cases hp : codec.decode p o with
  | ok digest' =>
    have htrailing : codec.decode (p ++ s) o = _ := h.ok hp hs
    rw [hok] at htrailing
    cases htrailing
  | error e =>
    rcases (h.still hp).truncated_or with ⟨offset, needed, rfl⟩ | ⟨e', hstill⟩
    · exact ⟨offset, needed, rfl⟩
    · -- any other error would be that of the whole document
      have herror : codec.decode (p ++ s) o = .error e' := hstill
      rw [hok] at herror
      cases herror

/-- **The binary decoders are honest about prefixes.** -/
theorem binary_prefix_honest (hformat : format ≠ .json) (h : codec ∈ ofFormat format)
    (o : FoldOptions) (b : Bytes) : codec.PrefixHonest o b where
  followed hok s hs := (decode_continues hformat h o b s).ok hok hs
  cut hok p hp hne := by
    obtain ⟨s, rfl⟩ := hp
    have hs : s ≠ [] := fun hnil => hne (by rw [hnil, List.append_nil])
    exact truncated_of_continues (decode_continues hformat h o p s) hs hok
  trailing herror s _ := (decode_continues hformat h o b s).still herror
  truncated herror s _ hlt := (decode_continues hformat h o b s).still herror hlt
  refused herror htrailing htruncated s _ :=
    ((decode_continues hformat h o b s).still herror).same htrailing htruncated

theorem binary_prefix_honest_bson :
    (Format.bson ≠ .json ∧ Bson.stream ∈ ofFormat .bson) ∧
    Bson.stream.decode ([8, 0, 0, 0, 0x0A, 0x61, 0, 0] ++ [1, 2, 3]) {} =
      .error (.decode (.trailingBytes 3)) ∧
    (∃ offset needed, Bson.stream.decode [8, 0, 0, 0, 0x0A] {} =
      .error (.decode (.truncated offset needed))) ∧
    Bson.stream.decode ([8, 0, 0, 0] ++ [0x0A]) {} = .error (.decode (.truncated 4 3)) ∧
    Bson.stream.decode ([4, 0, 0, 0] ++ [7]) {} =
      .error (.decode (.malformed 0 (.documentLength 4))) := by
  have hformat : Format.bson ≠ .json := by decide
  have hcodec : Bson.stream ∈ ofFormat .bson := List.mem_cons_self ..
  have hhonest := binary_prefix_honest hformat hcodec {}
  have hread : Bson.readTree [8, 0, 0, 0, 0x0A, 0x61, 0, 0] (FoldOptions.depthLimit {}) =
    .ok (.map [([0x61], .null)]) := rfl
  have hok : Bson.stream.decode [8, 0, 0, 0, 0x0A, 0x61, 0, 0] {} =
      .ok ((Tree.map [([0x61], .null)]).digest {}) :=
    Bson.readsTrees.decode_of_read (Bson.decode_eq hcodec) hread (by decide)
  have htruncated : Bson.stream.decode [8, 0, 0, 0] {} = .error (.decode (.truncated 4 4)) := rfl
  have hrefused : Bson.stream.decode [4, 0, 0, 0] {} =
    .error (.decode (.malformed 0 (.documentLength 4))) := rfl
  refine ⟨⟨hformat, hcodec⟩, (hhonest _).followed hok _ (by decide), ?_, ?_, ?_⟩
  · exact (hhonest _).cut hok _ ⟨[0x61, 0, 0], rfl⟩ (by decide)
  · exact (hhonest _).truncated htruncated _ (by decide) (by decide)
  · exact (hhonest _).refused hrefused nofun nofun _ (by decide)

end Codec

end TreeDigest
