import TreeDigest.Proofs.Check.Carries
import TreeDigest.Proofs.Check.KeyOrder

/-!
# What encoders take

Every format says of the values and keys of a tree which it has a form for, and every
encoder takes the trees that are of its format and no deeper than the limit, and no
others. What it yields depends on the options in one place only: the digest.

Beside what a format says of values there are bounds on sizes, which a tree has to be
huge to come near: counts are 32 bits wide, and so are the lengths of strings in
MessagePack; those in UBJSON have 63 bits, and a BSON document has 31 for all of it.
-/

namespace TreeDigest

variable {t : Tree} {o : FoldOptions} {e : Encoded}

/-! ## What is said of values and keys -/

namespace Tree

/-- No unsigned integer in a tree is beyond the signed range. -/
def InSignedRange (t : Tree) : Prop :=
  t.All fun
    | .uint u => u.toNat < 0x8000000000000000
    | _ => True

/-- Every string and every key in a tree is UTF-8. -/
def TextsUtf8 (t : Tree) : Prop :=
  t.All fun
    | .text octets => Utf8.isValid octets = true
    | .map pairs => ∀ kv ∈ pairs, Utf8.isValid kv.1 = true
    | _ => True

/-- Every double in a tree is finite. -/
def DoublesFinite (t : Tree) : Prop :=
  t.All fun
    | .double bits => Binary.double.isFinite bits.toNat = true
    | _ => True

/-- No key in a tree has a zero octet. -/
def KeysWithoutZero (t : Tree) : Prop :=
  t.All fun
    | .map pairs => ∀ kv ∈ pairs, (0 : UInt8) ∉ kv.1
    | _ => True

end Tree

namespace Codec

/-- What the encoder of a codec says of the values and keys of the trees it takes. -/
def TakesValues (codec : Codec) (t : Tree) : Prop :=
  match codec.format with
  | .messagePack => True
  | .bson => Bson.IsRoot t ∧ t.KeysWithoutZero ∧ t.InSignedRange
  | .ubjson => t.TextsUtf8 ∧ t.InSignedRange
  | .json => t.TextsUtf8 ∧ t.DoublesFinite ∧ (codec.name = Json.dom.name → Json.Distinct t)

end Codec

/-! ## Format by format -/

theorem Bson.plain_iff : Bson.Plain t ↔ t.KeysWithoutZero ∧ t.InSignedRange := by
  refine Iff.trans (Tree.all_congr fun s => ?_) Tree.all_and
  cases s <;> simp [Bson.PlainAt]

theorem Json.expressible_iff : Json.Expressible t ↔ t.TextsUtf8 ∧ t.DoublesFinite := by
  refine Iff.trans (Tree.all_congr fun s => ?_) Tree.all_and
  cases s <;> simp [Json.ExpressibleAt]

/-- What UBJSON has a form for, apart from values that are too long. -/
theorem Ubjson.writable_countable_iff : Ubjson.Writable t ∧ t.Countable ↔
    (t.TextsUtf8 ∧ t.InSignedRange) ∧ t.Countable ∧ t.All (Tree.LengthsBelow 0x8000000000000000) := by
  have hsayable : ∀ octets, Ubjson.Sayable octets ↔
      Utf8.isValid octets = true ∧ octets.length < 0x8000000000000000 := fun octets =>
    ⟨fun h => ⟨h.isValid, h.length_lt⟩, fun h => ⟨h.1, h.2⟩⟩
  rw [Ubjson.Writable, Tree.Countable, Tree.TextsUtf8, Tree.InSignedRange, ← Tree.all_and,
    ← Tree.all_and, ← Tree.all_and, ← Tree.all_and]
  -- the lengths of containers are bounded twice, and the bound on counts is the lower one
  refine Tree.all_congr fun s => ?_
  cases s with
  | list items => simp [Ubjson.WritableAt, Tree.LengthsBelow, Tree.entries]; omega
  | map pairs =>
    simp only [Ubjson.WritableAt, Tree.LengthsBelow, Tree.entries, hsayable, forall_and]
    constructor
    · rintro ⟨⟨hutf8, hlengths⟩, hcount⟩
      exact ⟨⟨hutf8, trivial⟩, hcount, by omega, hlengths⟩
    · rintro ⟨⟨hutf8, -⟩, hcount, -, hlengths⟩
      exact ⟨⟨hutf8, hlengths⟩, hcount⟩
  | _ => simp [Ubjson.WritableAt, Tree.LengthsBelow, Tree.entries, hsayable, and_comm]

/-- An encoder takes the trees of a domain that are not too deep, and no others. The octets it
yields are a function of the tree, and the digest is that of the tree. -/
def TakesExactly (encode : Tree → FoldOptions → Except Error Encoded) (domain : Tree → Prop) : Prop :=
  ∃ form : Tree → Bytes, ∀ t o e, encode t o = .ok e ↔
    (t.depth ≤ o.depthLimit ∧ domain t) ∧ e = ⟨form t, t.digest o⟩

theorem MessagePack.encode_takes (codec : String) (widths : MessagePack.Widths) :
    TakesExactly (MessagePack.encode codec widths) Tree.Short :=
  ⟨MessagePack.form widths, fun t o e => by rw [MessagePack.encode_eq_ok_iff]; tauto⟩

theorem Bson.encode_takes (codec : String) :
    TakesExactly (Bson.encode codec) fun t =>
      (Bson.IsRoot t ∧ t.KeysWithoutZero ∧ t.InSignedRange) ∧ (Bson.form t).length < 0x80000000 :=
  ⟨Bson.form, fun t o e => by rw [Bson.encode_eq_ok_iff, Bson.plain_iff]; tauto⟩

theorem Ubjson.encode_takes (codec : String) (framing : Ubjson.Framing) :
    TakesExactly (Ubjson.encode codec framing) fun t =>
      (t.TextsUtf8 ∧ t.InSignedRange) ∧
        t.Countable ∧ t.All (Tree.LengthsBelow 0x8000000000000000) :=
  ⟨Ubjson.form framing false, fun t o e => by
    rw [Ubjson.encode_eq_ok_iff, Ubjson.writable_countable_iff, eq_comm (b := e)]
    tauto⟩

theorem Json.encodeStream_takes (codec : String) :
    TakesExactly (Json.encodeStream codec) fun t =>
      (t.TextsUtf8 ∧ t.DoublesFinite) ∧ t.Countable :=
  ⟨Json.layout, fun t o e => by rw [Json.encodeStream_eq_ok_iff, Json.expressible_iff]; tauto⟩

theorem Json.encodeTree_takes (codec : String) :
    TakesExactly (Json.encodeTree codec) fun t =>
      (t.TextsUtf8 ∧ t.DoublesFinite ∧ Json.Distinct t) ∧ t.Countable :=
  ⟨Json.layout, fun t o e => by rw [Json.encodeTree_eq_ok_iff, Json.expressible_iff]; tauto⟩

/-! ## At the top -/

theorem TakesExactly.congr {encode : Tree → FoldOptions → Except Error Encoded}
    {domain domain' : Tree → Prop} (h : TakesExactly encode domain)
    (hsame : ∀ t, domain t ↔ domain' t) : TakesExactly encode domain' := by
  obtain ⟨form, h⟩ := h
  exact ⟨form, fun t o e => by rw [h, hsame]⟩

namespace Codec

variable {codec : Codec}

/-- **Every encoder takes what its format says.** -/
theorem encode_takes (h : codec ∈ all) :
    TakesExactly codec.encode fun t => codec.TakesValues t ∧ codec.TakesSizes t := by
  -- keys are told apart by one of the two JSON encoders only
  have hstream : ∀ t, (t.TextsUtf8 ∧ t.DoublesFinite) ∧ t.Countable ↔
      Json.stream.TakesValues t ∧ Json.stream.TakesSizes t := by
    intro t
    have hname : Json.stream.name ≠ Json.dom.name := by decide
    simp [TakesValues, TakesSizes, hname, show Json.stream.format = .json from rfl]
  have hdom : ∀ t, (t.TextsUtf8 ∧ t.DoublesFinite ∧ Json.Distinct t) ∧ t.Countable ↔
      Json.dom.TakesValues t ∧ Json.dom.TakesSizes t := by
    intro t
    simp [TakesValues, TakesSizes, show Json.dom.format = .json from rfl]
  have hmessagePack : ∀ name widths, TakesExactly (MessagePack.encode name widths) fun t =>
      True ∧ t.Short := fun name widths =>
    (MessagePack.encode_takes name widths).congr fun t => (and_iff_right trivial).symm
  simp only [all, List.mem_cons, List.not_mem_nil, or_false] at h
  rcases h with rfl | rfl | rfl | rfl | rfl | rfl | rfl | rfl | rfl
  · exact (Json.encodeStream_takes _).congr hstream
  · exact (Json.encodeTree_takes _).congr hdom
  · exact hmessagePack _ _
  · exact hmessagePack _ _
  · exact hmessagePack _ _
  · exact Bson.encode_takes _
  · exact Bson.encode_takes _
  · exact Ubjson.encode_takes _ _
  · exact Ubjson.encode_takes _ _

/-- A tree that is encoded can be counted. -/
theorem countable_of_encode (h : codec ∈ all) (hok : codec.encode t o = .ok e) : t.Countable := by
  have hmem : codec ∈ ofFormat codec.format :=
    List.mem_filter.mpr ⟨h, beq_self_eq_true codec.format⟩
  obtain ⟨form, htakes⟩ := encode_takes h
  obtain ⟨⟨-, -, hsizes⟩, -⟩ := (htakes t o e).mp hok
  unfold TakesSizes at hsizes
  cases hformat : codec.format with
  | json => rw [hformat] at hsizes; exact hsizes
  | messagePack => rw [hformat] at hsizes; exact hsizes.countable
  | ubjson => rw [hformat] at hsizes; exact hsizes.1
  | bson =>
    -- the bound is on the octets, so the counts are taken from what was folded
    obtain ⟨name, hencode⟩ := Bson.encode_eq (hformat ▸ hmem)
    rw [hencode] at hok
    exact ((Bson.write_requires t).run hok).2.1

/--
**Every encoder succeeds on its documented domain.** It takes the trees within the
limit whose values and keys its format has a form for, and whose sizes it can say, and
no others. The digest it yields is the one that the tree folds to, and its octets are
the same under all options with which it succeeds.
-/
theorem encodes_documented_domain (h : codec ∈ all) (t : Tree) (o : FoldOptions) :
    ((∃ e, codec.encode t o = .ok e) ↔
      t.depth ≤ o.depthLimit ∧ codec.TakesValues t ∧ codec.TakesSizes t) ∧
    ∀ e, codec.encode t o = .ok e → foldTree t o = .ok e.digest ∧
      ∀ o' e', codec.encode t o' = .ok e' → e'.bytes = e.bytes := by
  obtain ⟨form, htakes⟩ := encode_takes h
  refine ⟨⟨fun ⟨e, hok⟩ => ((htakes t o e).mp hok).1, fun hdomain => ?_⟩, fun e hok => ?_⟩
  · exact ⟨⟨form t, t.digest o⟩, (htakes t o _).mpr ⟨hdomain, rfl⟩⟩
  · have hcount := countable_of_encode h hok
    obtain ⟨⟨hdepth, -⟩, rfl⟩ := (htakes t o e).mp hok
    refine ⟨foldTreeOn_eq hdepth hcount, fun o' e' hok' => ?_⟩
    obtain ⟨-, rfl⟩ := (htakes t o' e').mp hok'
    rfl

/-- A root map may begin with the key `1`, and with the key `0` it is refused. -/
theorem encodes_documented_domain_roots :
    Bson.stream ∈ all ∧
    (∃ e, Bson.stream.encode (.map [([0x31], .uint 7)]) {} = .ok e) ∧
    ¬ ∃ e, Bson.stream.encode (.map [([0x30], .uint 7)]) {} = .ok e := by
  have hcodec : Bson.stream ∈ all := by simp [all]
  have hvalues : Bson.stream.TakesValues (.map [([0x31], .uint 7)]) :=
    ⟨fun hkey => absurd hkey (by decide), ⟨by decide, trivial, trivial⟩, trivial,
      show (7 : Nat) < 0x8000000000000000 by decide, trivial⟩
  have hsizes : Bson.stream.TakesSizes (.map [([0x31], .uint 7)]) := by
    show (Bson.form _).length < _
    decide
  refine ⟨hcodec, ?_, fun hok => ?_⟩
  · exact (encodes_documented_domain hcodec _ {}).1.mpr ⟨by decide, hvalues, hsizes⟩
  · obtain ⟨-, ⟨hroot, -⟩, -⟩ := (encodes_documented_domain hcodec _ {}).1.mp hok
    exact absurd rfl hroot

end Codec

end TreeDigest
