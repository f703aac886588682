import TreeDigest.Proofs.MessagePack.Tags
import TreeDigest.Registry

/-!
# Writing what was read

The other direction of the round trip. An input that was read and the form of the
tree are two rows of heads for the same tags, so they are compared head by head. A
wide writer has the only head with one of its markers, so it gives back an input
that has no others. A compact writer has a head that is no longer than any other,
but none for a number of single precision, which it widens.
-/

namespace TreeDigest.MessagePack

/-! ## Head by head -/

/-- The markers that a wide writer uses. -/
def wideMarkers : List UInt8 := [0xC0, 0xC2, 0xC3, 0xCB, 0xCF, 0xD3, 0xDB, 0xDD, 0xDF]

variable {marker : UInt8} {body : Bytes} {tag : Tag} {limit : Nat} {widths : Widths} {t : Tree}

/-- **A head whose marker a wide writer uses is the one it writes.** -/
theorem Head.wide (h : Head marker body tag) (hmarker : marker ∈ wideMarkers) :
    tagForm .wide tag = marker :: body := by
  have hrange : ∀ m ∈ wideMarkers, 0xC0 ≤ m ∧ m < 0xE0 := by simp [wideMarkers]
  obtain ⟨hC0, hE0⟩ := hrange marker hmarker
  cases h with
  | fixUInt h => exact absurd hC0 (UInt8.not_le.mpr (UInt8.lt_of_lt_of_le h (by decide)))
  | fixMap _ h => exact absurd hC0 (UInt8.not_le.mpr (UInt8.lt_of_lt_of_le h (by decide)))
  | fixArray _ h => exact absurd hC0 (UInt8.not_le.mpr (UInt8.lt_of_lt_of_le h (by decide)))
  | fixText _ h _ => exact absurd hC0 (UInt8.not_le.mpr h)
  | fixInt h => exact absurd h (UInt8.not_le.mpr hE0)
  | null => rfl
  | no => rfl
  | yes => rfl
  | single bits => exact absurd hmarker (by decide)
  | double bits => rfl
  | text h _ =>
    have honly : ∀ p ∈ textWidths, p.1 ∈ wideMarkers → p = (0xDB, 4) := by decide
    obtain ⟨rfl, rfl⟩ := Prod.mk.inj (honly _ h hmarker)
    rfl
  | uint h _ =>
    have honly : ∀ p ∈ uintWidths, p.1 ∈ wideMarkers → p = (0xCF, 8) := by decide
    obtain ⟨rfl, rfl⟩ := Prod.mk.inj (honly _ h hmarker)
    rfl
  | int h _ =>
    have honly : ∀ p ∈ intWidths, p.1 ∈ wideMarkers → p = (0xD3, 8) := by decide
    obtain ⟨rfl, rfl⟩ := Prod.mk.inj (honly _ h hmarker)
    rfl
  | array h _ =>
    have honly : ∀ p ∈ arrayWidths, p.1 ∈ wideMarkers → p = (0xDD, 4) := by decide
    obtain ⟨rfl, rfl⟩ := Prod.mk.inj (honly _ h hmarker)
    rfl
  | map h _ =>
    have honly : ∀ p ∈ mapWidths, p.1 ∈ wideMarkers → p = (0xDF, 4) := by decide
    obtain ⟨rfl, rfl⟩ := Prod.mk.inj (honly _ h hmarker)
    rfl

/-! ### Compact heads -/

/-- The count in a marker. -/
theorem low_toNat_lt (marker : UInt8) : (marker &&& 0x0F).toUInt32.toNat < 0x10 := by
  rw [UInt8.toNat_toUInt32, UInt8.toNat_and]
  exact Nat.lt_succ_of_le Nat.and_le_right

/-- The length in a marker. -/
theorem length_toNat_lt (marker : UInt8) : (marker &&& 0x1F).toNat < 0x20 := by
  rw [UInt8.toNat_and]
  exact Nat.lt_succ_of_le Nat.and_le_right

/-- The integer in a marker. -/
theorem signed_small (h : 0xE0 ≤ marker) :
    Bytes.signed 1 marker.toNat < 0 ∧ -0x20 ≤ Bytes.signed 1 marker.toNat := by
  have hE0 : 0xE0 ≤ marker.toNat := UInt8.le_iff_toNat_le.mp h
  have hlt := marker.toNat_lt
  have hcapacity : Bytes.capacity 1 = 0x100 := rfl
  rw [Bytes.signed, if_neg (by omega)]
  omega

theorem capacities : Bytes.capacity 1 = 0x100 ∧ Bytes.capacity 2 = 0x10000 ∧
    Bytes.capacity 4 = 0x100000000 := ⟨rfl, rfl, rfl⟩

/-- An integer that a width holds has a form with as many octets behind its marker at most. -/
theorem length_uintForm_le {u : UInt64} {width : Nat} (hwidth : width ∈ [1, 2, 4, 8])
    (h : u.toNat < Bytes.capacity width) : (uintForm .compact u).length ≤ width + 1 := by
  obtain ⟨h1, h2, h4⟩ := capacities
  unfold uintForm
  dsimp only
  simp only [List.mem_cons, List.not_mem_nil, or_false] at hwidth
  split_ifs <;> simp only [List.length_cons, List.length_nil, Bytes.length_big]
  all_goals rcases hwidth with rfl | rfl | rfl | rfl <;> omega

theorem length_intForm_le {i : Int64} {width : Nat} (hwidth : width ∈ [1, 2, 4, 8])
    (h : Bytes.FitsSigned width i) : (intForm .compact i).length ≤ width + 1 := by
  obtain ⟨h1, h2, h4⟩ := capacities
  obtain ⟨-, hleast, hgreatest⟩ := h
  unfold intForm
  dsimp only
  split
  · rename_i hi
    have hnat := Bytes.toNat_toUInt64 i
    rw [if_pos hi] at hnat
    exact length_uintForm_le hwidth (by omega)
  · simp only [List.mem_cons, List.not_mem_nil, or_false] at hwidth
    split_ifs <;> simp only [List.length_cons, Bytes.length_big]
    all_goals rcases hwidth with rfl | rfl | rfl | rfl <;> omega

theorem length_textHead_le {length width : Nat} (hwidth : width ∈ [1, 2, 4])
    (h : length < Bytes.capacity width) : (textHead .compact length).length ≤ width + 1 := by
  obtain ⟨h1, h2, h4⟩ := capacities
  unfold textHead
  simp only [List.mem_cons, List.not_mem_nil, or_false] at hwidth
  simp only [true_and]
  split_ifs <;> simp only [List.length_cons, List.length_nil, Bytes.length_big]
  all_goals rcases hwidth with rfl | rfl | rfl <;> omega

theorem length_headForm_le {count : UInt32} {short medium long : UInt8} {width : Nat}
    (hwidth : width ∈ [2, 4]) (h : count.toNat < Bytes.capacity width) :
    (headForm .compact count short medium long).length ≤ width + 1 := by
  obtain ⟨h1, h2, h4⟩ := capacities
  unfold headForm
  dsimp only
  simp only [List.mem_cons, List.not_mem_nil, or_false] at hwidth
  simp only [true_and]
  split_ifs <;> simp only [List.length_cons, List.length_nil, Bytes.length_big]
  all_goals rcases hwidth with rfl | rfl <;> omega

/-- A count in a marker needs no octets behind it. -/
theorem length_headForm_short {count : UInt32} {short medium long : UInt8} (h : count.toNat < 0x10) :
    (headForm .compact count short medium long).length = 1 := by
  unfold headForm
  dsimp only
  rw [if_pos ⟨rfl, h⟩, List.length_singleton]

/-- **The head that a compact writer has for a tag is no longer than any other.** -/
theorem Head.compact_le (h : Head marker body tag) (hmarker : marker ≠ 0xCA) :
    (tagForm .compact tag).length ≤ (marker :: body).length := by
  cases h with
  | null => exact Nat.le_refl _
  | no => exact Nat.le_refl _
  | yes => exact Nat.le_refl _
  | double bits => exact Nat.le_refl _
  | single bits => exact absurd rfl hmarker
  | fixUInt h =>
    have hnat : marker.toUInt64.toNat < 0x80 := by
      rw [UInt8.toNat_toUInt64]
      exact UInt8.lt_iff_toNat_lt.mp h
    rw [tagForm, uintForm, if_pos hnat]
    exact Nat.le_refl _
  | fixMap _ _ =>
    rw [tagForm, mapForm, length_headForm_short (low_toNat_lt marker)]
    exact Nat.le_refl _
  | fixArray _ _ =>
    rw [tagForm, arrayForm, length_headForm_short (low_toNat_lt marker)]
    exact Nat.le_refl _
  | fixText _ _ hlength =>
    have hshort : body.length < 0x20 := hlength ▸ length_toNat_lt marker
    rw [tagForm, textForm, textHead, if_pos ⟨rfl, hshort⟩]
    exact Nat.le_refl _
  | fixInt h =>
    obtain ⟨hneg, hleast⟩ := signed_small h
    rw [tagForm, intForm, Int64.toInt_ofInt_of_le (by omega) (by omega), if_neg (by omega), if_pos hleast]
    exact Nat.le_refl _
  | @text _ width octets h hlt =>
    have hwidth : ∀ p ∈ textWidths, p.2 ∈ [1, 2, 4] := by decide
    have hle := length_textHead_le (hwidth _ h) hlt
    rw [tagForm, textForm, List.length_append, List.length_cons, List.length_append,
      Bytes.length_big]
    omega
  | @uint _ width u h hlt =>
    have hwidth : ∀ p ∈ uintWidths, p.2 ∈ [1, 2, 4, 8] := by decide
    rw [tagForm, List.length_cons, Bytes.length_big]
    exact length_uintForm_le (hwidth _ h) hlt
  | @int _ width i h hfits =>
    have hwidth : ∀ p ∈ intWidths, p.2 ∈ [1, 2, 4, 8] := by decide
    rw [tagForm, List.length_cons, Bytes.length_big]
    exact length_intForm_le (hwidth _ h) hfits
  | @array _ width count h hlt =>
    have hwidth : ∀ p ∈ arrayWidths, p.2 ∈ [2, 4] := by decide
    rw [tagForm, arrayForm, List.length_cons, Bytes.length_big]
    exact length_headForm_le (hwidth _ h) hlt
  | @map _ width count h hlt =>
    have hwidth : ∀ p ∈ mapWidths, p.2 ∈ [2, 4] := by decide
    rw [tagForm, mapForm, List.length_cons, Bytes.length_big]
    exact length_headForm_le (hwidth _ h) hlt

/-! ## Rows of heads -/

section Rows

variable {said : List Tag} {bytes : Bytes} {markers : List UInt8}

theorem Heads.wide (h : Heads said bytes markers) (hmarkers : ∀ m ∈ markers, m ∈ wideMarkers) :
    said.flatMap (tagForm .wide) = bytes := by
  induction h with
  | nil => rfl
  | cons hhead _ ih =>
    obtain ⟨hmarker, hmarkers⟩ := List.forall_mem_cons.mp hmarkers
    rw [List.flatMap_cons, hhead.wide hmarker, ih hmarkers]

theorem Heads.compact_le (h : Heads said bytes markers) (hmarkers : 0xCA ∉ markers) :
    (said.flatMap (tagForm .compact)).length ≤ bytes.length := by
  induction h with
  | nil => exact Nat.le_refl _
  | cons hhead _ ih =>
    rw [List.mem_cons, not_or] at hmarkers
    rw [List.flatMap_cons, List.length_append, List.length_append]
    exact Nat.add_le_add (hhead.compact_le (Ne.symm hmarkers.1)) (ih hmarkers.2)

end Rows

/-! ## Whole inputs -/

variable {input : Bytes} {markers : List UInt8} {o : FoldOptions}

/-- The form of a tree that was read is the heads that a writer has for the tags of the input. -/
theorem form_of_read (h : readTree input limit = .ok t) (hmarkers : Markers input markers) :
    ∃ said, Heads said input markers ∧ ∀ widths, form widths t = said.flatMap (tagForm widths) := by
  obtain ⟨-, said, markers', hheads, hkept⟩ := readTree_takes h
  obtain ⟨said', hheads'⟩ := hmarkers
  obtain ⟨rfl, rfl⟩ := hheads.unique hheads'
  refine ⟨said, hheads, fun widths => ?_⟩
  rw [form_eq_tags, ← hkept, List.flatMap_map]
  exact List.flatMap_congr fun tag _ => tagForm_kept tag

/-! ## Both directions -/

theorem codecs_eq : Codec.ofFormat .messagePack = [compact, wide, node] := rfl

/-- Every decoder is the one that reads a tree first. -/
theorem decode_eq {reader : Codec} (h : reader ∈ Codec.ofFormat .messagePack) (input : Bytes)
    (o : FoldOptions) : reader.decode input o = decodeTree input o := by
  rw [codecs_eq] at h
  rcases List.mem_cons.mp h with rfl | h
  · exact decodeStream_eq input o
  rcases List.mem_cons.mp h with rfl | h
  · exact decodeStream_eq input o
  · rw [List.mem_singleton.mp h]
    rfl

/-- Every codec encodes a tree in its form, and its widths decide which. -/
theorem encode_ok {writer : Codec} (h : writer ∈ Codec.ofFormat .messagePack) {e : Encoded}
    (hok : writer.encode t o = .ok e) : t.Short ∧ ∃ widths, e.bytes = form widths t := by
  rw [codecs_eq] at h
  rcases List.mem_cons.mp h with rfl | h
  · obtain ⟨hshort, -, rfl⟩ := encode_eq_ok_iff.mp hok
    exact ⟨hshort, _, rfl⟩
  rcases List.mem_cons.mp h with rfl | h
  · obtain ⟨hshort, -, rfl⟩ := encode_eq_ok_iff.mp hok
    exact ⟨hshort, _, rfl⟩
  · rw [List.mem_singleton.mp h] at hok
    obtain ⟨hshort, -, rfl⟩ := encode_eq_ok_iff.mp hok
    exact ⟨hshort, _, rfl⟩

/-- The form of a tree decodes to its digest, or is too deep. -/
theorem decode_form_eq {reader : Codec} (h : reader ∈ Codec.ofFormat .messagePack) (ht : t.Short)
    (o : FoldOptions) : reader.decode (form widths t) o = if t.depth ≤ o.depthLimit then
      .ok (t.digest o) else .error (.decode (.depthExceeded o.depthLimit)) := by
  rw [decode_eq h, decodeTree_form_eq ht]

/-- **Reading and writing are inverse.** -/
theorem messagePack_reading_inverts_writing :
    (∀ (t : Tree) (o : FoldOptions) (e : Encoded) (d : Nat),
      t.depth ≤ min d FoldOptions.depthCeiling →
        (wide.encode t o = .ok e → readValue e.bytes d = .ok t) ∧
        (compact.encode t o = .ok e ∨ node.encode t o = .ok e →
          readValue e.bytes d = .ok (t.mapIntegers .toUnsigned))) ∧
    (∀ writer ∈ Codec.ofFormat .messagePack, ∀ (t : Tree) (o : FoldOptions) (e : Encoded),
      writer.encode t o = .ok e →
        ∀ reader ∈ Codec.ofFormat .messagePack, ∀ o' : FoldOptions,
          (t.depth ≤ o'.depthLimit →
            ∃ digest, foldTree t o' = .ok digest ∧ reader.decode e.bytes o' = .ok digest) ∧
          (o'.depthLimit < t.depth →
            reader.decode e.bytes o' = .error (.decode (.depthExceeded o'.depthLimit)))) ∧
    (∀ (b : Bytes) (d : Nat) (t : Tree), readValue b d = .ok t →
      (∃! markers, Markers b markers) ∧
      ∀ markers, Markers b markers → ∀ o : FoldOptions, t.depth ≤ o.depthLimit →
        ((∀ m ∈ markers, m ∈ wideMarkers) → ∃ e, wide.encode t o = .ok e ∧ e.bytes = b) ∧
        ∃ e, compact.encode t o = .ok e ∧
          (∀ reader ∈ Codec.ofFormat .messagePack,
            reader.decode b o = .ok e.digest ∧ reader.decode e.bytes o = .ok e.digest) ∧
          (0xCA ∉ markers → e.bytes.length ≤ b.length)) := by
  refine ⟨fun t o e d hdepth => ⟨fun hok => ?wide, fun hok => ?compact⟩,
    fun writer hwriter t o e hok reader hreader o' => ?digests, fun b d t hread => ⟨?markers, ?_⟩⟩
  case wide =>
    obtain ⟨hshort, -, rfl⟩ := encode_eq_ok_iff.mp hok
    exact (readTree_form hshort hdepth).trans (congrArg Except.ok t.mapIntegers_id)
  case compact =>
    rcases hok with hok | hok
    · obtain ⟨hshort, -, rfl⟩ := encode_eq_ok_iff.mp hok
      exact readTree_form hshort hdepth
    · obtain ⟨hshort, -, rfl⟩ := encode_eq_ok_iff.mp hok
      exact readTree_form hshort hdepth
  case digests =>
    obtain ⟨hshort, widths, hbytes⟩ := encode_ok hwriter hok
    rw [hbytes, decode_form_eq hreader hshort]
    refine ⟨fun hdepth => ⟨t.digest o', foldTreeOn_eq hdepth hshort.countable, if_pos hdepth⟩, ?_⟩
    exact fun hdepth => if_neg (Nat.not_le.mpr hdepth)
  case markers =>
    obtain ⟨-, said, markers, hheads, -⟩ := readTree_takes hread
    exact ⟨markers, ⟨said, hheads⟩, fun _ ⟨_, hheads'⟩ => (hheads'.unique hheads).2⟩
  intro markers hmarkers o hdepth
  have hshort := (readTree_takes hread).1
  obtain ⟨said, hheads, hform⟩ := form_of_read hread hmarkers
  refine ⟨fun hwide => ?_, _, encode_form hshort hdepth, fun reader hreader => ⟨?_, ?_⟩, ?_⟩
  · exact ⟨_, encode_form hshort hdepth, (hform .wide).trans (hheads.wide hwide)⟩
  · exact readsTrees.decode_of_read (decode_eq hreader) hread hdepth
  · rw [decode_form_eq hreader hshort, if_pos hdepth]
  · intro hsingle
    rw [hform .compact]
    exact hheads.compact_le hsingle

theorem messagePack_reading_inverts_writing_pair :
    readValue [0x92, 0x05, 0xC0] 1 = .ok (.list [.uint 5, .null]) ∧
    wide.decode [0x92, 0x05, 0xC0] { maxDepth := 0 } = .error (.decode (.depthExceeded 0)) ∧
    (∃ e, wide.encode (.list [.uint 5, .null]) {} = .ok e ∧
      e.bytes = [0xDD, 0, 0, 0, 2, 0xCF, 0, 0, 0, 0, 0, 0, 0, 5, 0xC0]) := by
  have hcompact : compact.encode (.list [.int 5, .null]) {} =
      .ok ⟨[0x92, 0x05, 0xC0], (Tree.list [.int 5, .null]).digest {}⟩ := by rfl
  have hwide : wide.encode (.list [.uint 5, .null]) {} =
      .ok ⟨[0xDD, 0, 0, 0, 2, 0xCF, 0, 0, 0, 0, 0, 0, 0, 5, 0xC0],
        (Tree.list [.uint 5, .null]).digest {}⟩ := by rfl
  have hmarkers : Markers [0xDD, 0, 0, 0, 2, 0xCF, 0, 0, 0, 0, 0, 0, 0, 5, 0xC0]
      [0xDD, 0xCF, 0xC0] :=
    ⟨_, .cons (@Head.array 0xDD 4 2 (by decide) (by decide))
      (.cons (@Head.uint 0xCF 8 5 (by decide) (by decide)) (.cons .null .nil))⟩
  obtain ⟨hforward, hdigests, hconverse⟩ := messagePack_reading_inverts_writing
  have hread := (hforward _ {} _ 1 (by decide)).1 hwide
  exact ⟨(hforward _ {} _ 1 (by decide)).2 (.inl hcompact),
    (hdigests compact (List.mem_cons_self ..) _ {} _ hcompact wide
      (List.mem_cons_of_mem _ (List.mem_cons_self ..)) _).2 (by decide),
    ((hconverse _ 1 _ hread).2 _ hmarkers {} (by decide)).1 (by simp [wideMarkers])⟩

end TreeDigest.MessagePack
