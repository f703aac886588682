import TreeDigest.MessagePack.Codec
import TreeDigest.Proofs.Input.Reads

/-!
# The grammar of MessagePack

An input is a row of heads. A head is a marker with the octets that go with it, and
they say a tag; the entries of a container are the heads that come next. The grammar
says this without a reader, and the reader of tags is sound and complete for it: it
takes a head and gives its tag, whichever of the widths the head has.

So the markers of an input are determined by the input, and what a writer does to an
input that was read is a matter of single heads. A wide writer puts the head it has
for a tag, which is the only one with its marker. A compact writer puts a head that
is not longer than any other of the tag, except that it has no head for a number of
single precision.
-/

namespace TreeDigest.MessagePack

open Reader (Reads)

/-! ## Heads -/

/-- The markers of strings, each with the width of the length behind it. -/
def textWidths : List (UInt8 × Nat) :=
  [(0xC4, 1), (0xC5, 2), (0xC6, 4), (0xD9, 1), (0xDA, 2), (0xDB, 4)]

def uintWidths : List (UInt8 × Nat) := [(0xCC, 1), (0xCD, 2), (0xCE, 4), (0xCF, 8)]

def intWidths : List (UInt8 × Nat) := [(0xD0, 1), (0xD1, 2), (0xD2, 4), (0xD3, 8)]

def arrayWidths : List (UInt8 × Nat) := [(0xDC, 2), (0xDD, 4)]

def mapWidths : List (UInt8 × Nat) := [(0xDE, 2), (0xDF, 4)]

/-- A marker and the octets that go with it say a tag. -/
inductive Head : UInt8 → Bytes → Tag → Prop
  | fixUInt {marker : UInt8} : marker < 0x80 → Head marker [] (.uint marker.toUInt64)
  | fixMap {marker : UInt8} : 0x80 ≤ marker → marker < 0x90 →
      Head marker [] (.map (marker &&& 0x0F).toUInt32)
  | fixArray {marker : UInt8} : 0x90 ≤ marker → marker < 0xA0 →
      Head marker [] (.array (marker &&& 0x0F).toUInt32)
  | fixText {marker : UInt8} {octets : Bytes} : 0xA0 ≤ marker → marker < 0xC0 →
      octets.length = (marker &&& 0x1F).toNat → Head marker octets (.text octets)
  | fixInt {marker : UInt8} : 0xE0 ≤ marker →
      Head marker [] (.int (Int64.ofInt (Bytes.signed 1 marker.toNat)))
  | null : Head 0xC0 [] .null
  | no : Head 0xC2 [] (.bool false)
  | yes : Head 0xC3 [] (.bool true)
  | single (bits : UInt32) : Head 0xCA (Bytes.big 4 bits.toNat) (.single bits)
  | double (bits : UInt64) : Head 0xCB (Bytes.big 8 bits.toNat) (.double bits)
  | text {marker : UInt8} {width : Nat} {octets : Bytes} : (marker, width) ∈ textWidths →
      octets.length < Bytes.capacity width →
      Head marker (Bytes.big width octets.length ++ octets) (.text octets)
  | uint {marker : UInt8} {width : Nat} {u : UInt64} : (marker, width) ∈ uintWidths →
      u.toNat < Bytes.capacity width → Head marker (Bytes.big width u.toNat) (.uint u)
  | int {marker : UInt8} {width : Nat} {i : Int64} : (marker, width) ∈ intWidths →
      Bytes.FitsSigned width i → Head marker (Bytes.big width i.toUInt64.toNat) (.int i)
  | array {marker : UInt8} {width : Nat} {count : UInt32} : (marker, width) ∈ arrayWidths →
      count.toNat < Bytes.capacity width → Head marker (Bytes.big width count.toNat) (.array count)
  | map {marker : UInt8} {width : Nat} {count : UInt32} : (marker, width) ∈ mapWidths →
      count.toNat < Bytes.capacity width → Head marker (Bytes.big width count.toNat) (.map count)

/-! ## The reader of tags takes heads -/

variable {c c' : Cursor} {t : Tag}

/-- Some head of a tag that begins with a marker lies between two places. -/
def TakesHead (marker : UInt8) (c : Cursor) (t : Tag) (c' : Cursor) : Prop :=
  ∃ body, Head marker body t ∧ c.Takes body c'

theorem sizedText_ok {marker : UInt8} {width : Nat} (hmarker : (marker, width) ∈ textWidths)
    (h : sizedText width c = .ok t c') : TakesHead marker c t c' := by
  obtain ⟨length, c₁, hlength, h⟩ := Steps.bind_eq_ok_iff.mp h
  obtain ⟨octets, c₂, htake, h⟩ := Steps.bind_eq_ok_iff.mp h
  cases h
  obtain ⟨hlt, hbig⟩ := Reader.big_ok hlength
  obtain ⟨rfl, hoctets⟩ := Reader.take_ok htake
  exact ⟨_, .text hmarker hlt, hbig.trans hoctets⟩

/-- A number that is taken for a word which gives it back is that word. -/
theorem word_ok {α : Type} {width : Nat} {word : Nat → α} {value : α → Nat} {say : α → Tag}
    (hback : ∀ n < Bytes.capacity width, value (word n) = n)
    (h : (do return say (word (← Reader.big width)) : Reader Tag) c = .ok t c') :
    ∃ w : α, t = say w ∧ value w < Bytes.capacity width ∧
      c.Takes (Bytes.big width (value w)) c' := by
  obtain ⟨n, c₁, hn, h⟩ := Steps.bind_eq_ok_iff.mp h
  cases h
  obtain ⟨hlt, hbig⟩ := Reader.big_ok hn
  exact ⟨word n, rfl, by rwa [hback n hlt], by rwa [hback n hlt]⟩

theorem word32_ok {width : Nat} {say : UInt32 → Tag} (hwidth : width ≤ 4)
    (h : (do return say (← Reader.big width).toUInt32 : Reader Tag) c = .ok t c') :
    ∃ n : UInt32, t = say n ∧ n.toNat < Bytes.capacity width ∧
      c.Takes (Bytes.big width n.toNat) c' :=
  word_ok (fun _ hlt => Bytes.toNat_word hwidth hlt) h

theorem word64_ok {width : Nat} {say : UInt64 → Tag} (hwidth : width ≤ 8)
    (h : (do return say (← Reader.big width).toUInt64 : Reader Tag) c = .ok t c') :
    ∃ n : UInt64, t = say n ∧ n.toNat < Bytes.capacity width ∧
      c.Takes (Bytes.big width n.toNat) c' :=
  word_ok (fun _ hlt => Bytes.toNat_wide hwidth hlt) h

theorem unsigned_ok {marker : UInt8} {width : Nat} (hmarker : (marker, width) ∈ uintWidths)
    (h : unsigned width c = .ok t c') : TakesHead marker c t c' := by
  have hle : ∀ p ∈ uintWidths, p.2 ≤ 8 := by decide
  obtain ⟨u, rfl, hlt, htaken⟩ := word64_ok (hle _ hmarker) h
  exact ⟨_, .uint hmarker hlt, htaken⟩

theorem signed_ok {marker : UInt8} {width : Nat} (hmarker : (marker, width) ∈ intWidths)
    (h : signed width c = .ok t c') : TakesHead marker c t c' := by
  obtain ⟨n, c₁, hn, h⟩ := Steps.bind_eq_ok_iff.mp h
  cases h
  have hdvd : ∀ p ∈ intWidths, Bytes.capacity p.2 ∣ 0x10000000000000000 := by decide
  obtain ⟨i, rfl, hfits, htaken⟩ := Reader.signedBig_ok (hdvd _ hmarker) hn
  rw [Int64.ofInt_toInt]
  exact ⟨_, .int hmarker hfits, htaken⟩

theorem arrayTag_ok {marker : UInt8} {width : Nat} (hmarker : (marker, width) ∈ arrayWidths)
    (h : (do return Tag.array (← Reader.big width).toUInt32 : Reader Tag) c = .ok t c') :
    TakesHead marker c t c' := by
  have hle : ∀ p ∈ arrayWidths, p.2 ≤ 4 := by decide
  obtain ⟨count, rfl, hlt, htaken⟩ := word32_ok (hle _ hmarker) h
  exact ⟨_, .array hmarker hlt, htaken⟩

theorem mapTag_ok {marker : UInt8} {width : Nat} (hmarker : (marker, width) ∈ mapWidths)
    (h : (do return Tag.map (← Reader.big width).toUInt32 : Reader Tag) c = .ok t c') :
    TakesHead marker c t c' := by
  have hle : ∀ p ∈ mapWidths, p.2 ≤ 4 := by decide
  obtain ⟨count, rfl, hlt, htaken⟩ := word32_ok (hle _ hmarker) h
  exact ⟨_, .map hmarker hlt, htaken⟩

theorem singleTag_ok
    (h : (do return Tag.single (← Reader.big 4).toUInt32 : Reader Tag) c = .ok t c') :
    TakesHead 0xCA c t c' := by
  obtain ⟨bits, rfl, -, htaken⟩ := word32_ok (by decide) h
  exact ⟨_, .single bits, htaken⟩

theorem doubleTag_ok
    (h : (do return Tag.double (← Reader.big 8).toUInt64 : Reader Tag) c = .ok t c') :
    TakesHead 0xCB c t c' := by
  obtain ⟨bits, rfl, -, htaken⟩ := word64_ok (by decide) h
  exact ⟨_, .double bits, htaken⟩

theorem wideTag_ok {offset : Nat} {marker : UInt8} (h : wideTag offset marker c = .ok t c') :
    TakesHead marker c t c' := by
  unfold wideTag at h
  split at h
  · cases h; exact ⟨_, .null, .refl _⟩
  · cases h; exact ⟨_, .no, .refl _⟩
  · cases h; exact ⟨_, .yes, .refl _⟩
  · exact sizedText_ok (by decide) h
  · exact sizedText_ok (by decide) h
  · exact sizedText_ok (by decide) h
  · exact sizedText_ok (by decide) h
  · exact sizedText_ok (by decide) h
  · exact sizedText_ok (by decide) h
  · exact singleTag_ok h
  · exact doubleTag_ok h
  · exact unsigned_ok (by decide) h
  · exact unsigned_ok (by decide) h
  · exact unsigned_ok (by decide) h
  · exact unsigned_ok (by decide) h
  · exact signed_ok (by decide) h
  · exact signed_ok (by decide) h
  · exact signed_ok (by decide) h
  · exact signed_ok (by decide) h
  · exact arrayTag_ok (by decide) h
  · exact arrayTag_ok (by decide) h
  · exact mapTag_ok (by decide) h
  · exact mapTag_ok (by decide) h
  · cases h

/-- **A tag that is read is said by the head that is taken.** -/
theorem tag_ok (h : tag c = .ok t c') :
    ∃ marker body, Head marker body t ∧ c.Takes (marker :: body) c' := by
  obtain ⟨offset, c₀, hoffset, h⟩ := Steps.bind_eq_ok_iff.mp h
  obtain ⟨rfl, rfl⟩ := Reader.offset_ok hoffset
  obtain ⟨marker, c₁, hmarker, h⟩ := Steps.bind_eq_ok_iff.mp h
  have htaken := Reader.octet_ok hmarker
  suffices hhead : TakesHead marker c₁ t c' by
    obtain ⟨body, hhead, hbody⟩ := hhead
    exact ⟨marker, body, hhead, htaken.trans hbody⟩
  split at h
  · rename_i h80
    cases h
    exact ⟨_, .fixUInt h80, .refl _⟩
  rename_i h80
  split at h
  · rename_i h90
    cases h
    exact ⟨_, .fixMap (UInt8.not_lt.mp h80) h90, .refl _⟩
  rename_i h90
  split at h
  · rename_i hA0
    cases h
    exact ⟨_, .fixArray (UInt8.not_lt.mp h90) hA0, .refl _⟩
  rename_i hA0
  split at h
  · rename_i hC0
    obtain ⟨octets, c₂, htake, h⟩ := Steps.bind_eq_ok_iff.mp h
    cases h
    obtain ⟨hlength, hoctets⟩ := Reader.take_ok htake
    exact ⟨_, .fixText (UInt8.not_lt.mp hA0) hC0 hlength, hoctets⟩
  split at h
  · exact wideTag_ok h
  · rename_i hE0
    cases h
    exact ⟨_, .fixInt (UInt8.not_lt.mp hE0), .refl _⟩

/-! ## Every head is taken -/

/-- What a marker says, before anything behind it is read. -/
theorem tag_cons (offset : Nat) (marker : UInt8) (rest : Bytes) :
    tag ⟨offset, marker :: rest⟩ =
      (if marker < 0x80 then return .uint marker.toUInt64
        else if marker < 0x90 then return .map (marker &&& 0x0F).toUInt32
        else if marker < 0xA0 then return .array (marker &&& 0x0F).toUInt32
        else if marker < 0xC0 then return .text (← Reader.take (marker &&& 0x1F).toNat)
        else if marker < 0xE0 then wideTag offset marker
        else return .int (Int64.ofInt (Bytes.signed 1 marker.toNat)) : Reader Tag)
        ⟨offset + 1, rest⟩ := rfl

/-- A tag whose marker hands over to a reader of what follows. -/
theorem tag_reads {marker : UInt8} {bytes : Bytes} (reader : Reader Tag)
    (hmarker : ∀ offset rest, tag ⟨offset, marker :: rest⟩ = reader ⟨offset + 1, rest⟩)
    (h : reader.Reads bytes t) : tag.Reads (marker :: bytes) t where
  apply offset rest := by
    rw [List.cons_append, hmarker, h.apply, List.length_cons]
    congr 2
    omega

theorem word_reads {α : Type} {width : Nat} {word : Nat → α} {value : α → Nat} {w : α}
    (say : α → Tag) (hback : word (value w) = w) (h : value w < Bytes.capacity width) :
    Reads (do return say (word (← Reader.big width))) (Bytes.big width (value w)) (say w) := by
  have hread := (Reads.big h).map (g := fun n => say (word n))
  rwa [hback] at hread

theorem word32_reads {width : Nat} {n : UInt32} (say : UInt32 → Tag)
    (h : n.toNat < Bytes.capacity width) :
    Reads (do return say (← Reader.big width).toUInt32) (Bytes.big width n.toNat) (say n) :=
  word_reads say UInt32.ofNat_toNat h

theorem word64_reads {width : Nat} {n : UInt64} (say : UInt64 → Tag)
    (h : n.toNat < Bytes.capacity width) :
    Reads (do return say (← Reader.big width).toUInt64) (Bytes.big width n.toNat) (say n) :=
  word_reads say UInt64.ofNat_toNat h

theorem signed_reads {width : Nat} {i : Int64} (h : Bytes.FitsSigned width i) :
    (signed width).Reads (Bytes.big width i.toUInt64.toNat) (.int i) := by
  have hread := (Reads.signedBig h).map (g := fun n => Tag.int (Int64.ofInt n))
  rwa [Int64.ofInt_toInt] at hread

theorem sizedText_reads {width : Nat} {octets : Bytes} (h : octets.length < Bytes.capacity width) :
    (sizedText width).Reads (Bytes.big width octets.length ++ octets) (.text octets) :=
  (Reads.big h).bind (Reads.take octets).map

/-- **A tag is read from every head that says it.** -/
theorem head_reads {marker : UInt8} {body : Bytes} (h : Head marker body t) :
    tag.Reads (marker :: body) t := by
  -- a marker that is at least some octet is below none that is no greater
  have habove : ∀ {a b : UInt8}, a ≤ marker → b ≤ a → ¬ marker < b := fun ha hb =>
    UInt8.not_lt.mpr (UInt8.le_trans hb ha)
  cases h with
  | fixUInt h =>
    refine tag_reads (return .uint marker.toUInt64) (fun offset rest => ?_) .pure
    rw [tag_cons, if_pos h]
  | fixMap hleast h =>
    refine tag_reads (return .map (marker &&& 0x0F).toUInt32) (fun offset rest => ?_) .pure
    rw [tag_cons, if_neg (habove hleast (by decide)), if_pos h]
  | fixArray hleast h =>
    refine tag_reads (return .array (marker &&& 0x0F).toUInt32) (fun offset rest => ?_) .pure
    rw [tag_cons, if_neg (habove hleast (by decide)), if_neg (habove hleast (by decide)), if_pos h]
  | fixText hleast h hlength =>
    refine tag_reads (return .text (← Reader.take (marker &&& 0x1F).toNat))
      (fun offset rest => ?_) (Reads.take_of_length hlength).map
    rw [tag_cons, if_neg (habove hleast (by decide)), if_neg (habove hleast (by decide)),
      if_neg (habove hleast (by decide)), if_pos h]
  | fixInt hleast =>
    refine tag_reads (return .int (Int64.ofInt (Bytes.signed 1 marker.toNat)))
      (fun offset rest => ?_) .pure
    rw [tag_cons, if_neg (habove hleast (by decide)), if_neg (habove hleast (by decide)),
      if_neg (habove hleast (by decide)), if_neg (habove hleast (by decide)),
      if_neg (habove hleast (by decide))]
  | null => exact tag_reads (return .null) (fun _ _ => rfl) .pure
  | no => exact tag_reads (return .bool false) (fun _ _ => rfl) .pure
  | yes => exact tag_reads (return .bool true) (fun _ _ => rfl) .pure
  | single bits => exact tag_reads _ (fun _ _ => rfl) (word32_reads _ bits.toNat_lt)
  | double bits => exact tag_reads _ (fun _ _ => rfl) (word64_reads _ bits.toNat_lt)
  | @text _ width octets hmarker h =>
    have hread := sizedText_reads h
    simp only [textWidths, List.mem_cons, Prod.mk.injEq, List.not_mem_nil, or_false] at hmarker
    rcases hmarker with ⟨rfl, rfl⟩ | ⟨rfl, rfl⟩ | ⟨rfl, rfl⟩ | ⟨rfl, rfl⟩ | ⟨rfl, rfl⟩ | ⟨rfl, rfl⟩
    all_goals exact tag_reads _ (fun _ _ => rfl) hread
  | @uint _ width u hmarker h =>
    have hread := word64_reads Tag.uint h
    simp only [uintWidths, List.mem_cons, Prod.mk.injEq, List.not_mem_nil, or_false] at hmarker
    rcases hmarker with ⟨rfl, rfl⟩ | ⟨rfl, rfl⟩ | ⟨rfl, rfl⟩ | ⟨rfl, rfl⟩
    all_goals exact tag_reads _ (fun _ _ => rfl) hread
  | @int _ width i hmarker h =>
    have hread := signed_reads h
    simp only [intWidths, List.mem_cons, Prod.mk.injEq, List.not_mem_nil, or_false] at hmarker
    rcases hmarker with ⟨rfl, rfl⟩ | ⟨rfl, rfl⟩ | ⟨rfl, rfl⟩ | ⟨rfl, rfl⟩
    all_goals exact tag_reads _ (fun _ _ => rfl) hread
  | @array _ width count hmarker h =>
    have hread := word32_reads Tag.array h
    simp only [arrayWidths, List.mem_cons, Prod.mk.injEq, List.not_mem_nil, or_false] at hmarker
    rcases hmarker with ⟨rfl, rfl⟩ | ⟨rfl, rfl⟩
    all_goals exact tag_reads _ (fun _ _ => rfl) hread
  | @map _ width count hmarker h =>
    have hread := word32_reads Tag.map h
    simp only [mapWidths, List.mem_cons, Prod.mk.injEq, List.not_mem_nil, or_false] at hmarker
    rcases hmarker with ⟨rfl, rfl⟩ | ⟨rfl, rfl⟩
    all_goals exact tag_reads _ (fun _ _ => rfl) hread

/-! ## Rows of heads -/

/-- Octets that are heads one after the other, with the tags and the markers of these. -/
inductive Heads : List Tag → Bytes → List UInt8 → Prop
  | nil : Heads [] [] []
  | cons {marker : UInt8} {body bytes : Bytes} {t : Tag} {tags : List Tag} {markers : List UInt8} :
      Head marker body t → Heads tags bytes markers →
      Heads (t :: tags) (marker :: body ++ bytes) (marker :: markers)

/-- The markers of octets that are a row of heads. -/
def Markers (bytes : Bytes) (markers : List UInt8) : Prop := ∃ tags, Heads tags bytes markers

namespace Heads

variable {tags tags' : List Tag} {bytes bytes' : Bytes} {markers markers' : List UInt8}

theorem append (h : Heads tags bytes markers) (h' : Heads tags' bytes' markers') :
    Heads (tags ++ tags') (bytes ++ bytes') (markers ++ markers') := by
  induction h with
  | nil => exact h'
  | @cons marker body bytes t tags markers hhead _ ih =>
    have happ := cons hhead ih
    rwa [← List.append_assoc] at happ

/-- A head takes an octet at least. -/
theorem length_le (h : Heads tags bytes markers) : tags.length ≤ bytes.length := by
  induction h with
  | nil => exact Nat.le_refl 0
  | cons _ _ ih =>
    rw [List.length_cons, List.length_append, List.length_cons]
    omega

/-- **Octets are a row of heads in one way at most.** -/
theorem unique (h : Heads tags bytes markers) (h' : Heads tags' bytes markers') :
    tags = tags' ∧ markers = markers' := by
  induction h generalizing tags' markers' with
  | nil => cases h'; exact ⟨rfl, rfl⟩
  | @cons marker body rest t tags markers hhead _ ih =>
    generalize hbytes : marker :: body ++ rest = bytes at h'
    cases h' with
    | nil => cases hbytes
    | @cons marker' body' rest' t' tags' markers' hhead' hheads' =>
      -- the reader of tags takes both first heads, so they are one
      obtain ⟨rfl, rfl⟩ := (head_reads hhead).unique (head_reads hhead') hbytes
      obtain ⟨rfl, rfl⟩ := ih hheads'
      injection hbytes with hmarker _
      exact ⟨rfl, by rw [hmarker]⟩

end Heads

end TreeDigest.MessagePack
