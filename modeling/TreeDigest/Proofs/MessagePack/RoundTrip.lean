import TreeDigest.Proofs.Fold.Signedness
import TreeDigest.Proofs.MessagePack.Form
import TreeDigest.Proofs.MessagePack.Grammar
import TreeDigest.Proofs.MessagePack.Readers

/-!
# Reading MessagePack forms

The tree reader takes the form of a tree back to the tree, except for what a
compact writer drops: it writes a signed integer that is not negative as an
unsigned one.
-/

namespace TreeDigest.MessagePack

open Reader (Reads)

variable {widths : Widths} {limit levels : Nat}

/-- What a writer makes of an integer. -/
def Widths.written : Widths → Integer → Integer
  | .compact => .toUnsigned
  | .wide => id

theorem Widths.value_written (widths : Widths) (n : Integer) : (widths.written n).value = n.value := by
  cases widths with
  | compact => exact n.value_toUnsigned
  | wide => rfl

theorem Widths.written_unsigned (widths : Widths) (u : UInt64) :
    widths.written (.unsigned u) = .unsigned u := by
  cases widths <;> rfl

/-! ## Integers -/

/-- The tag of an integer. -/
def integerTag : Integer → Tag
  | .signed i => .int i
  | .unsigned u => .uint u

theorem tag_fixUInt {u : UInt64} (h : u.toNat < 0x80) : tag.Reads [u.toUInt8] (.uint u) := by
  have hnat : u.toUInt8.toNat = u.toNat := by
    rw [UInt64.toNat_toUInt8]
    exact Nat.mod_eq_of_lt (by omega)
  have hback : u.toUInt8.toUInt64 = u := by
    apply UInt64.toNat_inj.mp
    rw [UInt8.toNat_toUInt64, hnat]
  have hread := head_reads (.fixUInt (UInt8.lt_iff_toNat_lt.mpr (hnat ▸ h) : u.toUInt8 < 0x80))
  rwa [hback] at hread

/-- A small negative integer is its marker. -/
theorem tag_fixInt {i : Int64} (h : -0x20 ≤ i.toInt) (hneg : i.toInt < 0) :
    tag.Reads (Bytes.big 1 i.toUInt64.toNat) (.int i) := by
  have hcapacity : Bytes.capacity 1 = 256 := rfl
  have hfits : Bytes.FitsSigned 1 i := .one ⟨by omega, by omega⟩
  -- the lowest octet of its pattern is the marker, 0xE0 or above
  have hpattern := Bytes.toNat_toUInt64 i
  rw [if_neg (by omega)] at hpattern
  have hsigned := Bytes.signed_toNat hfits
  rw [hcapacity] at hsigned
  have hmarker : Bytes.big 1 i.toUInt64.toNat = [i.toUInt64.toNat.toUInt8] := rfl
  have hnat : i.toUInt64.toNat.toUInt8.toNat = i.toUInt64.toNat % 256 := by simp
  have hleast : 0xE0 ≤ i.toUInt64.toNat.toUInt8 := by
    have hE0 : (0xE0 : UInt8).toNat = 0xE0 := rfl
    rw [UInt8.le_iff_toNat_le, hnat, hE0]
    omega
  have hread := head_reads (.fixInt hleast)
  rwa [hnat, hsigned, Int64.ofInt_toInt, ← hmarker] at hread

theorem tag_uint (u : UInt64) : tag.Reads (uintForm widths u) (.uint u) := by
  have hwide : tag.Reads (0xCF :: Bytes.big 8 u.toNat) (.uint u) :=
    head_reads (.uint (by decide) u.toNat_lt)
  cases widths with
  | wide => exact hwide
  | compact =>
    rw [uintForm]
    split
    · rename_i h
      exact tag_fixUInt h
    split
    · rename_i h
      exact head_reads (.uint (by decide) h)
    split
    · rename_i h
      exact head_reads (.uint (by decide) h)
    split
    · rename_i h
      exact head_reads (.uint (by decide) h)
    exact hwide

theorem tag_int (i : Int64) :
    tag.Reads (intForm widths i) (integerTag (widths.written (.signed i))) := by
  have hwide : tag.Reads (0xD3 :: Bytes.big 8 i.toUInt64.toNat) (.int i) :=
    head_reads (.int (by decide) (.eight i))
  cases widths with
  | wide => exact hwide
  | compact =>
    rw [intForm, Widths.written, Integer.toUnsigned]
    split
    · exact tag_uint i.toUInt64
    rename_i hneg
    split
    · rename_i h
      exact tag_fixInt h (by omega)
    split
    · rename_i h
      exact head_reads (.int (by decide) (.one ⟨h, by omega⟩))
    split
    · rename_i h
      exact head_reads (.int (by decide) (.two ⟨h, by omega⟩))
    split
    · rename_i h
      exact head_reads (.int (by decide) (.four ⟨h, by omega⟩))
    exact hwide

/-! ## Heads and strings -/

/-- A count below 16 stands in the marker itself, between the first marker of its kind
and the first of the next. -/
theorem Head.short {count : UInt32} {t : UInt32 → Tag} (first next : UInt8)
    (hmarker : ∀ n < 0x10, first ≤ (first ||| n.toUInt8) ∧ (first ||| n.toUInt8) < next ∧
      ((first ||| n.toUInt8) &&& 0x0F).toUInt32 = n.toUInt32)
    (hfix : ∀ {marker : UInt8}, first ≤ marker → marker < next →
      Head marker [] (t (marker &&& 0x0F).toUInt32))
    (h : count.toNat < 0x10) : Head (first ||| count.toUInt8) [] (t count) := by
  obtain ⟨hleast, hlt, hcount⟩ := hmarker count.toNat h
  have hhead := hfix hleast hlt
  rwa [hcount, show count.toNat.toUInt32 = count from UInt32.ofNat_toNat] at hhead

theorem Head.map_short {count : UInt32} (h : count.toNat < 0x10) :
    Head (0x80 ||| count.toUInt8) [] (.map count) :=
  .short 0x80 0x90 (by decide) .fixMap h

theorem Head.array_short {count : UInt32} (h : count.toNat < 0x10) :
    Head (0x90 ||| count.toUInt8) [] (.array count) :=
  .short 0x90 0xA0 (by decide) .fixArray h

theorem Head.text_short {octets : Bytes} (h : octets.length < 0x20) :
    Head (0xA0 ||| octets.length.toUInt8) octets (.text octets) := by
  have hmarker : ∀ n < 0x20, 0xA0 ≤ (0xA0 ||| n.toUInt8) ∧ (0xA0 ||| n.toUInt8) < 0xC0 ∧
      ((0xA0 ||| n.toUInt8) &&& 0x1F).toNat = n := by decide
  obtain ⟨hleast, hlt, hlength⟩ := hmarker octets.length h
  exact .fixText hleast hlt hlength.symm

theorem tag_head {count : UInt32} {t : Tag} {short medium long : UInt8}
    (hshort : count.toNat < 0x10 → Head (short ||| count.toUInt8) [] t)
    (hmedium : count.toNat < 0x10000 → Head medium (Bytes.big 2 count.toNat) t)
    (hlong : Head long (Bytes.big 4 count.toNat) t) :
    tag.Reads (headForm widths count short medium long) t := by
  rw [headForm]
  split
  · rename_i h
    exact head_reads (hshort h.2)
  split
  · rename_i h
    exact head_reads (hmedium h.2)
  exact head_reads hlong

theorem tag_array (count : UInt32) : tag.Reads (arrayForm widths count) (.array count) := by
  rw [arrayForm]
  exact tag_head .array_short (fun h => .array (by decide) h) (.array (by decide) count.toNat_lt)

theorem tag_map (count : UInt32) : tag.Reads (mapForm widths count) (.map count) := by
  rw [mapForm]
  exact tag_head .map_short (fun h => .map (by decide) h) (.map (by decide) count.toNat_lt)

theorem tag_text {octets : Bytes} (h : octets.length < 0x100000000) :
    tag.Reads (textForm widths octets) (.text octets) := by
  rw [textForm, textHead]
  split
  · rename_i hshort
    exact head_reads (.text_short hshort.2)
  split
  · rename_i hbyte
    exact head_reads (.text (by decide) hbyte.2)
  split
  · rename_i htwo
    exact head_reads (.text (by decide) htwo.2)
  exact head_reads (.text (by decide) h)

theorem key_reads {k : Bytes} (h : k.length < 0x100000000) : key.Reads (textForm widths k) k :=
  .offset_bind fun _ => .bind_last (tag_text h) .pure

/-! ## Trees -/

/-- A tag takes at least its marker. -/
theorem tag_pos {bytes : Bytes} {t : Tag} (h : tag.Reads bytes t) : 0 < bytes.length := by
  cases bytes with
  | nil => cases h.apply 0 []
  | cons b bytes => exact Nat.succ_pos _

theorem form_pos {t : Tree} (ht : t.Short) : 0 < (form widths t).length := by
  cases t with
  | null => exact Nat.one_pos
  | bool b => cases b <;> exact Nat.one_pos
  | int i => exact tag_pos (tag_int i)
  | uint u => exact tag_pos (tag_uint u)
  | double bits => exact Nat.succ_pos _
  | text octets => exact tag_pos (tag_text ht)
  | list items =>
    have hhead : 0 < (arrayForm widths items.length.toUInt32).length := tag_pos (tag_array _)
    rw [form, List.length_append]
    omega
  | map pairs =>
    have hhead : 0 < (mapForm widths pairs.length.toUInt32).length := tag_pos (tag_map _)
    rw [form, List.length_append]
    omega

theorem readPair_reads {value : Reader Tree} {k : Bytes} {t : Tree} {bytes : Bytes}
    (hk : k.length < 0x100000000) (h : value.Reads bytes t) :
    (readPair value).Reads (textForm widths k ++ bytes) (k, t) :=
  (key_reads hk).bind h.map

theorem read_scalar {t : Tree} (hscalar : t.isContainer = false) (ht : t.Short) :
    (read limit levels).Reads (form widths t) (t.mapIntegers widths.written) := by
  unfold read
  cases t with
  | list items => exact Bool.noConfusion hscalar
  | map pairs => exact Bool.noConfusion hscalar
  | null => exact .bind_last (head_reads .null) .pure
  | bool b =>
    cases b with
    | false => exact .bind_last (head_reads .no) .pure
    | true => exact .bind_last (head_reads .yes) .pure
  | int i =>
    refine .bind_last (tag_int i) ?_
    rw [Tree.mapIntegers]
    cases widths.written (.signed i) <;> exact .pure
  | uint u =>
    refine .bind_last (tag_uint u) ?_
    rw [Tree.mapIntegers, Widths.written_unsigned]
    exact .pure
  | double bits => exact .bind_last (head_reads (.double bits)) .pure
  | text octets => exact .bind_last (tag_text ht) .pure

/-- **The form of a tree reads as the tree, its integers as they are written.** -/
theorem read_reads {t : Tree} (ht : t.Short) (hdepth : t.depth ≤ levels) :
    (read limit levels).Reads (form widths t) (t.mapIntegers widths.written) := by
  induction t using Tree.induct generalizing levels with
  | scalar t hscalar => exact read_scalar hscalar ht
  | list items ih =>
    obtain ⟨hlen, hitems⟩ := Tree.short_list.mp ht
    obtain ⟨levels, rfl, hdepths⟩ := Tree.exists_of_depth_list_le hdepth
    rw [form, read, Tree.mapIntegers_list]
    refine .bind (tag_array _) ?_
    dsimp only
    rw [claim, Folder.toNat_length hlen, formItems_eq]
    -- Each item has an octet at least, so there are as many left as there are items.
    refine .need_bind ?_ (.map (.collect fun t ht => ih t ht (hitems t ht) (hdepths t ht)))
    exact Bytes.length_entries fun t ht => form_pos (hitems t ht)
  | map pairs ih =>
    obtain ⟨⟨hlen, hkeys⟩, hpairs⟩ := Tree.short_map.mp ht
    obtain ⟨levels, rfl, hdepths⟩ := Tree.exists_of_depth_map_le hdepth
    rw [form, read, Tree.mapIntegers_map]
    refine .bind (tag_map _) ?_
    dsimp only
    rw [claim, Folder.toNat_length hlen, formPairs_eq]
    refine .need_bind ?_ (.map (.collect fun kv hkv =>
      readPair_reads (hkeys kv hkv) (ih kv hkv (hpairs kv hkv) (hdepths kv hkv))))
    -- a pair has a key and a value, and each of them has its marker
    refine Bytes.length_entries fun kv hkv => ?_
    have hkey : 0 < (textForm widths kv.1).length := tag_pos (tag_text (hkeys kv hkv))
    have hvalue : 0 < (form widths kv.2).length := form_pos (hpairs kv hkv)
    rw [List.length_append]
    omega

/-! ## Whole inputs -/

variable {t : Tree} {o : FoldOptions}

/-- **A tree is encoded in its form, with its digest.** -/
theorem encode_form {codec : String} (ht : t.Short) (hdepth : t.depth ≤ o.depthLimit) :
    encode codec widths t o = .ok ⟨form widths t, t.digest o⟩ :=
  (write_encodes ht).run hdepth

/-- **No other tree is encoded, and none in another way.** -/
theorem encode_eq_ok_iff {codec : String} {e : Encoded} :
    encode codec widths t o = .ok e ↔
      t.Short ∧ t.depth ≤ o.depthLimit ∧ e = ⟨form widths t, t.digest o⟩ := by
  constructor
  · intro h
    obtain ⟨ht, -, hdepth⟩ := (write_requires t).run h
    rw [encode_form ht hdepth] at h
    exact ⟨ht, hdepth, (Except.ok.inj h).symm⟩
  · rintro ⟨ht, hdepth, rfl⟩
    exact encode_form ht hdepth

/-- The form of a tree reads as the tree with as many levels as it has, and with more. -/
theorem readTree_form (ht : t.Short) (hdepth : t.depth ≤ limit) :
    readTree (form widths t) limit = .ok (t.mapIntegers widths.written) := by
  have hread : (read limit limit).Reads (form widths t) _ := read_reads ht hdepth
  exact hread.whole

/-- **Its form decodes to its digest if it fits the limit, and is refused if not.** -/
theorem decodeTree_form_eq (ht : t.Short) (o : FoldOptions) :
    decodeTree (form widths t) o = if t.depth ≤ o.depthLimit then .ok (t.digest o)
      else .error (.decode (.depthExceeded o.depthLimit)) := by
  rw [decodeTree, readsTrees.fold_of_ok (readTree_form ht (Nat.le_refl _)), Tree.depth_mapIntegers,
    Tree.digest_mapIntegers widths.value_written]

theorem decodeTree_form (ht : t.Short) (hdepth : t.depth ≤ o.depthLimit) :
    decodeTree (form widths t) o = .ok (t.digest o) := by
  rw [decodeTree_form_eq ht, if_pos hdepth]

theorem decodeStream_form (ht : t.Short) (hdepth : t.depth ≤ o.depthLimit) :
    decodeStream (form widths t) o = .ok (t.digest o) :=
  (decodeStream_eq _ o).trans (decodeTree_form ht hdepth)

end TreeDigest.MessagePack
