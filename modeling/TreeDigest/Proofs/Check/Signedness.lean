import TreeDigest.Proofs.Bson.RoundTrip
import TreeDigest.Proofs.Fold.Resigned
import TreeDigest.Proofs.Json.RoundTrip
import TreeDigest.Proofs.MessagePack.Inverse
import TreeDigest.Proofs.Ubjson.RoundTrip

/-!
# Codecs do not tell signed from unsigned integers

Each format has a form for signed and one for unsigned integers, and they are one form where
both have the value, but for the wide one of MessagePack, in which the kind is written down.
What a format asks of a tree it asks of lengths, keys and values. So of resigned trees an
encoder writes both, to the same octets, or neither.

In UBJSON it takes more than the forms of parts: what the values of a container share is
found out from all of them beforehand, by their markers.
-/

namespace TreeDigest

open TreeDigest.Tree (Resigned)

variable {t t' : Tree} {o : FoldOptions} {e : Encoded} {codec : String}

/-- Keys that are the same have the same properties. -/
theorem forall_keys_iff {p : Bytes → Prop} {pairs pairs' : List (Bytes × Tree)}
    (h : pairs.map Prod.fst = pairs'.map Prod.fst) :
    (∀ kv ∈ pairs, p kv.1) ↔ ∀ kv ∈ pairs', p kv.1 := by
  rw [← List.forall_mem_map, ← List.forall_mem_map (f := Prod.fst), h]

/-! ## MessagePack -/

namespace MessagePack

/-- A compact writer takes a signed integer that is not negative for the unsigned one. -/
theorem intForm_toInt64 {u : UInt64} (h : u.toNat < 0x8000000000000000) :
    intForm .compact u.toInt64 = uintForm .compact u := by
  have hvalue : 0 ≤ u.toInt64.toInt := Integer.toInt_toInt64 h ▸ Int.natCast_nonneg _
  rw [intForm, if_pos hvalue, UInt64.toUInt64_toInt64]

theorem form_resigned (h : Resigned t t') : form .compact t = form .compact t' :=
  h.congr (fun _ hu => intForm_toInt64 hu)
    (fun before after ih => by
      simp only [form, formItems_eq, List.flatMap_append, List.flatMap_cons, List.length_append,
        List.length_cons, ih])
    (fun before after k ih => by
      simp only [form, formPairs_eq, List.flatMap_append, List.flatMap_cons, List.length_append,
        List.length_cons, ih])

/-- In the wide form the first octet says of which kind an integer is. -/
example : form .wide (.int 1) ≠ form .wide (.uint 1) := by simp [form, intForm, uintForm]

theorem short_resigned (h : Resigned t t') : t.Short ↔ t'.Short := by
  refine h.all_iff (fun _ _ => Iff.rfl) (fun {items items'} hlen => ?_)
    fun {pairs pairs'} hkeys => ?_
  · rw [Tree.LengthsBelow, Tree.LengthsBelow, hlen]
  · have hlen := congrArg List.length hkeys
    rw [List.length_map, List.length_map] at hlen
    rw [Tree.LengthsBelow, Tree.LengthsBelow, hlen,
      forall_keys_iff (p := fun k => k.length < 0x100000000) hkeys]

theorem encode_resigned (h : Resigned t t') :
    encode codec .compact t o = .ok e ↔ encode codec .compact t' o = .ok e := by
  rw [encode_eq_ok_iff, encode_eq_ok_iff, short_resigned h, h.depth_eq, form_resigned h,
    h.digest_eq]

end MessagePack

/-! ## BSON -/

namespace Bson

theorem formItems_congr {t t' : Tree} (before after : List Tree) (htype : typeOf t = typeOf t')
    (hpayload : payloadForm t = payloadForm t') (index : Nat) :
    formItems index (before ++ t :: after) = formItems index (before ++ t' :: after) := by
  induction before generalizing index with
  | nil => simp only [List.nil_append, formItems, htype, hpayload]
  | cons item before ih => simp only [List.cons_append, formItems, ih]

theorem formPairs_congr {t t' : Tree} (before after : List (Bytes × Tree)) (k : Bytes)
    (htype : typeOf t = typeOf t') (hpayload : payloadForm t = payloadForm t') :
    formPairs (before ++ (k, t) :: after) = formPairs (before ++ (k, t') :: after) := by
  induction before with
  | nil => simp only [List.nil_append, formPairs, htype, hpayload]
  | cons kv before ih => simp only [List.cons_append, formPairs, ih]

/-- Resigned trees have the same form, as elements of one type and as roots. -/
theorem forms_resigned (h : Resigned t t') :
    typeOf t = typeOf t' ∧ payloadForm t = payloadForm t' ∧ form t = form t' := by
  have hforms : (typeOf t, payloadForm t, form t) = (typeOf t', payloadForm t', form t') := by
    refine h.congr (F := fun t => (typeOf t, payloadForm t, form t)) (fun _ _ => rfl)
      (fun {t t'} before after ih => ?_) fun {t t'} before after k ih => ?_
    · obtain ⟨htype, hpayload, -⟩ : typeOf t = typeOf t' ∧ payloadForm t = payloadForm t' ∧ _ := by
        simpa only [Prod.mk.injEq] using ih
      simp only [typeOf, payloadForm, form, formItems_congr before after htype hpayload]
    · obtain ⟨htype, hpayload, -⟩ : typeOf t = typeOf t' ∧ payloadForm t = payloadForm t' ∧ _ := by
        simpa only [Prod.mk.injEq] using ih
      simp only [typeOf, payloadForm, form, formPairs_congr before after k htype hpayload]
  simpa only [Prod.mk.injEq] using hforms

theorem plain_resigned (h : Resigned t t') : Plain t ↔ Plain t' :=
  h.all_iff (fun _ hu => iff_of_true trivial hu) (fun _ => Iff.rfl)
    fun hkeys => forall_keys_iff (p := ((0 : UInt8) ∉ ·)) hkeys

theorem isRoot_resigned (h : Resigned t t') : IsRoot t ↔ IsRoot t' := by
  refine iff_of_eq (h.congr (F := IsRoot) (fun _ _ => rfl) (fun _ _ _ => rfl)
    fun before after k _ => ?_)
  cases before <;> rfl

theorem encode_resigned (h : Resigned t t') :
    encode codec t o = .ok e ↔ encode codec t' o = .ok e := by
  obtain ⟨-, -, hform⟩ := forms_resigned h
  rw [encode_eq_ok_iff, encode_eq_ok_iff, plain_resigned h, isRoot_resigned h, hform, h.depth_eq,
    h.digest_eq]

end Bson

/-! ## UBJSON -/

namespace Ubjson

/-- What values share depends on their markers alone. -/
theorem shared?_congr {values values' : List Tree}
    (h : values.map markerOf? = values'.map markerOf?) : shared? values = shared? values' := by
  have hall : ∀ (m : Marker) (rest : List Tree),
      rest.all (fun t => decide (markerOf? t = some m)) =
        (rest.map markerOf?).all fun m' => decide (m' = some m) := fun m rest => by
    rw [List.all_map]
    rfl
  match values, values' with
  | [], [] => rfl
  | [_], [_] => rfl
  | first :: second :: rest, first' :: second' :: rest' =>
    obtain ⟨hfirst, hrest⟩ := List.cons.inj h
    obtain ⟨hsecond, hrest⟩ := List.cons.inj hrest
    simp only [shared?, hall, hfirst, hsecond, List.map_cons, hrest]
  | [], _ :: _ => cases h
  | _ :: _, [] => cases h
  | [_], _ :: _ :: _ => cases (List.cons.inj h).2
  | _ :: _ :: _, [_] => cases (List.cons.inj h).2

theorem sharedIn_congr {framing : Framing} {values values' : List Tree}
    (h : values.map markerOf? = values'.map markerOf?) :
    sharedIn framing values = sharedIn framing values' := by
  cases framing with
  | closed => rfl
  | counted => exact shared?_congr h

/-- Resigned trees have the same marker to share and the same form, with and without it. -/
theorem forms_resigned (framing : Framing) (h : Resigned t t') :
    markerOf? t = markerOf? t' ∧ ∀ typed, form framing typed t = form framing typed t' := by
  have hforms : (markerOf? t, fun typed => form framing typed t) =
      (markerOf? t', fun typed => form framing typed t') := by
    refine h.congr (F := fun t => (markerOf? t, fun typed => form framing typed t)) (fun u hu => ?_)
      (fun {t t'} before after ih => ?_) fun {t t'} before after k ih => ?_
    · simp only [markerOf?, form, markerOf, payloadForm, if_pos hu]
    · obtain ⟨hmarker, hform⟩ := Prod.mk.inj ih
      have hshared : sharedIn framing (before ++ t :: after) =
          sharedIn framing (before ++ t' :: after) :=
        sharedIn_congr (by simp only [List.map_append, List.map_cons, hmarker])
      have hpayload : payloadForm framing (.list (before ++ t :: after)) =
          payloadForm framing (.list (before ++ t' :: after)) := by
        simp only [payloadForm, hshared, formItems_eq, List.flatMap_append, List.flatMap_cons,
          List.length_append, List.length_cons, congrFun hform _]
      exact Prod.ext rfl (funext fun typed => congrArg (markerForm typed .listStart ++ ·) hpayload)
    · obtain ⟨hmarker, hform⟩ := Prod.mk.inj ih
      have hshared : sharedIn framing ((before ++ (k, t) :: after).map (·.2)) =
          sharedIn framing ((before ++ (k, t') :: after).map (·.2)) :=
        sharedIn_congr (by simp only [List.map_append, List.map_cons, hmarker])
      have hpayload : payloadForm framing (.map (before ++ (k, t) :: after)) =
          payloadForm framing (.map (before ++ (k, t') :: after)) := by
        simp only [payloadForm, hshared, formPairs_eq, List.flatMap_append, List.flatMap_cons,
          List.length_append, List.length_cons, congrFun hform _]
      exact Prod.ext rfl (funext fun typed => congrArg (markerForm typed .mapStart ++ ·) hpayload)
  exact ⟨(Prod.mk.inj hforms).1, congrFun (Prod.mk.inj hforms).2⟩

theorem writable_resigned (h : Resigned t t') : Writable t ↔ Writable t' :=
  h.all_iff (fun _ hu => iff_of_true trivial hu) (fun _ => Iff.rfl)
    fun hkeys => forall_keys_iff (p := Sayable) hkeys

theorem encode_resigned {framing : Framing} (h : Resigned t t') :
    encode codec framing t o = .ok e ↔ encode codec framing t' o = .ok e := by
  obtain ⟨-, hform⟩ := forms_resigned framing h
  rw [encode_eq_ok_iff, encode_eq_ok_iff, writable_resigned h, h.countable_iff, hform, h.depth_eq,
    h.digest_eq]

end Ubjson

/-! ## JSON -/

namespace Json

theorem intForm_toInt64 {u : UInt64} (h : u.toNat < 0x8000000000000000) :
    intForm u.toInt64 = uintForm u := by
  have hvalue : u.toInt64.toInt = u.toNat := Integer.toInt_toInt64 h
  rw [intForm, hvalue, if_neg (Int.not_lt.mpr (Int.natCast_nonneg _)), Int.natAbs_natCast, uintForm]

theorem layoutItems_congr {t t' : Tree} (before after : List Tree) (h : layout t = layout t')
    (isFirst : Bool) :
    layoutItems isFirst (before ++ t :: after) = layoutItems isFirst (before ++ t' :: after) := by
  induction before generalizing isFirst with
  | nil => simp only [List.nil_append, layoutItems, h]
  | cons item before ih => simp only [List.cons_append, layoutItems, ih]

theorem layoutPairs_congr {t t' : Tree} (before after : List (Bytes × Tree)) (k : Bytes)
    (h : layout t = layout t') (isFirst : Bool) :
    layoutPairs isFirst (before ++ (k, t) :: after) =
      layoutPairs isFirst (before ++ (k, t') :: after) := by
  induction before generalizing isFirst with
  | nil => simp only [List.nil_append, layoutPairs, h]
  | cons kv before ih => simp only [List.cons_append, layoutPairs, ih]

theorem layout_resigned (h : Resigned t t') : layout t = layout t' :=
  h.congr (fun _ hu => intForm_toInt64 hu)
    (fun before after ih => by rw [layout, layout, layoutItems_congr before after ih])
    (fun before after k ih => by rw [layout, layout, layoutPairs_congr before after k ih])

theorem expressible_resigned (h : Resigned t t') : Expressible t ↔ Expressible t' :=
  h.all_iff (fun _ _ => Iff.rfl) (fun _ => Iff.rfl)
    fun hkeys => forall_keys_iff (p := (Utf8.isValid · = true)) hkeys

theorem distinct_resigned (h : Resigned t t') : Distinct t ↔ Distinct t' :=
  h.all_iff (fun _ _ => Iff.rfl) (fun _ => Iff.rfl) fun hkeys => by
    rw [DistinctAt, DistinctAt, hkeys]

theorem encodeStream_resigned (h : Resigned t t') :
    encodeStream codec t o = .ok e ↔ encodeStream codec t' o = .ok e := by
  rw [encodeStream_eq_ok_iff, encodeStream_eq_ok_iff, expressible_resigned h, h.countable_iff,
    h.depth_eq, layout_resigned h, h.digest_eq]

theorem encodeTree_resigned (h : Resigned t t') :
    encodeTree codec t o = .ok e ↔ encodeTree codec t' o = .ok e := by
  rw [encodeTree_eq_ok_iff, encodeTree_eq_ok_iff, expressible_resigned h, distinct_resigned h,
    h.countable_iff, h.depth_eq, layout_resigned h, h.digest_eq]

end Json

/-! ## At the top -/

/-- Two trees that nothing tells apart but the wide form of MessagePack. -/
structure AlikeResigned (t t' : Tree) : Prop where
  /-- Folding gives the same digest or the same error. -/
  folded : ∀ o, foldTree t o = foldTree t' o
  /-- Every codec but the wide one gives both trees the same octets and digest, or neither any. -/
  written : ∀ codec ∈ Codec.all, codec ≠ MessagePack.wide → ∀ o e,
    codec.encode t o = .ok e ↔ codec.encode t' o = .ok e
  /-- The wide codec gives both an encoding or neither. -/
  widened : ∀ o, (∃ e, MessagePack.wide.encode t o = .ok e) ↔
    ∃ e, MessagePack.wide.encode t' o = .ok e
  /-- What it gives them has the same digest, and is the same to every reader of the format. -/
  read : ∀ o e e', MessagePack.wide.encode t o = .ok e → MessagePack.wide.encode t' o = .ok e' →
    e.digest = e'.digest ∧ ∀ reader ∈ Codec.ofFormat .messagePack, ∀ o',
      reader.decode e.bytes o' = reader.decode e'.bytes o'

/-- **The sign of integers is invisible** to every fold and every codec, but for the octets of wide
MessagePack. -/
theorem signedness_is_invisible (h : Resigned t t') : AlikeResigned t t' where
  folded := h.foldTreeOn_eq .encode
  written codec hcodec hne o e := by
    simp only [Codec.all, List.mem_cons, List.not_mem_nil, or_false] at hcodec
    rcases hcodec with rfl | rfl | rfl | rfl | rfl | rfl | rfl | rfl | rfl
    · exact Json.encodeStream_resigned h
    · exact Json.encodeTree_resigned h
    · exact MessagePack.encode_resigned h
    · exact absurd rfl hne
    · exact MessagePack.encode_resigned h
    · exact Bson.encode_resigned h
    · exact Bson.encode_resigned h
    · exact Ubjson.encode_resigned h
    · exact Ubjson.encode_resigned h
  widened o := by
    have hiff : ∀ t : Tree, (∃ e, MessagePack.wide.encode t o = .ok e) ↔
        t.Short ∧ t.depth ≤ o.depthLimit := fun t =>
      ⟨fun ⟨_, he⟩ => (MessagePack.encode_eq_ok_iff.mp he).imp_right And.left,
        fun ⟨hshort, hdepth⟩ => ⟨_, MessagePack.encode_form hshort hdepth⟩⟩
    rw [hiff, hiff, MessagePack.short_resigned h, h.depth_eq]
  read o e e' he he' := by
    obtain ⟨hshort, -, rfl⟩ := MessagePack.encode_eq_ok_iff.mp he
    obtain ⟨hshort', -, rfl⟩ := MessagePack.encode_eq_ok_iff.mp he'
    refine ⟨h.digest_eq o, fun reader hreader o' => ?_⟩
    rw [MessagePack.decode_form_eq hreader hshort, MessagePack.decode_form_eq hreader hshort',
      h.depth_eq, h.digest_eq]

/-- In `{a: [1, 2], b: 2⁶³ - 1}` the kinds change at three places, two of them in a list of which
counted UBJSON writes the marker once. -/
theorem signedness_is_invisible_nested :
    let t := Tree.map [([0x61], .list [.int 1, .uint 2]), ([0x62], .uint 0x7FFFFFFFFFFFFFFF)]
    let t' := Tree.map [([0x61], .list [.uint 1, .int 2]), ([0x62], .int 0x7FFFFFFFFFFFFFFF)]
    Resigned t t' ∧ foldTree t {} = foldTree t' {} ∧
      (∃ e, Ubjson.counted.encode t {} = .ok e ∧ Ubjson.counted.encode t' {} = .ok e) ∧
      ∃ e e', MessagePack.wide.encode t {} = .ok e ∧ MessagePack.wide.encode t' {} = .ok e' ∧
        MessagePack.node.decode e.bytes {} = MessagePack.node.decode e'.bytes {} := by
  intro t t'
  have hlist : Resigned (.list [.int 1, .uint 2]) (.list [.uint 1, .int 2]) :=
    ((Resigned.integer (m := .signed 1) (n := .unsigned 1) (by decide)).item [] [.uint 2]).trans
      ((Resigned.integer (m := .unsigned 2) (n := .signed 2) (by decide)).item [.uint 1] [])
  have hlast : Resigned (.uint 0x7FFFFFFFFFFFFFFF) (.int 0x7FFFFFFFFFFFFFFF) :=
    .integer (m := .unsigned 0x7FFFFFFFFFFFFFFF) (n := .signed 0x7FFFFFFFFFFFFFFF) (by decide)
  have hsame : Resigned t t' := (hlist.value [] _ [0x61]).trans (hlast.value [_] [] [0x62])
  have hshort : t.Short := by
    simp [t, Tree.Short, Tree.All, Tree.AllItems, Tree.AllPairs, Tree.LengthsBelow]
  have hkeys : Ubjson.Sayable [0x61] ∧ Ubjson.Sayable [0x62] :=
    ⟨⟨by decide, by decide⟩, ⟨by decide, by decide⟩⟩
  have hwritable : Ubjson.Writable t := by
    simp [t, Ubjson.Writable, Tree.All, Tree.AllItems, Tree.AllPairs, Ubjson.WritableAt, hkeys]
  have hdepth : t.depth ≤ ({} : FoldOptions).depthLimit := by decide
  have halike : AlikeResigned t t' := signedness_is_invisible hsame
  have hcounted : ∀ {t : Tree}, Ubjson.Writable t → t.Countable →
      t.depth ≤ ({} : FoldOptions).depthLimit → ∃ e, Ubjson.counted.encode t {} = .ok e :=
    fun hwritable hcount hdepth =>
      ⟨_, Ubjson.encode_eq_ok_iff.mpr ⟨⟨hwritable, hcount⟩, hdepth, rfl⟩⟩
  have hwide : ∀ {t : Tree}, t.Short → t.depth ≤ ({} : FoldOptions).depthLimit →
      ∃ e, MessagePack.wide.encode t {} = .ok e :=
    fun hshort hdepth => ⟨_, MessagePack.encode_form hshort hdepth⟩
  obtain ⟨e, he⟩ := hcounted hwritable hshort.countable hdepth
  obtain ⟨w, hw⟩ := hwide hshort hdepth
  obtain ⟨w', hw'⟩ := (halike.widened {}).mp ⟨w, hw⟩
  have hnode : MessagePack.node ∈ Codec.ofFormat .messagePack := by
    simp [MessagePack.codecs_eq]
  have hother : Ubjson.counted ≠ MessagePack.wide :=
    fun h => absurd (congrArg Codec.name h) (by decide)
  have he' := (halike.written _ (by simp [Codec.all]) hother {} e).mp he
  exact ⟨hsame, halike.folded {}, ⟨e, he, he'⟩, w, w', hw, hw',
    (halike.read {} w w' hw hw').2 _ hnode {}⟩

end TreeDigest
