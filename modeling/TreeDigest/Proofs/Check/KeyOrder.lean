import TreeDigest.Proofs.Bson.Inverse
import TreeDigest.Proofs.Fold.Stops
import TreeDigest.Proofs.Json.Inverse
import TreeDigest.Proofs.Json.Rearranged
import TreeDigest.Proofs.MessagePack.Inverse
import TreeDigest.Proofs.Ubjson.Inverse

/-!
# Where pairs are sorted, their order does not count

Folding with sorted pairs is folding the sorted tree as it stands. So trees that are
rearranged fold alike, and all codecs keep to that: whichever of them writes two such
trees folds the same digest, and whichever reads what was written of the one and of
the other gives the same answer. Only in BSON may one of the two not be written, since
a root map that begins with a certain key is taken for a list there.
-/

namespace TreeDigest

open TreeDigest.Tree (Rearranged)

variable {t t' : Tree} {o : FoldOptions} {e e' : Encoded} {format : Format}

/-! ## What codecs ask of a tree -/

/-- What is said of lengths and keys alone holds of a rearranged tree. -/
theorem Tree.Rearranged.all {p : Tree → Prop} (h : Rearranged t t')
    (hlist : ∀ {items items' : List Tree}, items.length = items'.length →
      p (.list items) → p (.list items'))
    (hmap : ∀ {pairs pairs' : List (Bytes × Tree)},
      (pairs.map Prod.fst).Perm (pairs'.map Prod.fst) → p (.map pairs) → p (.map pairs')) :
    t.All p → t'.All p := by
  induction h with
  | refl t => exact id
  | trans _ _ ih ih' => exact ih' ∘ ih
  | map h =>
    rw [all_map, all_map]
    exact fun ⟨hp, hvalues⟩ =>
      ⟨hmap (h.1.map _) hp, fun kv hkv => hvalues kv (h.1.mem_iff.mpr hkv)⟩
  | item before after _ ih =>
    rw [all_list, all_list]
    refine fun ⟨hp, hitems⟩ => ⟨hlist (by simp) hp, fun t ht => ?_⟩
    rcases List.mem_append.mp ht with ht | ht
    · exact hitems t (List.mem_append_left _ ht)
    rcases List.mem_cons.mp ht with rfl | ht
    · exact ih (hitems _ (List.mem_append_right _ (List.mem_cons_self ..)))
    · exact hitems t (List.mem_append_right _ (List.mem_cons_of_mem _ ht))
  | value before after k _ ih =>
    rw [all_map, all_map]
    refine fun ⟨hp, hvalues⟩ => ⟨hmap (by simp) hp, fun kv hkv => ?_⟩
    rcases List.mem_append.mp hkv with hkv | hkv
    · exact hvalues kv (List.mem_append_left _ hkv)
    rcases List.mem_cons.mp hkv with rfl | hkv
    · exact ih (hvalues _ (List.mem_append_right _ (List.mem_cons_self ..)))
    · exact hvalues kv (List.mem_append_right _ (List.mem_cons_of_mem _ hkv))

namespace Tree.Rearranged

/-- A property of keys goes from pairs to others with the same keys. -/
theorem forall_keys {p : Bytes → Prop} {pairs pairs' : List (Bytes × Tree)}
    (h : (pairs.map Prod.fst).Perm (pairs'.map Prod.fst)) (hp : ∀ kv ∈ pairs, p kv.1) :
    ∀ kv ∈ pairs', p kv.1 := by
  rw [← List.forall_mem_map] at hp ⊢
  exact fun k hk => hp k (h.mem_iff.mpr hk)

theorem short (h : Rearranged t t') (ht : t.Short) : t'.Short := by
  refine h.all (fun hlen hp => ?_) (fun hkeys hp => ⟨?_, ?_⟩) ht
  · exact Nat.lt_of_le_of_lt hlen.ge hp
  · have hlen := hkeys.length_eq
    rw [List.length_map, List.length_map] at hlen
    exact Nat.lt_of_le_of_lt hlen.ge hp.1
  · exact forall_keys (p := fun k => k.length < 0x100000000) hkeys hp.2

theorem expressible (h : Rearranged t t') (ht : Json.Expressible t) : Json.Expressible t' :=
  h.all (fun _ _ => trivial) (fun hkeys => forall_keys (p := (Utf8.isValid · = true)) hkeys) ht

theorem distinct (h : Rearranged t t') (ht : Json.Distinct t) : Json.Distinct t' :=
  h.all (fun _ _ => trivial) (fun hkeys => hkeys.nodup_iff.mp) ht

theorem plain (h : Rearranged t t') (ht : Bson.Plain t) : Bson.Plain t' :=
  h.all (fun _ _ => trivial) (fun hkeys => forall_keys (p := ((0 : UInt8) ∉ ·)) hkeys) ht

theorem writable (h : Rearranged t t') (ht : Ubjson.Writable t) : Ubjson.Writable t' :=
  h.all (fun _ _ => trivial) (fun hkeys => forall_keys (p := Ubjson.Sayable) hkeys) ht

open Bson (payloadForm formItems formPairs)

/-- A rearranged tree takes as many octets in BSON. -/
theorem length_payloadForm (h : Rearranged t t') :
    (payloadForm t).length = (payloadForm t').length := by
  induction h with
  | refl t => rfl
  | trans _ _ ih ih' => exact ih.trans ih'
  | map h =>
    rw [payloadForm, payloadForm, Bson.length_documentForm, Bson.length_documentForm,
      Bson.formPairs_eq, Bson.formPairs_eq, Bson.entriesForm, Bson.entriesForm,
      (h.1.flatMap_right _).length_eq]
  | @item t t' before after _ ih =>
    have hitems : ∀ index, (formItems index (before ++ t :: after)).length =
        (formItems index (before ++ t' :: after)).length := by
      induction before with
      | nil =>
        intro index
        simp only [List.nil_append, formItems, List.length_append, Bson.length_headForm, ih]
      | cons item before ihbefore =>
        intro index
        simp only [List.cons_append, formItems, List.length_append, ihbefore]
    rw [payloadForm, payloadForm, Bson.length_documentForm, Bson.length_documentForm, hitems]
  | @value t t' before after k _ ih =>
    have hpairs : (formPairs (before ++ (k, t) :: after)).length =
        (formPairs (before ++ (k, t') :: after)).length := by
      induction before with
      | nil => simp only [List.nil_append, formPairs, List.length_append, Bson.length_headForm, ih]
      | cons kv before ihbefore =>
        simp only [List.cons_append, formPairs, List.length_append, ihbefore]
    rw [payloadForm, payloadForm, Bson.length_documentForm, Bson.length_documentForm, hpairs]

end Tree.Rearranged

/-! ## Writing -/

namespace Codec

variable {writer writer' reader : Codec}

/-- **The digest that is folded while a tree is written is that of the tree.** -/
theorem encode_digest (h : writer ∈ ofFormat format) (hok : writer.encode t o = .ok e) :
    e.digest = t.digest o := by
  cases format with
  | json =>
    rw [Json.codecs_eq] at h
    rcases List.mem_cons.mp h with rfl | h
    · obtain ⟨-, -, rfl⟩ := Json.encodeStream_eq_ok_iff.mp hok
      rfl
    · obtain rfl := List.mem_singleton.mp h
      obtain ⟨-, -, rfl⟩ := Json.encodeTree_eq_ok_iff.mp hok
      rfl
  | messagePack =>
    rw [MessagePack.codecs_eq] at h
    rcases List.mem_cons.mp h with rfl | h
    · obtain ⟨-, -, rfl⟩ := MessagePack.encode_eq_ok_iff.mp hok
      rfl
    rcases List.mem_cons.mp h with rfl | h
    · obtain ⟨-, -, rfl⟩ := MessagePack.encode_eq_ok_iff.mp hok
      rfl
    · obtain rfl := List.mem_singleton.mp h
      obtain ⟨-, -, rfl⟩ := MessagePack.encode_eq_ok_iff.mp hok
      rfl
  | bson =>
    obtain ⟨codec, hencode⟩ := Bson.encode_eq h
    rw [hencode] at hok
    obtain ⟨-, -, rfl⟩ := Bson.encode_eq_ok_iff.mp hok
    rfl
  | ubjson =>
    rw [Ubjson.codecs_eq] at h
    rcases List.mem_cons.mp h with rfl | h
    · obtain ⟨-, -, rfl⟩ := Ubjson.encode_eq_ok_iff.mp hok
      rfl
    · obtain rfl := List.mem_singleton.mp h
      obtain ⟨-, -, rfl⟩ := Ubjson.encode_eq_ok_iff.mp hok
      rfl

/-- **What is written is written of a rearranged tree too**, but for a map that BSON takes for a list. -/
theorem encode_rearranged (h : writer ∈ ofFormat format) (hsame : Rearranged t t')
    (hroot : format = .bson → Bson.IsRoot t') (hok : writer.encode t o = .ok e) :
    ∃ e', writer.encode t' o = .ok e' := by
  have hdepth : t.depth ≤ o.depthLimit → t'.depth ≤ o.depthLimit := fun h => hsame.depth_eq ▸ h
  cases format with
  | json =>
    rw [Json.codecs_eq] at h
    rcases List.mem_cons.mp h with rfl | h
    · obtain ⟨⟨ht, hcount⟩, hfits, -⟩ := Json.encodeStream_eq_ok_iff.mp hok
      exact ⟨_, Json.encodeStream_eq_ok_iff.mpr
        ⟨⟨hsame.expressible ht, hsame.countable_iff.mp hcount⟩, hdepth hfits, rfl⟩⟩
    · obtain rfl := List.mem_singleton.mp h
      obtain ⟨⟨ht, hdistinct, hcount⟩, hfits, -⟩ := Json.encodeTree_eq_ok_iff.mp hok
      exact ⟨_, Json.encodeTree_eq_ok_iff.mpr
        ⟨⟨hsame.expressible ht, hsame.distinct hdistinct, hsame.countable_iff.mp hcount⟩,
          hdepth hfits, rfl⟩⟩
  | messagePack =>
    rw [MessagePack.codecs_eq] at h
    rcases List.mem_cons.mp h with rfl | h
    · obtain ⟨hshort, hfits, -⟩ := MessagePack.encode_eq_ok_iff.mp hok
      exact ⟨_, MessagePack.encode_form (hsame.short hshort) (hdepth hfits)⟩
    rcases List.mem_cons.mp h with rfl | h
    · obtain ⟨hshort, hfits, -⟩ := MessagePack.encode_eq_ok_iff.mp hok
      exact ⟨_, MessagePack.encode_form (hsame.short hshort) (hdepth hfits)⟩
    · obtain rfl := List.mem_singleton.mp h
      obtain ⟨hshort, hfits, -⟩ := MessagePack.encode_eq_ok_iff.mp hok
      exact ⟨_, MessagePack.encode_form (hsame.short hshort) (hdepth hfits)⟩
  | bson =>
    obtain ⟨codec, hencode⟩ := Bson.encode_eq h
    rw [hencode] at hok ⊢
    obtain ⟨⟨hplain, hroot', hlen⟩, hfits, -⟩ := Bson.encode_eq_ok_iff.mp hok
    rw [Bson.form_eq_payloadForm hroot', hsame.length_payloadForm,
      ← Bson.form_eq_payloadForm (hroot rfl)] at hlen
    exact ⟨_, Bson.encode_form (hsame.plain hplain) (hroot rfl) hlen (hdepth hfits)⟩
  | ubjson =>
    rw [Ubjson.codecs_eq] at h
    rcases List.mem_cons.mp h with rfl | h
    · obtain ⟨⟨ht, hcount⟩, hfits, -⟩ := Ubjson.encode_eq_ok_iff.mp hok
      exact ⟨_, Ubjson.encode_eq_ok_iff.mpr
        ⟨⟨hsame.writable ht, hsame.countable_iff.mp hcount⟩, hdepth hfits, rfl⟩⟩
    · obtain rfl := List.mem_singleton.mp h
      obtain ⟨⟨ht, hcount⟩, hfits, -⟩ := Ubjson.encode_eq_ok_iff.mp hok
      exact ⟨_, Ubjson.encode_eq_ok_iff.mpr
        ⟨⟨hsame.writable ht, hsame.countable_iff.mp hcount⟩, hdepth hfits, rfl⟩⟩

/-! ## Reading -/

/-- What a reader keeps of a tree that was written: all, or each key of a map once. -/
theorem recovers_kept (h : reader ∈ ofFormat format) :
    ∃ kept : Tree → Tree, (kept = id ∨ kept = Json.collapse) ∧
      ∀ writer ∈ ofFormat format, ∀ (t : Tree) (o : FoldOptions) (e : Encoded),
        writer.encode t o = .ok e → reader.Recovers e.bytes (kept t) := by
  cases format with
  | json =>
    have hwritten : ∀ writer ∈ ofFormat .json, ∀ (t : Tree) (o : FoldOptions) (e : Encoded),
        writer.encode t o = .ok e → Json.stream.Recovers e.bytes t ∧
          Json.dom.Recovers e.bytes (Json.collapse t) := by
      intro writer hwriter t o e hok
      obtain ⟨ht, hcount, hdepth, hbytes⟩ := Json.encode_ok hwriter hok
      rw [hbytes]
      exact ⟨.of_eq_ite hcount fun o' => Json.decodeStream_form_eq ht hcount hdepth o',
        .of_eq_ite (Json.collapse_countable hcount) fun o' => Json.dom_decode ht hcount hdepth o'⟩
    rw [Json.codecs_eq] at h
    rcases List.mem_cons.mp h with rfl | h
    · exact ⟨id, .inl rfl, fun writer hwriter t o e hok => (hwritten writer hwriter t o e hok).1⟩
    · obtain rfl := List.mem_singleton.mp h
      exact ⟨_, .inr rfl, fun writer hwriter t o e hok => (hwritten writer hwriter t o e hok).2⟩
  | messagePack =>
    refine ⟨id, .inl rfl, fun writer hwriter t o e hok => ?_⟩
    obtain ⟨hshort, widths, hbytes⟩ := MessagePack.encode_ok hwriter hok
    rw [hbytes]
    exact .of_eq_ite hshort.countable fun o' => MessagePack.decode_form_eq h hshort o'
  | bson =>
    refine ⟨id, .inl rfl, fun writer hwriter t o e hok => ?_⟩
    obtain ⟨codec, hencode⟩ := Bson.encode_eq hwriter
    rw [hencode] at hok
    obtain ⟨⟨hplain, hroot, hlen⟩, -, rfl⟩ := Bson.encode_eq_ok_iff.mp hok
    refine .of_eq_ite ((Bson.write_requires t).run hok).2.1 fun o' => ?_
    rw [Bson.decode_eq h]
    exact Bson.decodeTree_form_eq hplain hroot hlen o'
  | ubjson =>
    refine ⟨id, .inl rfl, fun writer hwriter t o e hok => ?_⟩
    have hform : ∃ framing, Ubjson.Writable t ∧ t.Countable ∧
        e.bytes = Ubjson.form framing false t := by
      rw [Ubjson.codecs_eq] at hwriter
      rcases List.mem_cons.mp hwriter with rfl | hwriter
      · exact ⟨.closed, Ubjson.encode_ok hok⟩
      · obtain rfl := List.mem_singleton.mp hwriter
        exact ⟨.counted, Ubjson.encode_ok hok⟩
    obtain ⟨framing, ht, hcount, hbytes⟩ := hform
    rw [hbytes]
    refine .of_eq_ite hcount fun o' => ?_
    rw [Ubjson.decode_eq h]
    exact Ubjson.decode_form_eq ht hcount o'

/-- Octets of which rearranged trees are recovered are answered alike. -/
theorem Recovers.rearranged {bytes bytes' : Bytes} (h : reader.Recovers bytes t)
    (h' : reader.Recovers bytes' t') (hsame : Rearranged t t') (ho : o.keyOrder = .sorted) :
    reader.decode bytes o = reader.decode bytes' o := by
  by_cases hdepth : t.depth ≤ o.depthLimit
  · obtain ⟨d, hfold, hd⟩ := h.within o hdepth
    obtain ⟨d', hfold', hd'⟩ := h'.within o (hsame.depth_eq ▸ hdepth)
    obtain ⟨-, rfl⟩ := foldTreeOn_eq_ok_iff.mp hfold
    obtain ⟨-, rfl⟩ := foldTreeOn_eq_ok_iff.mp hfold'
    rw [hd, hd', hsame.digest_eq ho]
  · have hdeep := Nat.not_le.mp hdepth
    rw [h.beyond o hdeep, h'.beyond o (hsame.depth_eq ▸ hdeep)]

end Codec

/-! ## At the top -/

/-- Two trees that nothing tells apart where pairs are sorted. -/
structure AlikeSorted (t t' : Tree) : Prop where
  /-- The one folds to a digest if the other folds to it. -/
  digests : ∀ o : FoldOptions, o.keyOrder = .sorted →
    ∀ d, foldTree t o = .ok d ↔ foldTree t' o = .ok d
  /-- They fail alike, if not both of a depth and of a count. -/
  failures : ∀ o : FoldOptions, o.keyOrder = .sorted → t.Countable ∨ t.depth ≤ o.depthLimit →
    foldTree t o = foldTree t' o
  /-- What writes the one writes the other, but for a map that BSON takes for a list. -/
  written : ∀ writer ∈ Codec.all, ∀ (o : FoldOptions) (e : Encoded), writer.encode t o = .ok e →
    (writer.format = .bson → Bson.IsRoot t') → ∃ e', writer.encode t' o = .ok e'
  /-- Whatever writes the one and the other, the digests are the same. -/
  folded : ∀ writer ∈ Codec.all, ∀ writer' ∈ Codec.all, ∀ (o : FoldOptions) (e e' : Encoded),
    o.keyOrder = .sorted → writer.encode t o = .ok e → writer'.encode t' o = .ok e' →
      e.digest = e'.digest
  /-- Whatever of a format writes them and reads them, the answers are the same. -/
  decoded : ∀ format, ∀ writer ∈ Codec.ofFormat format, ∀ writer' ∈ Codec.ofFormat format,
    ∀ reader ∈ Codec.ofFormat format, ∀ (o₁ o₂ o : FoldOptions) (e e' : Encoded),
      o.keyOrder = .sorted → writer.encode t o₁ = .ok e → writer'.encode t' o₂ = .ok e' →
        reader.decode e.bytes o = reader.decode e'.bytes o

/-- What folding gives is settled by three things, but for trees both too deep and too long. -/
theorem foldTree_congr {o' : FoldOptions} (hlimit : o.depthLimit = o'.depthLimit)
    (hcount : t.Countable ↔ t'.Countable) (hdepth : t.depth = t'.depth)
    (hdigest : t.digest o = t'.digest o') (h : t.Countable ∨ t.depth ≤ o.depthLimit) :
    foldTree t o = foldTree t' o' := by
  by_cases ht : t.Countable
  · have heq : foldTree t o = _ := foldTreeOn_eq_ite ht
    have heq' : foldTree t' o' = _ := foldTreeOn_eq_ite (hcount.mp ht)
    rw [← hlimit, ← hdepth, ← hdigest] at heq'
    exact heq.trans heq'.symm
  · have hfits : t.depth ≤ o.depthLimit := h.resolve_left ht
    have heq : foldTree t o = _ := foldTreeOn_overflow ht hfits
    rw [hdepth, hlimit] at hfits
    exact heq.trans (foldTreeOn_overflow (fun h => ht (hcount.mpr h)) hfits).symm

theorem foldTree_ok_congr {o' : FoldOptions} (hlimit : o.depthLimit = o'.depthLimit)
    (hcount : t.Countable ↔ t'.Countable) (hdepth : t.depth = t'.depth)
    (hdigest : t.digest o = t'.digest o') (d : Digest) :
    foldTree t o = .ok d ↔ foldTree t' o' = .ok d := by
  rw [foldTree, foldTree, foldTreeOn_eq_ok_iff, foldTreeOn_eq_ok_iff, hlimit, hcount, hdepth, hdigest]

/-- **Rearranged trees are not told apart where pairs are sorted.** -/
theorem Tree.Rearranged.alikeSorted (h : Rearranged t t') : AlikeSorted t t' where
  digests o ho := foldTree_ok_congr rfl h.countable_iff h.depth_eq (h.digest_eq ho)
  failures o ho := foldTree_congr rfl h.countable_iff h.depth_eq (h.digest_eq ho)
  written writer hwriter o e hok hroot :=
    Codec.encode_rearranged (List.mem_filter.mpr ⟨hwriter, beq_self_eq_true _⟩) h hroot hok
  folded writer hwriter writer' hwriter' o e e' ho hok hok' := by
    rw [Codec.encode_digest (List.mem_filter.mpr ⟨hwriter, beq_self_eq_true _⟩) hok,
      Codec.encode_digest (List.mem_filter.mpr ⟨hwriter', beq_self_eq_true _⟩) hok', h.digest_eq ho]
  decoded format writer hwriter writer' hwriter' reader hreader o₁ o₂ o e e' ho hok hok' := by
    obtain ⟨kept, hkept, hrecovers⟩ := Codec.recovers_kept hreader
    have hsame : Rearranged (kept t) (kept t') := by
      rcases hkept with rfl | rfl
      · exact h
      · exact Json.collapse_rearranged h
    exact (hrecovers writer hwriter t o₁ e hok).rearranged
      (hrecovers writer' hwriter' t' o₂ e' hok') hsame ho

/--
**Folding with sorted pairs is folding the sorted tree as it stands**, down to the
failure of one that is too deep. So trees that can be rearranged into each other are
not told apart by any fold with sorted pairs, nor by a codec.

A tree that is too deep and somewhere has more entries than 32 bits can count fails
in both folds, but it is the order of its pairs that says for which of the two.
-/
theorem sorting_pairs_is_folding_sorted (t : Tree) (o : FoldOptions) :
    (∀ d, foldTree t { o with keyOrder := .sorted } = .ok d ↔
      foldTree t.sorted { o with keyOrder := .preserve } = .ok d) ∧
    (t.Countable ∨ t.depth ≤ o.depthLimit →
      foldTree t { o with keyOrder := .sorted } =
        foldTree t.sorted { o with keyOrder := .preserve }) ∧
    ∀ t', Rearranged t t' → AlikeSorted t t' :=
  have hcount : t.Countable ↔ t.sorted.Countable := t.countable_sorted.symm
  have hdepth : t.depth = t.sorted.depth := t.depth_sorted.symm
  ⟨foldTree_ok_congr (o := { o with keyOrder := .sorted }) rfl hcount hdepth (t.digest_sorted o),
    foldTree_congr (o := { o with keyOrder := .sorted }) rfl hcount hdepth (t.digest_sorted o),
    fun _ => Rearranged.alikeSorted⟩

/-- In `{b: [1], a: {d: null, c: null, c: 2}}` the maps change places and the keys in the inner one. -/
theorem sorting_pairs_is_folding_sorted_nested :
    let t := Tree.map [([0x62], .list [.uint 1]),
      ([0x61], .map [([0x64], .null), ([0x63], .null), ([0x63], .uint 2)])]
    let t' := Tree.map [([0x61], .map [([0x63], .null), ([0x63], .uint 2), ([0x64], .null)]),
      ([0x62], .list [.uint 1])]
    t.Countable ∧ Rearranged t t' ∧
      foldTree t { keyOrder := .sorted, maxDepth := 1 } = foldTree t' { maxDepth := 1 } ∧
      foldTree t { keyOrder := .sorted } = foldTree t' { keyOrder := .sorted } := by
  intro t t'
  have hcount : t.Countable :=
    ⟨by decide, ⟨by decide, Tree.countable_scalar rfl, trivial⟩,
      ⟨by decide, Tree.countable_scalar rfl, Tree.countable_scalar rfl, Tree.countable_scalar rfl,
        trivial⟩, trivial⟩
  have hsorted : t.sorted = t' := by
    simp +decide [t, t', Tree.sorted, Tree.sortedItems, Tree.sortedPairs, byKey, List.mergeSort]
  have hsame : Rearranged t t' := hsorted ▸ Rearranged.sorted t
  obtain ⟨-, hfold, -⟩ := sorting_pairs_is_folding_sorted t { maxDepth := 1 }
  obtain ⟨-, -, halike⟩ := sorting_pairs_is_folding_sorted t {}
  rw [hsorted] at hfold
  exact ⟨hcount, hsame, hfold (.inl hcount),
    (halike t' hsame).failures { keyOrder := .sorted } rfl (.inl hcount)⟩

theorem byKey_two {α : Type} (v w : α) :
    byKey [([0x62], v), ([0x61], w)] = [([0x61], w), ([0x62], v)] := by
  simp +decide [byKey, List.mergeSort]

/-- Of `{b: [], a: …}` with a list for `a` that is too long to be counted, the fold within one level
fails for the list of `b`, and that of the sorted tree for the other. And of `{a: 1, 0: 2}` and
`{0: 2, a: 1}` a codec of BSON writes only the first. -/
theorem order_of_pairs_tells :
    foldTree (.map [([0x62], .list []), ([0x61], .crowd .null)]) { keyOrder := .sorted, maxDepth := 1 } =
        .error (.encode (.depthExceeded 1)) ∧
      foldTree (Tree.map [([0x62], .list []), ([0x61], .crowd .null)]).sorted { maxDepth := 1 } =
        .error (.protocol .countOverflow) ∧
      (∃ e, Bson.stream.encode (.map [([0x61], .int 1), ([0x30], .int 2)]) { keyOrder := .sorted } =
        .ok e) ∧
      Bson.stream.encode (.map [([0x30], .int 2), ([0x61], .int 1)]) { keyOrder := .sorted } =
        .error (.encode (.unrepresentable "bson" .listLikeRoot)) := by
  have hsorted : (Tree.map [([0x62], .list []), ([0x61], .crowd .null)]).sorted =
      .map [([0x61], .crowd .null), ([0x62], .list [])] := by
    rw [Tree.sorted_map, List.map_cons, List.map_singleton, Tree.sorted_crowd rfl, byKey_two]
    rfl
  have hdeep : (Tree.map [([0x62], .list []), ([0x61], .crowd .null)]).stop? 1 = some .deep := by
    simp [Tree.stop?, Tree.stopWithin?, Tree.stopPairs?]
  have hlong : (Tree.map [([0x61], .crowd .null), ([0x62], .list [])]).stop? 1 = some .overfull := by
    simp [Tree.stop?, Tree.stopWithin?, Tree.stopPairs?, Tree.stop?_crowd]
  have hdepth : ∀ order, ({ keyOrder := order, maxDepth := 1 } : FoldOptions).depthLimit = 1 :=
    fun _ => rfl
  refine ⟨?_, ?_, ?_, rfl⟩
  · rw [foldTree, foldTreeOn_eq_stop, hdepth, hdeep]
    rfl
  · rw [hsorted, foldTree, foldTreeOn_eq_stop, hdepth, hlong]
    rfl
  · have hplain : Bson.Plain (.map [([0x61], .int 1), ([0x30], .int 2)]) :=
      ⟨by simp [Bson.PlainAt], trivial, trivial, trivial⟩
    have hroot : Bson.IsRoot (.map [([0x61], .int 1), ([0x30], .int 2)]) := by simp [Bson.IsRoot]
    exact ⟨_, Bson.encode_form hplain hroot (by decide) (by decide)⟩

end TreeDigest
