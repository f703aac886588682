import TreeDigest.Proofs.Bson.Grammar
import TreeDigest.Proofs.Bson.Requires
import TreeDigest.Proofs.Fold.Signedness

/-!
# Reading BSON forms

The form of a tree spells the tree, except that all integers come back signed. So
the tree reader takes it back to that. Of a root it also has to tell whether it is a
list, and it does, but for a list without items, which is an empty document.
-/

namespace TreeDigest.Bson

open Reader (Reads)

variable {limit : Nat} {t : Tree}

/-! ## Forms are spelled -/

/-- What is read of an entry. -/
def signed (kv : Bytes × Tree) : Bytes × Tree := (kv.1, kv.2.mapIntegers Integer.toSigned)

theorem entriesOf_signed (items : List Tree) :
    entriesOf (items.map (Tree.mapIntegers Integer.toSigned)) = (entriesOf items).map signed := by
  rw [entriesOf, entriesOf, List.zipIdx_map, List.map_map, List.map_map]
  rfl

theorem payload_le {entries : List (Bytes × Tree)} {kv : Bytes × Tree} (h : kv ∈ entries) :
    (payloadForm kv.2).length ≤ (entriesForm entries).length := by
  have hle := length_entry_le h
  rw [length_elementForm] at hle
  omega

theorem entriesForm_spells {entries : List (Bytes × Tree)}
    (hkeys : ∀ kv ∈ entries, (0 : UInt8) ∉ kv.1)
    (hvalues : ∀ kv ∈ entries,
      ∃ longs, Spells (typeOf kv.2) (signed kv).2 (payloadForm kv.2) longs) :
    ∃ longs, SpellsEntries (entries.map signed) (entriesForm entries) longs := by
  induction entries with
  | nil => exact ⟨[], .nil⟩
  | cons kv entries ih =>
    rw [List.forall_mem_cons] at hkeys hvalues
    obtain ⟨longs, hspells⟩ := hvalues.1
    obtain ⟨more, hentries⟩ := ih hkeys.2 hvalues.2
    have hform : entriesForm (kv :: entries) =
        headForm (typeOf kv.2) kv.1 ++ payloadForm kv.2 ++ entriesForm entries := by
      rw [entriesForm, List.flatMap_cons, entriesForm, elementForm]
    rw [hform]
    exact ⟨longs ++ more, .cons hkeys.1 hspells hentries⟩

theorem int_spells (i : Int64) : ∃ longs, Spells (intType i) (.int i) (intForm i) longs := by
  by_cases hi : FitsShort i
  · rw [intType, if_pos hi, intForm, if_pos hi]
    exact ⟨_, .int32 hi⟩
  · rw [intType, if_neg hi, intForm, if_neg hi]
    exact ⟨_, .int64 i⟩

/-- **The form of a plain value spells it, its integers signed.** -/
theorem payloadForm_spells (ht : Plain t) (hlen : (payloadForm t).length < 0x80000000) :
    ∃ longs, Spells (typeOf t) (t.mapIntegers Integer.toSigned) (payloadForm t) longs := by
  induction t using Tree.induct with
  | scalar t hscalar =>
    cases t with
    | list items => exact Bool.noConfusion hscalar
    | map pairs => exact Bool.noConfusion hscalar
    | null => exact ⟨_, .null⟩
    | bool b => exact ⟨_, .bool b⟩
    | int i => exact int_spells i
    | uint u =>
      rw [Tree.mapIntegers, Integer.toSigned_unsigned ht]
      exact int_spells u.toInt64
    | double bits => exact ⟨_, .double bits⟩
    | text octets =>
      refine ⟨_, .text ?_⟩
      rw [payloadForm, textForm, List.length_append, List.length_append,
        List.length_singleton] at hlen
      omega
  | list items ih =>
    rw [payloadForm, formItems_eq] at hlen ⊢
    rw [length_documentForm] at hlen
    have hkeys : ∀ kv ∈ entriesOf items, (0 : UInt8) ∉ kv.1 := by
      intro kv hkv
      obtain ⟨p, -, rfl⟩ := List.mem_map.mp hkv
      exact Bytes.not_nul_mem_decimal p.2
    have hvalues : ∀ kv ∈ entriesOf items,
        ∃ longs, Spells (typeOf kv.2) (signed kv).2 (payloadForm kv.2) longs := by
      intro kv hkv
      have hle := payload_le hkv
      have hmem := mem_of_mem_entriesOf hkv
      exact ih kv.2 hmem (plain_list.mp ht kv.2 hmem) (Nat.lt_of_le_of_lt hle (by omega))
    obtain ⟨longs, hentries⟩ := entriesForm_spells hkeys hvalues
    rw [← entriesOf_signed] at hentries
    rw [Tree.mapIntegers_list]
    exact ⟨longs, .array hentries hlen⟩
  | map pairs ih =>
    rw [payloadForm, formPairs_eq] at hlen ⊢
    rw [length_documentForm] at hlen
    obtain ⟨hkeys, hplain⟩ := plain_map.mp ht
    have hvalues : ∀ kv ∈ pairs,
        ∃ longs, Spells (typeOf kv.2) (signed kv).2 (payloadForm kv.2) longs := fun kv hkv =>
      ih kv hkv (hplain kv hkv) (Nat.lt_of_le_of_lt (payload_le hkv) (by omega))
    obtain ⟨longs, hentries⟩ := entriesForm_spells hkeys hvalues
    rw [Tree.mapIntegers_map]
    exact ⟨longs, .document hentries hlen⟩

/-- The form of a document reads as the tree, its integers signed. -/
theorem document_reads {isArray : Bool} (htype : typeOf t = documentType isArray) (ht : Plain t)
    (hlen : (payloadForm t).length < 0x80000000) (hdepth : t.depth ≤ limit) :
    (read limit limit isArray).Reads (payloadForm t) (t.mapIntegers Integer.toSigned) := by
  obtain ⟨longs, hspells⟩ := payloadForm_spells ht hlen
  have hread : (payloadOf (typeOf t) >>= readPayload (read limit limit)).Reads (payloadForm t) _ :=
    spells_reads (by rwa [Tree.depth_mapIntegers]) _ _ longs hspells
  rw [htype] at hread
  cases isArray with
  | false => exact hread
  | true => exact hread

/-! ## Whole inputs -/

/-- A map at the root is not taken for a list unless its first key is that of a first item. -/
theorem rootIsArray_form {pairs : List (Bytes × Tree)} (hkeys : ∀ kv ∈ pairs, (0 : UInt8) ∉ kv.1)
    (hroot : pairs.head?.map (·.1) ≠ some [0x30]) : rootIsArray (form (.map pairs)) = false := by
  have hlittle : ∀ n, ∃ a b c d, Bytes.little 4 n = [a, b, c, d] := fun n => ⟨_, _, _, _, rfl⟩
  obtain ⟨a, b, c, d, hlength⟩ := hlittle ((formPairs pairs).length + 5)
  rw [form, documentForm, hlength]
  cases pairs with
  | nil => rfl
  | cons pair pairs =>
    obtain ⟨k, t⟩ := pair
    rw [formPairs, headForm]
    cases k with
    | nil => rfl
    | cons b₀ k =>
      cases k with
      | nil =>
        have hb₀ : b₀ ≠ 0x30 := fun hb => hroot (by rw [hb]; rfl)
        show rootIsArray (a :: b :: c :: d :: (typeOf t).octet :: b₀ :: 0 :: _) = false
        unfold rootIsArray
        split
        · rename_i heq
          cases heq
          exact absurd rfl hb₀
        · rfl
      | cons b₁ k =>
        have hb₁ : b₁ ≠ 0 := fun hb => hkeys _ (List.mem_cons_self ..) (by rw [hb]; simp)
        show rootIsArray (a :: b :: c :: d :: (typeOf t).octet :: b₀ :: b₁ :: _) = false
        unfold rootIsArray
        split
        · rename_i heq
          cases heq
          exact absurd rfl hb₁
        · rfl

/-- A list at the root is taken for one unless it is empty. -/
theorem rootIsArray_list (items : List Tree) :
    rootIsArray (form (.list items)) = !items.isEmpty := by
  have hlittle : ∀ n, ∃ a b c d, Bytes.little 4 n = [a, b, c, d] := fun n => ⟨_, _, _, _, rfl⟩
  obtain ⟨a, b, c, d, hlength⟩ := hlittle ((formItems 0 items).length + 5)
  rw [form, documentForm, hlength]
  cases items with
  | nil => rfl
  | cons item items =>
    show ((typeOf item).octet != 0) = true
    exact bne_iff_ne.mpr (octet_ne_zero (typeOf item))

/-- What the form of a root reads as. Nothing tells an empty list from an empty map. -/
def readBack : Tree → Tree
  | .list [] => .map []
  | t => t.mapIntegers Integer.toSigned

variable {o : FoldOptions}

theorem depth_readBack (t : Tree) : (readBack t).depth = t.depth := by
  unfold readBack
  split
  · rfl
  · exact Tree.depth_mapIntegers t

theorem digest_readBack (t : Tree) (o : FoldOptions) : (readBack t).digest o = t.digest o := by
  unfold readBack
  split
  · have harrange : o.keyOrder.arrange [] = [] := by
      cases o.keyOrder with
      | preserve => rfl
      | sorted => exact List.mergeSort_nil
    -- neither has more to absorb than its count
    rw [Tree.digest, Tree.digest, Tree.absorbed, Tree.absorbed, Tree.absorbedPairs,
      KeyOrder.primitives, harrange]
    rfl
  · exact Tree.digest_mapIntegers Integer.value_toSigned t o

/-- **A plain root is encoded in its form, with its digest.** -/
theorem encode_form {codec : String} (ht : Plain t) (hroot : IsRoot t)
    (hlen : (form t).length < 0x80000000) (hdepth : t.depth ≤ o.depthLimit) :
    encode codec t o = .ok ⟨form t, t.digest o⟩ :=
  (write_encodes ht hroot hlen).run hdepth

/-- **No other tree is encoded, and none in another way.** -/
theorem encode_eq_ok_iff {codec : String} {e : Encoded} :
    encode codec t o = .ok e ↔ (Plain t ∧ IsRoot t ∧ (form t).length < 0x80000000) ∧
      t.depth ≤ o.depthLimit ∧ e = ⟨form t, t.digest o⟩ := by
  constructor
  · intro h
    obtain ⟨⟨ht, hroot, hlen⟩, -, hdepth⟩ := (write_requires t).run h
    rw [encode_form ht hroot hlen hdepth] at h
    exact ⟨⟨ht, hroot, hlen⟩, hdepth, (Except.ok.inj h).symm⟩
  · rintro ⟨⟨ht, hroot, hlen⟩, hdepth, rfl⟩
    exact encode_form ht hroot hlen hdepth

/-- **The form of a root reads back with as many levels as it has, and with more.** -/
theorem readTree_form (ht : Plain t) (hroot : IsRoot t) (hlen : (form t).length < 0x80000000)
    (hdepth : t.depth ≤ limit) : readTree (form t) limit = .ok (readBack t) := by
  cases t with
  | list items =>
    have hread : (read limit limit true).Reads (form (.list items)) _ :=
      document_reads rfl ht hlen hdepth
    cases items with
    | nil =>
      obtain ⟨levels, rfl, -⟩ := Tree.exists_of_depth_list_le hdepth
      rfl
    | cons item items =>
      rw [readTree, rootIsArray_list, List.isEmpty_cons, Bool.not_false, hread.whole]
      rfl
  | map pairs =>
    have hread : (read limit limit false).Reads (form (.map pairs)) _ :=
      document_reads rfl ht hlen hdepth
    rw [readTree, rootIsArray_form (plain_map.mp ht).1 hroot, hread.whole]
    rfl
  | _ => exact hroot.elim

/-- **Its form decodes to its digest if it fits the limit, and is refused if not.** -/
theorem decodeTree_form_eq (ht : Plain t) (hroot : IsRoot t) (hlen : (form t).length < 0x80000000)
    (o : FoldOptions) : decodeTree (form t) o = if t.depth ≤ o.depthLimit then .ok (t.digest o)
      else .error (.decode (.depthExceeded o.depthLimit)) := by
  have hread := readTree_form ht hroot hlen (Nat.le_refl t.depth)
  rw [decodeTree, readsTrees.fold_of_ok hread, depth_readBack, digest_readBack]

theorem decodeTree_form (ht : Plain t) (hroot : IsRoot t) (hlen : (form t).length < 0x80000000)
    (hdepth : t.depth ≤ o.depthLimit) : decodeTree (form t) o = .ok (t.digest o) := by
  rw [decodeTree_form_eq ht hroot hlen, if_pos hdepth]

theorem decodeStream_form (ht : Plain t) (hroot : IsRoot t) (hlen : (form t).length < 0x80000000)
    (hdepth : t.depth ≤ o.depthLimit) : decodeStream (form t) o = .ok (t.digest o) :=
  (decodeStream_eq _ o).trans (decodeTree_form ht hroot hlen hdepth)

end TreeDigest.Bson
