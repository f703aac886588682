import Mathlib.Algebra.Order.BigOperators.Group.List
import Mathlib.Algebra.Order.Group.Nat
import TreeDigest.Proofs.Bson.RoundTrip
import TreeDigest.Registry

/-!
# Writing what was read

The other direction of the round trip. Whatever spells a tree is as long as the form
of the tree at least, and is that form if no integer in it takes 64 bits that fits
32. For a root there is one thing more to see: what is read as a map does not begin
with the key at which writers refuse.
-/

namespace TreeDigest.Bson

variable {limit : Nat} {t : Tree} {isArray : Bool}

/-! ## Payload by payload -/

/-- What a spelled tree is to a writer. -/
structure Rewrites (type : ElementType) (t : Tree) (bytes : Bytes) (longs : List Int64) : Prop where
  plain : Plain t
  length_le : (payloadForm t).length ≤ bytes.length
  same : (∀ i ∈ longs, ¬ FitsShort i) → typeOf t = type ∧ payloadForm t = bytes

theorem entries_rewrite {entries : List (Bytes × Tree)} {content : Bytes} {longs : List Int64}
    (hvalues : ∀ kv ∈ entries, ∀ {type bytes longs}, Spells type kv.2 bytes longs →
      Rewrites type kv.2 bytes longs)
    (h : SpellsEntries entries content longs) :
    (∀ kv ∈ entries, (0 : UInt8) ∉ kv.1 ∧ Plain kv.2) ∧
      (entriesForm entries).length ≤ content.length ∧
      ((∀ i ∈ longs, ¬ FitsShort i) → entriesForm entries = content) := by
  induction entries generalizing content longs with
  | nil =>
    cases h
    exact ⟨fun _ hkv => (nomatch hkv), Nat.le_refl _, fun _ => rfl⟩
  | cons kv entries ih =>
    rw [List.forall_mem_cons] at hvalues
    cases h with
    | @cons type key bytes content t longs more _ hnul hspells hentries =>
      obtain ⟨hplain, hle, hsame⟩ := hvalues.1 hspells
      obtain ⟨hall, hcontent, hsames⟩ := ih hvalues.2 hentries
      have hform : entriesForm ((key, t) :: entries) = elementForm key t ++ entriesForm entries := by
        rw [entriesForm, List.flatMap_cons, entriesForm]
      refine ⟨List.forall_mem_cons.mpr ⟨⟨hnul, hplain⟩, hall⟩, ?_, fun hlongs => ?_⟩
      · rw [hform, List.length_append, length_elementForm, List.length_append, List.length_append,
          length_headForm]
        dsimp only at hle
        omega
      · rw [List.forall_mem_append] at hlongs
        obtain ⟨htype, hbytes⟩ := hsame hlongs.1
        dsimp only at htype hbytes
        rw [hform, elementForm, htype, hbytes, hsames hlongs.2]

theorem documentForm_rewrite {entries : List (Bytes × Tree)} {content : Bytes}
    (h : (entriesForm entries).length ≤ content.length) :
    (documentForm (entriesForm entries)).length ≤ (documentForm content).length := by
  rw [length_documentForm, length_documentForm]
  omega

/-- **A tree that was spelled is plain. Its form is no longer than what spelled it, and is that
unless an integer was spelled in 64 bits without need.** -/
theorem spells_rewrites {type : ElementType} {bytes : Bytes} {longs : List Int64}
    (h : Spells type t bytes longs) : Rewrites type t bytes longs := by
  induction t using Tree.induct generalizing type bytes longs with
  | scalar t hscalar =>
    cases h with
    | document _ _ => exact Bool.noConfusion hscalar
    | array _ _ => exact Bool.noConfusion hscalar
    | null => exact ⟨trivial, Nat.le_refl _, fun _ => ⟨rfl, rfl⟩⟩
    | bool b => exact ⟨trivial, Nat.le_refl _, fun _ => ⟨rfl, rfl⟩⟩
    | double bits => exact ⟨trivial, Nat.le_refl _, fun _ => ⟨rfl, rfl⟩⟩
    | text _ => exact ⟨trivial, Nat.le_refl _, fun _ => ⟨rfl, rfl⟩⟩
    | @int32 i hi =>
      have hform : payloadForm (.int i) = Bytes.little 4 i.toUInt64.toNat := by
        rw [payloadForm, intForm, if_pos hi]
      exact ⟨trivial, Nat.le_of_eq (by rw [hform]), fun _ => ⟨if_pos hi, hform⟩⟩
    | int64 i =>
      refine ⟨trivial, ?_, fun hlongs => ?_⟩
      · rw [payloadForm, intForm, Bytes.length_little, Bytes.length_little]
        split <;> omega
      · have hi : ¬ FitsShort i := hlongs i (List.mem_singleton_self i)
        exact ⟨if_neg hi, by rw [payloadForm, intForm, if_neg hi]⟩
  | list items ih =>
    cases h with
    | array hentries hlen =>
      have hvalues : ∀ kv ∈ entriesOf items, ∀ {type bytes longs}, Spells type kv.2 bytes longs →
          Rewrites type kv.2 bytes longs := by
        intro kv hkv type bytes longs hspells
        exact ih kv.2 (mem_of_mem_entriesOf hkv) hspells
      obtain ⟨hall, hle, hsame⟩ := entries_rewrite hvalues hentries
      refine ⟨plain_list.mpr fun t ht => ?_, ?_, fun hlongs => ⟨rfl, ?_⟩⟩
      · have hplain : ∀ t ∈ (entriesOf items).map (·.2), Plain t :=
          List.forall_mem_map.mpr fun kv hkv => (hall kv hkv).2
        rw [values_entriesOf] at hplain
        exact hplain t ht
      · rw [payloadForm, formItems_eq]
        exact documentForm_rewrite hle
      · rw [payloadForm, formItems_eq, hsame hlongs]
  | map pairs ih =>
    cases h with
    | document hentries hlen =>
      obtain ⟨hall, hle, hsame⟩ := entries_rewrite (fun kv hkv _ _ _ hspells => ih kv hkv hspells) hentries
      refine ⟨plain_map.mpr ⟨fun kv hkv => (hall kv hkv).1, fun kv hkv => (hall kv hkv).2⟩, ?_,
        fun hlongs => ⟨rfl, ?_⟩⟩
      · rw [payloadForm, formPairs_eq]
        exact documentForm_rewrite hle
      · rw [payloadForm, formPairs_eq, hsame hlongs]

/-! ## Sizes -/

/-- Elements take an octet for each key, and one for each node and key of their values. -/
theorem entries_size_le {entries : List (Bytes × Tree)} {content : Bytes} {longs : List Int64}
    (hvalues : ∀ kv ∈ entries, ∀ {type bytes longs}, Spells type kv.2 bytes longs →
      kv.2.size ≤ max 1 bytes.length)
    (h : SpellsEntries entries content longs) :
    (entries.map fun kv => 1 + kv.2.size).sum ≤ content.length := by
  induction entries generalizing content longs with
  | nil => exact Nat.zero_le _
  | cons kv entries ih =>
    rw [List.forall_mem_cons] at hvalues
    cases h with
    | cons _ hvalue hentries =>
      have hfirst := hvalues.1 hvalue
      have hrest := ih hvalues.2 hentries
      rw [List.map_cons, List.sum_cons, List.length_append, List.length_append, length_headForm]
      omega

/-- A payload takes an octet for each node and each key in it, but for that of a scalar. -/
theorem size_le_of_spells {type : ElementType} {bytes : Bytes} {longs : List Int64}
    (h : Spells type t bytes longs) : t.size ≤ max 1 bytes.length := by
  induction t using Tree.induct generalizing type bytes longs with
  | scalar t hscalar =>
    rw [Tree.size_scalar hscalar]
    exact Nat.le_max_left _ _
  | list items ih =>
    cases h with
    | array hentries _ =>
      have hle := entries_size_le (fun kv hkv _ _ _ hspells =>
        ih kv.2 (mem_of_mem_entriesOf hkv) hspells) hentries
      have hitems : (items.map Tree.size).sum ≤
          ((entriesOf items).map fun kv => 1 + kv.2.size).sum := by
        have hvalues := congrArg (List.map Tree.size) (values_entriesOf items)
        rw [← hvalues, List.map_map]
        exact List.sum_le_sum fun kv _ => Nat.le_add_left _ 1
      rw [Tree.size_list, length_documentForm]
      omega
  | map pairs ih =>
    cases h with
    | document hentries _ =>
      have hle := entries_size_le (fun kv hkv _ _ _ hspells => ih kv hkv hspells) hentries
      rw [Tree.size_map, length_documentForm]
      omega

/-! ## Roots -/

theorem form_eq_payloadForm (h : IsRoot t) : form t = payloadForm t := by
  cases t with
  | list items => rw [form, payloadForm]
  | map pairs => rw [form, payloadForm]
  | _ => exact h.elim

theorem length_of_spells {bytes : Bytes} {longs : List Int64}
    (h : Spells (documentType isArray) t bytes longs) : bytes.length < 0x80000000 := by
  cases isArray with
  | false => cases h with
    | document _ hlen => rwa [length_documentForm]
  | true => cases h with
    | array _ hlen => rwa [length_documentForm]

theorem least_of_spells {bytes : Bytes} {longs : List Int64}
    (h : Spells (documentType isArray) t bytes longs) : 5 ≤ bytes.length := by
  cases isArray with
  | false => cases h with
    | document _ _ => exact length_documentForm _ ▸ Nat.le_add_left _ _
  | true => cases h with
    | array _ _ => exact length_documentForm _ ▸ Nat.le_add_left _ _

/-- A first key that writers refuse makes a list of a root. -/
theorem rootIsArray_of_key {type : ElementType} {rest : Bytes} (n : Nat) :
    rootIsArray (Bytes.little 4 n ++ (headForm type [0x30] ++ rest)) = true := by
  have hlittle : ∃ a b c d, Bytes.little 4 n = [a, b, c, d] := ⟨_, _, _, _, rfl⟩
  obtain ⟨a, b, c, d, hlength⟩ := hlittle
  rw [hlength]
  show (type.octet != 0) = true
  exact bne_iff_ne.mpr (octet_ne_zero type)

/-- **What a root reads as is a root.** -/
theorem isRoot_of_spells {input : Bytes} {longs : List Int64}
    (h : Spells (documentType (rootIsArray input)) t input longs) : IsRoot t := by
  cases harray : rootIsArray input with
  | true =>
    rw [harray] at h
    cases h
    exact trivial
  | false =>
    rw [harray] at h
    cases h with
    | document hentries _ =>
      intro hkey
      cases hentries with
      | nil => cases hkey
      | @cons type key bytes content _ _ _ entries _ _ _ =>
        cases Option.some.inj hkey
        rw [documentForm, List.append_assoc (headForm type [0x30]), List.append_assoc,
          rootIsArray_of_key] at harray
        cases harray

/-! ## Whole inputs -/

/-- The integers that an input spells in 64 bits. -/
def LongIntegers (input : Bytes) (longs : List Int64) : Prop :=
  ∃ t, Spells (documentType (rootIsArray input)) t input longs

variable {input : Bytes} {longs : List Int64} {o : FoldOptions}

/-- **An input that is read is spelled.** -/
theorem readTree_spells (h : readTree input limit = .ok t) :
    ∃ longs, Spells (documentType (rootIsArray input)) t input longs := by
  obtain ⟨c, hread, hend⟩ := Reader.whole_ok h
  obtain ⟨bytes, longs, hspells, htaken⟩ := read_takes hread
  cases htaken.whole hend
  exact ⟨longs, hspells⟩

/-- Each node and each key of a tree that is read takes an octet at least. -/
theorem size_le_of_read (h : readTree input limit = .ok t) : t.size ≤ input.length := by
  obtain ⟨longs, hspells⟩ := readTree_spells h
  have hle := size_le_of_spells hspells
  have hleast := least_of_spells hspells
  omega

/-- What an input spells is what was read of it. -/
theorem spells_of_read (h : readTree input limit = .ok t) (hlongs : LongIntegers input longs) :
    Spells (documentType (rootIsArray input)) t input longs := by
  obtain ⟨longs', hspells⟩ := readTree_spells h
  obtain ⟨t', hspells'⟩ := hlongs
  cases (spells_unique hspells' hspells (rfl : input ++ [] = input ++ [])).1
  exact hspells'

/-- An input that is read spells certain integers in 64 bits, and no others. -/
theorem longIntegers_of_read (h : readTree input limit = .ok t) :
    ∃! longs, LongIntegers input longs := by
  obtain ⟨longs, hspells⟩ := readTree_spells h
  exact ⟨longs, ⟨t, hspells⟩, fun longs' hlongs => longs_unique (spells_of_read h hlongs) hspells⟩

/-! ## Both directions -/

theorem codecs_eq : Codec.ofFormat .bson = [stream, built] := rfl

/-- Every decoder is the one that reads a tree first. -/
theorem decode_eq {reader : Codec} (h : reader ∈ Codec.ofFormat .bson) (input : Bytes)
    (o : FoldOptions) : reader.decode input o = decodeTree input o := by
  rw [codecs_eq] at h
  rcases List.mem_cons.mp h with rfl | h
  · exact decodeStream_eq input o
  · rw [List.mem_singleton.mp h]
    rfl

/-- Every encoder is the one writer, under a name. -/
theorem encode_eq {writer : Codec} (h : writer ∈ Codec.ofFormat .bson) :
    ∃ codec, writer.encode = encode codec := by
  rw [codecs_eq] at h
  rcases List.mem_cons.mp h with rfl | h
  · exact ⟨_, rfl⟩
  · rw [List.mem_singleton.mp h]
    exact ⟨_, rfl⟩

/-- **A tree that was read can be written again.** -/
theorem encode_of_read {codec : String} (hread : readTree input limit = .ok t)
    (hdepth : t.depth ≤ o.depthLimit) : encode codec t o = .ok ⟨form t, t.digest o⟩ := by
  obtain ⟨longs, hspells⟩ := readTree_spells hread
  obtain ⟨hplain, hle, -⟩ := spells_rewrites hspells
  have hroot := isRoot_of_spells hspells
  rw [← form_eq_payloadForm hroot] at hle
  exact encode_form hplain hroot (Nat.lt_of_le_of_lt hle (length_of_spells hspells)) hdepth

/-- **Reading and writing are inverse, but for the width of integers and an empty list.** -/
theorem bson_reading_inverts_writing :
    (∀ writer ∈ Codec.ofFormat .bson, ∀ (t : Tree) (o : FoldOptions) (e : Encoded),
      writer.encode t o = .ok e →
        (∀ d, t.depth ≤ min d FoldOptions.depthCeiling → readValue e.bytes d = .ok (readBack t)) ∧
        ∀ reader ∈ Codec.ofFormat .bson, ∀ o' : FoldOptions,
          (t.depth ≤ o'.depthLimit →
            ∃ digest, foldTree t o' = .ok digest ∧ reader.decode e.bytes o' = .ok digest) ∧
          (o'.depthLimit < t.depth →
            reader.decode e.bytes o' = .error (.decode (.depthExceeded o'.depthLimit)))) ∧
    (∀ (b : Bytes) (d : Nat) (t : Tree), readValue b d = .ok t →
      (∃! longs, LongIntegers b longs) ∧
      ∀ writer ∈ Codec.ofFormat .bson, ∀ o : FoldOptions, t.depth ≤ o.depthLimit →
        ∃ e, writer.encode t o = .ok e ∧
          (∀ reader ∈ Codec.ofFormat .bson,
            reader.decode b o = .ok e.digest ∧ reader.decode e.bytes o = .ok e.digest) ∧
          e.bytes.length ≤ b.length ∧
          ∀ longs, LongIntegers b longs → (∀ i ∈ longs, ¬ FitsShort i) → e.bytes = b) := by
  refine ⟨fun writer hwriter t o e hok => ?forward,
    fun b d t hread => ⟨longIntegers_of_read hread, fun writer hwriter o hdepth => ?converse⟩⟩
  case forward =>
    obtain ⟨codec, hencode⟩ := encode_eq hwriter
    rw [hencode] at hok
    obtain ⟨⟨hplain, hroot, hlen⟩, hfits, rfl⟩ := encode_eq_ok_iff.mp hok
    have hcount := ((write_requires t).run hok).2.1
    refine ⟨fun d hdepth => readTree_form hplain hroot hlen hdepth, fun reader hreader o' => ?_⟩
    rw [decode_eq hreader, decodeTree_form_eq hplain hroot hlen]
    refine ⟨fun hdepth => ⟨t.digest o', foldTreeOn_eq hdepth hcount, if_pos hdepth⟩, ?_⟩
    exact fun hdepth => if_neg (Nat.not_le.mpr hdepth)
  case converse =>
    obtain ⟨codec, hencode⟩ := encode_eq hwriter
    have hok : encode codec t o = .ok ⟨form t, t.digest o⟩ := encode_of_read hread hdepth
    obtain ⟨⟨hplain, hroot, hlen⟩, -, -⟩ := encode_eq_ok_iff.mp hok
    obtain ⟨longs, hspells⟩ := readTree_spells hread
    have hle := (spells_rewrites hspells).length_le
    rw [← form_eq_payloadForm hroot] at hle
    refine ⟨_, hencode ▸ hok, fun reader hreader => ⟨?_, ?_⟩, hle, ?_⟩
    · exact readsTrees.decode_of_read (decode_eq hreader) hread hdepth
    · rw [decode_eq hreader, decodeTree_form hplain hroot hlen hdepth]
    · intro longs hlongs hfits
      have hsame := (spells_rewrites (spells_of_read hread hlongs)).same hfits
      exact (form_eq_payloadForm hroot).trans hsame.2

theorem bson_reading_inverts_writing_list :
    readValue [12, 0, 0, 0, 0x10, 0x30, 0, 5, 0, 0, 0, 0] 1 = .ok (.list [.int 5]) ∧
    stream.decode [12, 0, 0, 0, 0x10, 0x30, 0, 5, 0, 0, 0, 0] { maxDepth := 0 } =
      .error (.decode (.depthExceeded 0)) ∧
    ∃ e, built.encode (.list [.int 5]) {} = .ok e ∧
      e.bytes = [12, 0, 0, 0, 0x10, 0x30, 0, 5, 0, 0, 0, 0] := by
  have hstream : stream ∈ Codec.ofFormat .bson := List.mem_cons_self ..
  have hbuilt : built ∈ Codec.ofFormat .bson := List.mem_cons_of_mem _ (List.mem_cons_self ..)
  have hencode : stream.encode (.list [.uint 5]) {} =
      .ok ⟨[12, 0, 0, 0, 0x10, 0x30, 0, 5, 0, 0, 0, 0], (Tree.list [.uint 5]).digest {}⟩ := by rfl
  have hread : readValue [12, 0, 0, 0, 0x10, 0x30, 0, 5, 0, 0, 0, 0] 1 = .ok (.list [.int 5]) := by rfl
  have hentries : SpellsEntries (entriesOf [.int 5]) [0x10, 0x30, 0, 5, 0, 0, 0] [] :=
    @SpellsEntries.cons .int32 [0x30] [5, 0, 0, 0] [] (.int 5) [] [] [] (by decide)
      (@Spells.int32 5 (by decide)) .nil
  have hlongs : LongIntegers [12, 0, 0, 0, 0x10, 0x30, 0, 5, 0, 0, 0, 0] [] :=
    ⟨.list [.int 5], @Spells.array [.int 5] _ [] hentries (by decide)⟩
  obtain ⟨hforward, hconverse⟩ := bson_reading_inverts_writing
  obtain ⟨hback, hdigests⟩ := hforward stream hstream _ _ _ hencode
  obtain ⟨e, hok, -, -, hsame⟩ := (hconverse _ 1 _ hread).2 built hbuilt {} (by decide)
  exact ⟨hback 1 (by decide), (hdigests stream hstream _).2 (by decide), e, hok,
    hsame [] hlongs (fun _ hi => nomatch hi)⟩

end TreeDigest.Bson
