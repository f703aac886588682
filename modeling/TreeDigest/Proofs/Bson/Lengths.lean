import TreeDigest.Proofs.Bson.Inverse

/-!
# Lengths are held to

A document says where it ends, and what an element of it may not reach is only the
end of the document around it. So a changed length may well be passed by, element
by element, and what is then found beyond the end belongs to other documents. But
the elements of a document are seen from their octets alone, up to the zero octet
behind them. Whatever its length says, a document therefore has the content it has,
and one length goes with that.
-/

namespace TreeDigest.Bson

variable {b before content next rest rest' key octets : Bytes} {type : ElementType} {t : Tree}
  {offset limit : Nat} {isArray : Bool}

/-! ## Elements from the front -/

/-- Octets are elements, whatever these say. -/
def IsContent (content : Bytes) : Prop := ∃ entries longs, SpellsEntries entries content longs

/-- A head is seen from the octets. -/
theorem headForm_unique {type' : ElementType} {key' : Bytes} (hkey : (0 : UInt8) ∉ key)
    (hkey' : (0 : UInt8) ∉ key') (h : headForm type key ++ rest = headForm type' key' ++ rest') :
    type = type' ∧ key = key' ∧ rest = rest' := by
  -- with an end far enough behind them, the next element begins with the one and the other
  have hhead : nextElement (key.length + key'.length + 2) ⟨0, headForm type key ++ rest⟩ = _ :=
    nextElement_head hkey (by omega)
  have hhead' : nextElement (key.length + key'.length + 2) ⟨0, headForm type' key' ++ rest'⟩ = _ :=
    nextElement_head hkey' (by omega)
  rw [h, hhead'] at hhead
  injection hhead with hheader hcursor
  injection hheader with hheader
  injection hheader with _ htype hkeys
  injection hcursor with _ hrest
  exact ⟨(octet_injective htype).symm, hkeys.symm, hrest.symm⟩

theorem IsContent.nil : IsContent [] := ⟨_, _, .nil⟩

/-- Content that starts with a head goes on with a payload of its type, and content. -/
theorem IsContent.element (h : IsContent content) (hkey : (0 : UInt8) ∉ key)
    (hnext : content ++ 0 :: rest = headForm type key ++ next) :
    ∃ t bytes longs content', Spells type t bytes longs ∧ IsContent content' ∧
      bytes ++ (content' ++ 0 :: rest) = next := by
  obtain ⟨entries, longs, h⟩ := h
  cases h with
  | nil =>
    -- no head begins with the zero octet behind the elements
    injection hnext with hzero _
    exact absurd hzero.symm (octet_ne_zero type)
  | cons hkey' hspells hentries =>
    rw [List.append_assoc, List.append_assoc] at hnext
    obtain ⟨rfl, rfl, rfl⟩ := headForm_unique hkey' hkey hnext
    exact ⟨_, _, _, _, hspells, ⟨_, _, hentries⟩, rfl⟩

/-- What stands behind some of the elements are the others. -/
theorem IsContent.behind (h : IsContent content) (hbefore : IsContent before)
    (hnext : content ++ 0 :: rest = before ++ next) :
    ∃ content', IsContent content' ∧ content' ++ 0 :: rest = next := by
  obtain ⟨entries, longs, hbefore⟩ := hbefore
  induction entries generalizing content before longs with
  | nil =>
    cases hbefore
    exact ⟨content, h, hnext⟩
  | cons kv entries ih =>
    cases hbefore with
    | cons hkey hspells hentries =>
      rw [List.append_assoc, List.append_assoc] at hnext
      obtain ⟨t', bytes', longs', content', hspells', hcontent', hbytes⟩ := h.element hkey hnext
      obtain ⟨-, -, hrest⟩ := spells_unique hspells' hspells hbytes
      exact ih hcontent' hrest _ hentries

/-- **Content ends at one place.** -/
theorem IsContent.unique {content' : Bytes} (h : IsContent content) (h' : IsContent content')
    (hsame : content ++ 0 :: rest = content' ++ 0 :: rest') : content = content' := by
  obtain ⟨content'', h'', hbehind⟩ := h.behind h' hsame
  obtain ⟨entries, longs, h''⟩ := h''
  cases h'' with
  | nil =>
    injection hbehind with _ hrest
    rw [hrest] at hsame
    exact List.append_cancel_right hsame
  | cons _ _ _ =>
    injection hbehind with hzero _
    exact absurd hzero (octet_ne_zero _)

/-! ## Documents within documents -/

/--
A document begins at an offset of octets that are a document and what follows it.
Four octets are its length, whatever they say, and in it a document begins where one
does behind some of its elements and the head of one more.
-/
inductive DocumentAt : Bytes → Nat → Prop
  | here (b : Bytes) : DocumentAt b 0
  | inside {length before key rest : Bytes} {isArray : Bool} {offset : Nat} :
      length.length = 4 → IsContent before → (0 : UInt8) ∉ key → DocumentAt rest offset →
      DocumentAt (length ++ before ++ headForm (documentType isArray) key ++ rest)
        ((length ++ before ++ headForm (documentType isArray) key).length + offset)

/-- What a document spells: elements behind their length. -/
theorem Spells.elements {bytes : Bytes} {longs : List Int64}
    (h : Spells (documentType isArray) t bytes longs) :
    ∃ content, IsContent content ∧ bytes = documentForm content := by
  cases isArray with
  | false => cases h with
    | document hentries _ => exact ⟨_, ⟨_, _, hentries⟩, rfl⟩
  | true => cases h with
    | array hentries _ => exact ⟨_, ⟨_, _, hentries⟩, rfl⟩

/-- A document and what stands around it. -/
theorem documentForm_append (content rest : Bytes) :
    documentForm content ++ rest = Bytes.little 4 (content.length + 5) ++ (content ++ 0 :: rest) := by
  rw [documentForm, List.append_assoc, List.append_assoc]
  rfl

/-- **Where a document begins within one that is spelled, elements are behind their length.** -/
theorem DocumentAt.elements (h : DocumentAt b offset) (hcontent : IsContent content)
    (hb : b = documentForm content ++ rest) :
    ∃ before content' after, before.length = offset ∧ IsContent content' ∧
      b = before ++ (documentForm content' ++ after) := by
  induction h generalizing content rest with
  | here b => exact ⟨[], content, rest, rfl, hcontent, hb⟩
  | @inside length before key within isArray offset hlength hbefore hkey _ ih =>
    rw [documentForm_append, List.append_assoc, List.append_assoc] at hb
    -- behind the lengths the elements are the same octets
    obtain ⟨-, hsame⟩ := List.append_inj hb (by rw [hlength, Bytes.length_little])
    obtain ⟨content₁, hcontent₁, hnext⟩ := hcontent.behind hbefore hsame.symm
    obtain ⟨t, bytes, longs, content₂, hspells, -, hwithin⟩ := hcontent₁.element hkey hnext
    obtain ⟨content₃, hcontent₃, rfl⟩ := hspells.elements
    obtain ⟨before', content', after, rfl, hcontent', rfl⟩ := ih hcontent₃ hwithin.symm
    refine ⟨length ++ before ++ headForm (documentType isArray) key ++ before', content', after,
      ?_, hcontent', ?_⟩
    · rw [List.length_append]
    · rw [List.append_assoc _ before']

/-! ## Another length -/

/-- Octets with others in their place from an offset on. -/
def overwrite (b : Bytes) (offset : Nat) (octets : Bytes) : Bytes :=
  b.take offset ++ octets ++ b.drop (offset + octets.length)

theorem overwrite_append (before b : Bytes) (offset : Nat) (octets : Bytes) :
    overwrite (before ++ b) (before.length + offset) octets = before ++ overwrite b offset octets := by
  rw [overwrite, overwrite, List.take_length_add_append, Nat.add_assoc, List.drop_length_add_append,
    List.append_assoc, List.append_assoc, List.append_assoc]

/-- Octets in the place of as many. -/
theorem overwrite_middle {before old octets rest : Bytes} (h : octets.length = old.length) :
    overwrite (before ++ (old ++ rest)) before.length octets = before ++ (octets ++ rest) := by
  have happend := overwrite_append before (old ++ rest) 0 octets
  rw [Nat.add_zero] at happend
  rw [happend, overwrite, List.take_zero, List.nil_append, Nat.zero_add, h, List.drop_left]

/-- A document begins where one began, whatever is written there. -/
theorem DocumentAt.overwrite (h : DocumentAt b offset) (octets : Bytes) :
    DocumentAt (overwrite b offset octets) offset := by
  induction h with
  | here b => exact .here _
  | inside hlength hbefore hkey _ ih =>
    rw [overwrite_append]
    exact .inside hlength hbefore hkey ih

/-- The length of a document that begins at an offset. -/
def lengthAt (b : Bytes) (offset : Nat) : Bytes := (b.drop offset).take 4

/-- **No two lengths of one document are read with the same octets around them.** -/
theorem length_unique {limit' : Nat} {t' : Tree} (hread : readTree b limit = .ok t)
    (hread' : readTree (overwrite b offset octets) limit' = .ok t') (h : DocumentAt b offset)
    (hoctets : octets.length = 4) : octets = lengthAt b offset := by
  obtain ⟨_, hspells⟩ := readTree_spells hread
  obtain ⟨_, hspells'⟩ := readTree_spells hread'
  obtain ⟨root, hroot, hb⟩ := hspells.elements
  obtain ⟨root', hroot', hb'⟩ := hspells'.elements
  obtain ⟨before, content, after, rfl, hcontent, rfl⟩ :=
    h.elements hroot (hb.trans (List.append_nil _).symm)
  obtain ⟨before', content', after', hbefore, hcontent', hsame⟩ :=
    (h.overwrite octets).elements hroot' (hb'.trans (List.append_nil _).symm)
  rw [documentForm_append, documentForm_append,
    overwrite_middle (by rw [hoctets, Bytes.length_little])] at hsame
  obtain ⟨-, hdocument⟩ := List.append_inj hsame hbefore.symm
  obtain ⟨hlength, helements⟩ := List.append_inj hdocument (by rw [hoctets, Bytes.length_little])
  -- the elements are the same, and so is the length that goes with them
  rw [lengthAt, List.drop_left, documentForm_append, List.take_left' (Bytes.length_little ..),
    hlength, hcontent.unique hcontent' helements]

/-! ## Decoders -/

/--
**A document is as long as it says.** If octets are decoded and a document begins at
an offset of them, the root or one at any depth, no decoder accepts them with any
other four octets for its length, whatever the options.
-/
theorem bson_lengths_are_held_to {reader : Codec} {o : FoldOptions} {digest : Digest}
    (hreader : reader ∈ Codec.ofFormat .bson) (hok : reader.decode b o = .ok digest)
    (h : DocumentAt b offset) (hoctets : octets.length = 4) (hother : octets ≠ lengthAt b offset) :
    ∀ reader' ∈ Codec.ofFormat .bson, ∀ o' : FoldOptions,
      ∃ e, reader'.decode (overwrite b offset octets) o' = .error (.decode e) := by
  obtain ⟨t, hread⟩ := Codec.Folds.read (decode_eq hreader) hok
  intro reader' hreader' o'
  refine readsTrees.decode_of_unread (decode_eq hreader') (fun limit' t' hread' => hother ?_) o'
  exact length_unique hread hread' h hoctets

/-- The empty list in `{a: [], b: null}` reaches for the zero octet of the root. -/
theorem bson_lengths_are_held_to_nested :
    stream.decode [16, 0, 0, 0, 4, 0x61, 0, 5, 0, 0, 0, 0, 10, 0x62, 0, 0] {} =
        .ok ((Tree.map [([0x61], .list []), ([0x62], .null)]).digest {}) ∧
      DocumentAt [16, 0, 0, 0, 4, 0x61, 0, 5, 0, 0, 0, 0, 10, 0x62, 0, 0] 7 ∧
      lengthAt [16, 0, 0, 0, 4, 0x61, 0, 5, 0, 0, 0, 0, 10, 0x62, 0, 0] 7 = [5, 0, 0, 0] ∧
      ∃ e, built.decode [16, 0, 0, 0, 4, 0x61, 0, 9, 0, 0, 0, 0, 10, 0x62, 0, 0] {} =
        .error (.decode e) := by
  have hstream : stream ∈ Codec.ofFormat .bson := List.mem_cons_self ..
  have hbuilt : built ∈ Codec.ofFormat .bson := List.mem_cons_of_mem _ (List.mem_cons_self ..)
  have hread : readTree [16, 0, 0, 0, 4, 0x61, 0, 5, 0, 0, 0, 0, 10, 0x62, 0, 0]
      FoldOptions.depthCeiling = .ok (.map [([0x61], .list []), ([0x62], .null)]) := by rfl
  have hok : stream.decode [16, 0, 0, 0, 4, 0x61, 0, 5, 0, 0, 0, 0, 10, 0x62, 0, 0] {} = .ok _ :=
    readsTrees.decode_of_read (o := {}) (decode_eq hstream) hread (by decide)
  have hat : DocumentAt [16, 0, 0, 0, 4, 0x61, 0, 5, 0, 0, 0, 0, 10, 0x62, 0, 0] 7 :=
    @DocumentAt.inside [16, 0, 0, 0] [] [0x61] _ true 0 rfl .nil (by decide) (.here _)
  have hlength : ([9, 0, 0, 0] : Bytes).length = 4 := rfl
  exact ⟨hok, hat, rfl,
    bson_lengths_are_held_to hstream hok hat hlength (by decide) built hbuilt {}⟩

end TreeDigest.Bson
