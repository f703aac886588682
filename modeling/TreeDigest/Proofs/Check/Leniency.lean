import TreeDigest.Proofs.Text.Utf8
import TreeDigest.Proofs.Ubjson.Recorded

/-!
# What the UBJSON readers let pass

The readers hand over what the writers can write again, and take a declared type for the type
of all values, with one exception to each. A string is checked to be UTF-8, and so is a key,
but a character is one octet that nobody looks at. And a declared type is checked against the
markers that have no payload, but whether it is a marker at all is left to the first value.

Both are told by the recorder. Its notes of a decoding that came to its end are all that was
handed over and declared on the way.
-/

namespace TreeDigest.Ubjson

variable {codec : Codec} {input octets : Bytes} {o : FoldOptions} {digest : Digest} {t : Tree}
  {es : List Event} {r : Recording}

/-- Notes of how an input was decoded to a digest. -/
structure Noted (input : Bytes) (o : FoldOptions) (digest : Digest) (r : Recording) : Prop where
  recorded_eq : recorded 0 input o = .ok digest r
  /-- The decoder ends with the same digest, at the same place and with the same folder. -/
  decoded_eq : Decoder.whole (fold o.depthLimit) ⟨Cursor.start input, .start .decode o⟩ =
    .ok digest r.toDecoding
  /-- The events are what the folder has been handed. -/
  folds : Folding.events r.events.reverse (.start .decode o) = .ok () r.folder

theorem Noted.unique {r' : Recording} (h : Noted input o digest r)
    (h' : recorded 0 input o = .ok digest r') : r = r' := by
  cases h.recorded_eq.symm.trans h'
  rfl

/-- A recorder that ends with a digest has noted how the decoder does. -/
theorem Noted.of_recorded (h : recorded 0 input o = .ok digest r) : Noted input o digest r := by
  have hrecords := recorded_records 0 input o
  have herase := hrecords.erase_eq
  rw [h] at herase
  exact ⟨h, herase.symm, (hrecords.keeps h).1.folds⟩

theorem Noted.keeps (h : Noted input o digest r) :
    r.Keeps (.ofInput CanHand CanDeclare input o) 0 0 0 ∧ r.folder.finish = .ok digest :=
  (recorded_records 0 input o).keeps h.recorded_eq

/-- An input that is accepted leaves notes. -/
theorem exists_noted (h : codec ∈ Codec.ofFormat .ubjson)
    (hok : codec.decode input o = .ok digest) : ∃ r, Noted input o digest r := by
  rw [decode_eq h] at hok
  obtain ⟨r, hrecorded⟩ := (recorded_records 0 input o).exists_ok rfl hok
  exact ⟨r, .of_recorded hrecorded⟩

/-! ## Texts -/

/-- An event that a writer has a form for. -/
def HasForm : Event → Prop
  | .uint u => u.toNat < 0x8000000000000000
  | .text octets | .key octets => Sayable octets
  | _ => True

/-- A tree is writable if the events of a traversal of it have forms, whichever it is. -/
theorem writable_iff_of_traversal (h : Traversal t es) : Writable t ↔ ∀ e ∈ es, HasForm e := by
  induction t using Tree.induct generalizing es with
  | scalar t hscalar =>
    cases h with
    | list _ _ => exact Bool.noConfusion hscalar
    | map _ _ => exact Bool.noConfusion hscalar
    | _ => rw [List.forall_mem_singleton]; exact Iff.rfl
  | list items ih =>
    cases h with
    | list _ hitems =>
      rw [writable_list, hitems.forall_iff ih, List.forall_mem_cons, List.forall_mem_append,
        List.forall_mem_singleton]
      exact ⟨fun h => ⟨trivial, h, trivial⟩, fun h => h.2.1⟩
  | map pairs ih =>
    cases h with
    | map _ hpairs =>
      have hentries := hpairs.forall_iff (p := HasForm) ih
      rw [writable_map, List.forall_mem_cons, List.forall_mem_append, List.forall_mem_singleton,
        ← hentries]
      exact ⟨fun h => ⟨trivial, fun kv hkv => ⟨h.1 kv hkv, h.2 kv hkv⟩, trivial⟩,
        fun h => ⟨fun kv hkv => (h.2.1 kv hkv).1, fun kv hkv => (h.2.1 kv hkv).2⟩⟩

/-- What was handed over has forms if its texts are UTF-8. -/
theorem hasForm_iff (h : ∀ e ∈ es, CanHand e) : (∀ e ∈ es, HasForm e) ↔
    ∀ octets, .text octets ∈ es → Utf8.isValid octets = true := by
  refine ⟨fun hforms octets htext => (hforms _ htext).isValid, fun hvalid e he => ?_⟩
  have hhanded := h e he
  cases e with
  | uint u => exact hhanded.elim
  | key octets => exact hhanded
  | text octets =>
    rcases hhanded with hsayable | ⟨b, rfl⟩
    · exact hsayable
    · exact ⟨hvalid _ he, Nat.lt_of_succ_lt (show 2 < 0x8000000000000000 by decide)⟩
  | _ => exact trivial

/--
**Texts and keys are UTF-8, but for characters.** All that a reader hands over on the way to a
digest is UTF-8, except that a text can be one octet beyond ASCII. The document that it hands
over is one that the writers take again unless it has such a text.
-/
theorem ubjson_texts_are_utf8_but_characters (h : codec ∈ Codec.ofFormat .ubjson)
    (hok : codec.decode input o = .ok digest) :
    ∃ r t, Noted input o digest r ∧ Traversal t r.events.reverse ∧ foldTree t o = .ok digest ∧
      (∀ octets, .key octets ∈ r.events → Utf8.isValid octets = true) ∧
      (∀ octets, .text octets ∈ r.events →
        Utf8.isValid octets = true ∨ ∃ b, 0x80 ≤ b ∧ octets = [b]) ∧
      ∀ writer ∈ Codec.ofFormat .ubjson, ∀ o' : FoldOptions, t.depth ≤ o'.depthLimit →
        ((∃ e, writer.encode t o' = .ok e) ↔
          ∀ octets, .text octets ∈ r.events → Utf8.isValid octets = true) := by
  obtain ⟨r, hnoted⟩ := exists_noted h hok
  obtain ⟨hkeeps, hfinish⟩ := hnoted.keeps
  have hhands : ∀ e ∈ r.events, CanHand e := hkeeps.hands
  have hfold : foldEvents .decode r.events.reverse o = .ok digest := by
    rw [foldEvents, hnoted.folds]
    exact hfinish
  obtain ⟨t, htraversal, hcount, hdepth⟩ := traversal_of_foldEvents hfold
  have hwritable : Writable t ↔
      ∀ octets, .text octets ∈ r.events → Utf8.isValid octets = true := by
    rw [writable_iff_of_traversal htraversal, ← hasForm_iff hhands]
    simp only [List.mem_reverse]
  refine ⟨r, t, hnoted, htraversal, ?_, fun octets hkey => ?_, fun octets htext => ?_,
    fun writer hwriter o' hdepth' => ?_⟩
  · exact foldTreeOn_eq_ok_iff.mpr ((foldEvents_eq_ok_iff htraversal).mp hfold)
  · exact (hhands _ hkey : Sayable octets).isValid
  · rcases (hhands _ htext : Sayable octets ∨ ∃ b, octets = [b]) with hsayable | ⟨b, rfl⟩
    · exact .inl hsayable.isValid
    · by_cases hb : b < 0x80
      · exact .inl (Utf8.isValid_ascii (List.forall_mem_singleton.mpr hb))
      · exact .inr ⟨b, UInt8.not_lt.mp hb, rfl⟩
  · rw [← hwritable, exists_encode_iff hwriter]
    exact ⟨fun h => h.1.1, fun h => ⟨⟨h, hcount⟩, hdepth'⟩⟩

/-- A character that is a letter is written again. -/
theorem ubjson_texts_are_utf8_but_characters_letter :
    ∃ r t, Noted [0x43, 0x61] {} ((Tree.text [0x61]).digest {}) r ∧
      Traversal t r.events.reverse ∧ ∃ e, counted.encode t {} = .ok e := by
  have hclosed : closed ∈ Codec.ofFormat .ubjson := List.mem_cons_self ..
  have hcounted : counted ∈ Codec.ofFormat .ubjson := List.mem_cons_of_mem _ (List.mem_cons_self ..)
  have hletter : closed.decode [0x43, 0x61] {} = .ok ((Tree.text [0x61]).digest {}) := by rfl
  have hrun : ∃ r, recorded 0 [0x43, 0x61] {} = .ok ((Tree.text [0x61]).digest {}) r ∧
      r.events = [.text [0x61]] := ⟨_, rfl, rfl⟩
  obtain ⟨r, t, hnoted, htraversal, hfold, -, -, hwriters⟩ :=
    ubjson_texts_are_utf8_but_characters hclosed hletter
  obtain ⟨r', hrecorded, hevents⟩ := hrun
  obtain rfl := hnoted.unique hrecorded
  refine ⟨r, t, hnoted, htraversal, ?_⟩
  refine (hwriters counted hcounted {} (foldTreeOn_eq_ok_iff.mp hfold).1.2).mpr ?_
  rw [hevents]
  rintro octets htext
  cases List.mem_singleton.mp htext
  rfl

/-- A character that is no letter is read as a text that no writer takes. -/
theorem ubjson_character_need_not_be_utf8 :
    (¬ ∀ codec ∈ Codec.ofFormat .ubjson, ∀ input o digest, codec.decode input o = .ok digest →
      ∀ r, Noted input o digest r → ∀ octets,
        .text octets ∈ r.events ∨ .key octets ∈ r.events → Utf8.isValid octets = true) ∧
    (foldTree (.text [0xFF]) {} = closed.decode [0x43, 0xFF] {} ∧
      ∀ writer ∈ Codec.ofFormat .ubjson, ∀ o, ¬ ∃ e, writer.encode (.text [0xFF]) o = .ok e) := by
  have hinvalid : Utf8.isValid [0xFF] = false := by decide
  have hclosed : closed ∈ Codec.ofFormat .ubjson := List.mem_cons_self ..
  have hdecode : closed.decode [0x43, 0xFF] {} = .ok ((Tree.text [0xFF]).digest {}) := by rfl
  have hrun : ∃ r, recorded 0 [0x43, 0xFF] {} = .ok ((Tree.text [0xFF]).digest {}) r ∧
      r.events = [.text [0xFF]] := ⟨_, rfl, rfl⟩
  refine ⟨fun hutf8 => ?_, rfl, fun writer hwriter o hok => ?_⟩
  · obtain ⟨r, hrecorded, hevents⟩ := hrun
    have hvalid := hutf8 closed hclosed _ _ _ hdecode r (.of_recorded hrecorded) [0xFF]
      (.inl (hevents ▸ List.mem_singleton_self _))
    rw [hinvalid] at hvalid
    cases hvalid
  · obtain ⟨⟨hwritable, -⟩, -⟩ := (exists_encode_iff hwriter).mp hok
    have hvalid := (hwritable : Sayable [0xFF]).isValid
    rw [hinvalid] at hvalid
    cases hvalid

/-! ## Declared types -/

/-- The markers that have a payload. -/
def payloadMarkers : List UInt8 :=
  ['i', 'U', 'I', 'l', 'L', 'd', 'D', 'C', 'S', '[', '\x7b'].map Char.toUInt8

theorem mem_payloadMarkers {m : Marker} (h : m.isShareable = true) : m.octet ∈ payloadMarkers := by
  cases m with
  | integer form => cases form <;> decide
  | single | double | character | text | listStart | mapStart => decide
  | _ => cases h

/--
**A declared type has a payload, or there is nothing of it.** A container that declares a type
says how many values it has, and if it has any the type is one that has a payload. If it has
none, the type may be an octet that is no marker.
-/
theorem ubjson_declared_type_is_known_or_idle (h : codec ∈ Codec.ofFormat .ubjson)
    (hok : codec.decode input o = .ok digest) :
    ∃ r, Noted input o digest r ∧ ∀ b count, (b, count) ∈ r.declared →
      ∃ n, count = some n ∧ (b ∈ payloadMarkers ∨ (Marker.ofOctet? b = none ∧ n = 0)) := by
  obtain ⟨r, hnoted⟩ := exists_noted h hok
  refine ⟨r, hnoted, fun b count hdeclared => ?_⟩
  have hcan : CanDeclare (b, count) := hnoted.keeps.1.declares _ hdeclared
  cases count with
  | none => exact hcan.elim
  | some n =>
    refine ⟨n, rfl, hcan.imp_left ?_⟩
    rintro ⟨m, rfl, hm⟩
    exact mem_payloadMarkers hm

/-- One small integer without its marker. -/
theorem ubjson_declared_type_is_known_or_idle_small :
    ∃ r, Noted [0x5B, 0x24, 0x69, 0x23, 0x69, 1, 5] {} ((Tree.list [.int 5]).digest {}) r ∧
      (0x69, some 1) ∈ r.declared ∧ ∀ b count, (b, count) ∈ r.declared →
      ∃ n, count = some n ∧ (b ∈ payloadMarkers ∨ (Marker.ofOctet? b = none ∧ n = 0)) := by
  have hclosed : closed ∈ Codec.ofFormat .ubjson := List.mem_cons_self ..
  have hsmall : closed.decode [0x5B, 0x24, 0x69, 0x23, 0x69, 1, 5] {} =
      .ok ((Tree.list [.int 5]).digest {}) := by rfl
  have hrun : ∃ r, recorded 0 [0x5B, 0x24, 0x69, 0x23, 0x69, 1, 5] {} =
      .ok ((Tree.list [.int 5]).digest {}) r ∧ r.declared = [(0x69, some 1)] := ⟨_, rfl, rfl⟩
  obtain ⟨r, hnoted, hdeclared⟩ := ubjson_declared_type_is_known_or_idle hclosed hsmall
  obtain ⟨r', hrecorded, hone⟩ := hrun
  obtain rfl := hnoted.unique hrecorded
  exact ⟨r, hnoted, hone ▸ List.mem_singleton_self _, hdeclared⟩

/-- A list of nothing is read, whatever is declared for it. -/
theorem ubjson_idle_type_need_not_be_known :
    ¬ ∀ codec ∈ Codec.ofFormat .ubjson, ∀ input o digest, codec.decode input o = .ok digest →
      ∀ r, Noted input o digest r → ∀ b count, (b, count) ∈ r.declared →
        b ∈ payloadMarkers ∧ count.isSome = true := by
  intro hknown
  have hclosed : closed ∈ Codec.ofFormat .ubjson := List.mem_cons_self ..
  have hrun : ∃ r, recorded 0 [0x5B, 0x24, 0x78, 0x23, 0x69, 0] {} =
      .ok ((Tree.list []).digest {}) r ∧ r.declared = [(0x78, some 0)] := ⟨_, rfl, rfl⟩
  have hdecode : closed.decode [0x5B, 0x24, 0x78, 0x23, 0x69, 0] {} =
      .ok ((Tree.list []).digest {}) := by rfl
  obtain ⟨r, hrecorded, hdeclared⟩ := hrun
  have hmember := hknown closed hclosed _ _ _ hdecode r (.of_recorded hrecorded) 0x78 (some 0)
    (hdeclared ▸ List.mem_singleton_self _)
  exact absurd hmember.1 (by decide)

end TreeDigest.Ubjson
