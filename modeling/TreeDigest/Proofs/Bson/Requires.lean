import TreeDigest.Proofs.Bson.Form
import TreeDigest.Proofs.Output.Requires

/-!
# What a BSON writer requires

A document that was written is plain, it is a root, and its form is not too long.
The length is the one thing that cannot be seen from the parts: a document is
written for itself before its length is looked at. So what an element puts is shown
first, whatever it was put behind, and the length of a document is then the length
of its form.
-/

namespace TreeDigest.Bson

variable {codec : String} {key : Bytes} {out out' : Output} {s s' : Encoding}

/-! ## Writers that succeeded -/

theorem putHead_ok {type : ElementType} (h : putHead codec type key out = .ok () out') :
    (0 : UInt8) ∉ key ∧ out' = out.append (headForm type key) := by
  by_cases hkey : (0 : UInt8) ∈ key
  · have hnul : key.contains 0 = true := by simpa using hkey
    rw [putHead, if_pos hnul] at h
    cases h
  · exact ⟨hkey, (putHead_writes hkey).of_ok h⟩

/-- What is put behind a head is put behind a key without a zero octet. -/
theorem after_putHead_ok {type : ElementType} {bytes : Bytes}
    (h : (do putHead codec type key; Writer.put bytes : Writer Unit) out = .ok () out') :
    (0 : UInt8) ∉ key ∧ out' = out.append (headForm type key ++ bytes) := by
  obtain ⟨_, out₁, hhead, hput⟩ := Steps.bind_eq_ok_iff.mp h
  obtain ⟨hkey, rfl⟩ := putHead_ok hhead
  refine ⟨hkey, ?_⟩
  rw [← Output.append_append]
  exact Writer.Writes.put.of_ok hput

theorem putInt_ok {i : Int64} (h : putInt codec key i out = .ok () out') :
    (0 : UInt8) ∉ key ∧ out' = out.append (headForm (intType i) key ++ intForm i) := by
  unfold putInt at h
  by_cases hi : FitsShort i
  · rw [intType, intForm, if_pos hi, if_pos hi]
    exact after_putHead_ok ((congrFun (if_pos hi) out).symm.trans h)
  · rw [intType, intForm, if_neg hi, if_neg hi]
    exact after_putHead_ok ((congrFun (if_neg hi) out).symm.trans h)

theorem putUInt_ok {u : UInt64} (h : putUInt codec key u out = .ok () out') :
    u.toNat < 0x8000000000000000 ∧ (0 : UInt8) ∉ key ∧
      out' = out.append (headForm (intType u.toInt64) key ++ intForm u.toInt64) := by
  unfold putUInt at h
  split at h
  · rename_i hu
    exact ⟨hu, putInt_ok h⟩
  · cases h

theorem putText_ok {octets : Bytes} (h : putText codec key octets out = .ok () out') :
    (0 : UInt8) ∉ key ∧ out' = out.append (headForm .text key ++ textForm octets) := by
  by_cases hlen : 0x80000000 ≤ octets.length + 1
  · rw [putText, if_pos hlen] at h
    cases h
  · have hput := h
    rw [putText, if_neg hlen] at hput
    obtain ⟨_, out₁, hhead, -⟩ := Steps.bind_eq_ok_iff.mp hput
    have hkey := (putHead_ok hhead).1
    exact ⟨hkey, (putText_writes hkey (Nat.not_le.mp hlen)).of_ok h⟩

/-- A document that was written is one around what its content put. -/
theorem document_ok {content : Encoder Unit} (h : document codec content s = .ok () s') :
    ∃ inner, content { s with output := Output.empty } = .ok () inner ∧
      (documentForm inner.output.bytes).length < 0x80000000 ∧
      s' = ⟨s.output.append (documentForm inner.output.bytes), inner.folder⟩ := by
  unfold document at h
  split at h
  · rename_i inner hinner
    obtain ⟨out, hclose, rfl⟩ := Encoder.write_eq_ok_iff.mp h
    by_cases hlen : 0x80000000 ≤ inner.output.bytes.length + 5
    · rw [if_pos hlen] at hclose
      cases hclose
    · have hlen' := Nat.not_le.mp hlen
      have hform : (documentForm inner.output.bytes).length < 0x80000000 := by
        rwa [length_documentForm]
      exact ⟨inner, hinner, hform, by rw [(close_writes hlen').of_ok hclose]⟩
  · cases h

/-! ## What is put -/

theorem document_puts {content : Encoder Unit} {octets : Bytes} (h : content.Puts octets) :
    (document codec content).Puts (documentForm octets) where
  of_ok hok := by
    obtain ⟨inner, hinner, -, rfl⟩ := document_ok hok
    rw [h.of_ok hinner, Output.bytes_append]
    rfl

theorem writeItems_puts {items : List Tree}
    (h : ∀ t ∈ items, ∀ key, (writeElement codec key t).Puts (elementForm key t)) (index : Nat) :
    (writeItems codec index items).Puts (formItems index items) := by
  induction items generalizing index with
  | nil => exact .pure
  | cons item items ih =>
    rw [List.forall_mem_cons] at h
    exact .bind (h.1 _) fun _ => ih h.2 (index + 1)

theorem writePairs_puts {pairs : List (Bytes × Tree)}
    (h : ∀ kv ∈ pairs, (writeElement codec kv.1 kv.2).Puts (elementForm kv.1 kv.2)) :
    (writePairs codec pairs).Puts (formPairs pairs) := by
  induction pairs with
  | nil => exact .pure
  | cons pair pairs ih =>
    rw [List.forall_mem_cons] at h
    exact .bind_nil .fold fun _ => .bind h.1 fun _ => ih h.2

/-- Whatever was written of a container is its form. -/
theorem list_puts {items : List Tree} (h : (writeItems codec 0 items).Puts (formItems 0 items)) :
    Encoder.Puts (do
      let count ← Encoder.count items.length
      Encoder.fold (.beginList (some count))
      document codec (writeItems codec 0 items)
      Encoder.fold .endList) (documentForm (formItems 0 items)) :=
  .bind_nil .count fun _ => .bind_nil .fold fun _ => .bind_last (document_puts h) fun _ => .fold

theorem map_puts {pairs : List (Bytes × Tree)} (h : (writePairs codec pairs).Puts (formPairs pairs)) :
    Encoder.Puts (do
      let count ← Encoder.count pairs.length
      Encoder.fold (.beginMap (some count))
      document codec (writePairs codec pairs)
      Encoder.fold .endMap) (documentForm (formPairs pairs)) :=
  .bind_nil .count fun _ => .bind_nil .fold fun _ => .bind_last (document_puts h) fun _ => .fold

/-- **An element that was written was written in its form.** -/
theorem writeElement_puts (key : Bytes) (t : Tree) :
    (writeElement codec key t).Puts (elementForm key t) := by
  induction t using Tree.induct generalizing key with
  | scalar t hscalar =>
    cases t with
    | list items => exact Bool.noConfusion hscalar
    | map pairs => exact Bool.noConfusion hscalar
    | null =>
      refine .bind_nil .fold fun _ => .write fun hok => ?_
      rw [elementForm, payloadForm, List.append_nil]
      exact (putHead_ok hok).2
    | bool b => exact .bind_nil .fold fun _ => .write fun hok => (after_putHead_ok hok).2
    | int i => exact .bind_nil .fold fun _ => .write fun hok => (putInt_ok hok).2
    | uint u => exact .bind_last (.write fun hok => (putUInt_ok hok).2.2) fun _ => .fold
    | double bits => exact .bind_nil .fold fun _ => .write fun hok => (after_putHead_ok hok).2
    | text octets => exact .bind_nil .fold fun _ => .write fun hok => (putText_ok hok).2
  | list items ih =>
    exact .bind (.write fun hok => (putHead_ok hok).2) fun _ =>
      list_puts (writeItems_puts (fun t ht key => ih t ht key) 0)
  | map pairs ih =>
    exact .bind (.write fun hok => (putHead_ok hok).2) fun _ =>
      map_puts (writePairs_puts fun kv hkv => ih kv hkv kv.1)

/-! ## What is required -/

/-- A list was written if its items were and its form is not too long. -/
theorem list_requires {items : List Tree} (h : ∀ i, ∀ t ∈ items,
    Requires (writeElement codec (Bytes.decimal i) t) t ((0 : UInt8) ∉ Bytes.decimal i ∧ Plain t)) :
    Requires (do
      let count ← Encoder.count items.length
      Encoder.fold (.beginList (some count))
      document codec (writeItems codec 0 items)
      Encoder.fold .endList) (.list items)
      (Plain (.list items) ∧ (documentForm (formItems 0 items)).length < 0x80000000) := by
  refine .list fun {count s s'} hok => ?_
  obtain ⟨_, s₁, hdocument, hend⟩ := Steps.bind_eq_ok_iff.mp hok
  obtain ⟨inner, hitems, hshort, rfl⟩ := document_ok hdocument
  obtain ⟨f, hf, rfl⟩ := Encoder.fold_eq_ok_iff.mp hend
  have hputs := (writeItems_puts (fun t _ key => writeElement_puts key t) 0).of_ok hitems
  rw [hputs, Output.bytes_append] at hshort
  obtain ⟨hall, htrees⟩ := Requires.items (writeItems codec)
    (fun i => writeElement codec (Bytes.decimal i)) Plain (fun _ => rfl) (fun _ _ _ => rfl)
    (fun i t ht => (h i t ht).mono And.right) 0 hitems
  exact ⟨⟨plain_list.mpr hall, hshort⟩, _, htrees, hf⟩

theorem map_requires {pairs : List (Bytes × Tree)} (h : ∀ kv ∈ pairs,
    Requires (writeElement codec kv.1 kv.2) kv.2 ((0 : UInt8) ∉ kv.1 ∧ Plain kv.2)) :
    Requires (do
      let count ← Encoder.count pairs.length
      Encoder.fold (.beginMap (some count))
      document codec (writePairs codec pairs)
      Encoder.fold .endMap) (.map pairs)
      (Plain (.map pairs) ∧ (documentForm (formPairs pairs)).length < 0x80000000) := by
  refine .map fun {count s s'} hok => ?_
  obtain ⟨_, s₁, hdocument, hend⟩ := Steps.bind_eq_ok_iff.mp hok
  obtain ⟨inner, hpairs, hshort, rfl⟩ := document_ok hdocument
  obtain ⟨f, hf, rfl⟩ := Encoder.fold_eq_ok_iff.mp hend
  have hputs := (writePairs_puts fun kv _ => writeElement_puts kv.1 kv.2).of_ok hpairs
  rw [hputs, Output.bytes_append] at hshort
  have hkey : ∀ {k : Bytes} {s s' : Encoding}, Encoder.fold (.key k) s = .ok () s' →
      True ∧ Folding.event (.key k) s.folder = .ok () s'.folder := by
    intro k s s' hok
    obtain ⟨f, hf, rfl⟩ := Encoder.fold_eq_ok_iff.mp hok
    exact ⟨trivial, hf⟩
  obtain ⟨hall, hmembers⟩ := Requires.pairs (fun _ => writePairs codec)
    (fun _ k => Encoder.fold (.key k)) (writeElement codec) (fun _ => True)
    (fun k t => (0 : UInt8) ∉ k ∧ Plain t) (fun _ => rfl) (fun _ _ _ _ => rfl) hkey h 0 hpairs
  refine ⟨⟨plain_map.mpr ⟨fun kv hkv => (hall kv hkv).2.1, fun kv hkv => (hall kv hkv).2.2⟩,
    hshort⟩, _, hmembers, hf⟩

/-- **An element that was written has a key without a zero octet and a plain value.** -/
theorem writeElement_requires (key : Bytes) (t : Tree) :
    Requires (writeElement codec key t) t ((0 : UInt8) ∉ key ∧ Plain t) := by
  induction t using Tree.induct generalizing key with
  | scalar t hscalar =>
    cases t with
    | list items => exact Bool.noConfusion hscalar
    | map pairs => exact Bool.noConfusion hscalar
    | null => exact .scalar rfl (Encoder.Keeps.write fun hok => ⟨(putHead_ok hok).1, trivial⟩)
    | bool b => exact .scalar rfl (Encoder.Keeps.write fun hok => ⟨(after_putHead_ok hok).1, trivial⟩)
    | int i => exact .scalar rfl (Encoder.Keeps.write fun hok => ⟨(putInt_ok hok).1, trivial⟩)
    | uint u =>
      exact .scalarAfter rfl (Encoder.Keeps.write fun hok =>
        ⟨(putUInt_ok hok).2.1, (putUInt_ok hok).1⟩)
    | double bits =>
      exact .scalar rfl (Encoder.Keeps.write fun hok => ⟨(after_putHead_ok hok).1, trivial⟩)
    | text octets => exact .scalar rfl (Encoder.Keeps.write fun hok => ⟨(putText_ok hok).1, trivial⟩)
  | list items ih =>
    have hlist := list_requires fun i t ht => ih t ht (Bytes.decimal i)
    exact .after (Encoder.Keeps.write fun hok => (putHead_ok hok).1) (hlist.mono And.left)
  | map pairs ih =>
    have hmap := map_requires fun kv hkv => ih kv hkv kv.1
    exact .after (Encoder.Keeps.write fun hok => (putHead_ok hok).1) (hmap.mono And.left)

/-- **A root that was written is plain, and its form is not too long.** -/
theorem write_requires (t : Tree) :
    Requires (write codec t) t (Plain t ∧ IsRoot t ∧ (form t).length < 0x80000000) := by
  cases t with
  | list items =>
    refine (list_requires fun i t _ => writeElement_requires _ t).mono fun h => ?_
    exact ⟨h.1, trivial, h.2⟩
  | map pairs =>
    rw [write]
    split
    · exact ⟨fun hok => by cases hok⟩
    · rename_i hroot
      refine (map_requires fun kv _ => writeElement_requires kv.1 kv.2).mono fun h => ?_
      exact ⟨h.1, hroot, h.2⟩
  | _ => exact ⟨fun hok => by cases hok⟩

end TreeDigest.Bson
