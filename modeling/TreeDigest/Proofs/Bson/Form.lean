import TreeDigest.Bson.Codec
import TreeDigest.Proofs.Bytes
import TreeDigest.Proofs.Decimal.Digits
import TreeDigest.Proofs.Output.Encodes

/-!
# The BSON form of a tree

What a writer yields for an element is a function of its key and its value:
`elementForm`. The form of a container contains the forms of all its entries, so
one bound on the form of a root bounds every length that is written.

Besides that bound a form needs two things of a tree: no zero octet in a key and
no integer beyond the signed range. They are `Plain`.
-/

namespace TreeDigest.Bson

open Encoder (Yields)

/-! ## Forms -/

/-- The head of an element. -/
def headForm (type : ElementType) (key : Bytes) : Bytes := type.octet :: (key ++ [0])

/-- Whether an integer is written in 32 bits. -/
def FitsShort (i : Int64) : Prop := -0x80000000 ≤ i.toInt ∧ i.toInt < 0x80000000

instance (i : Int64) : Decidable (FitsShort i) := inferInstanceAs (Decidable (_ ∧ _))

def intType (i : Int64) : ElementType := if FitsShort i then .int32 else .int64

def intForm (i : Int64) : Bytes :=
  Bytes.little (if FitsShort i then 4 else 8) i.toUInt64.toNat

/-- The type of the element of a tree. -/
def typeOf : Tree → ElementType
  | .null => .null
  | .bool _ => .bool
  | .int i => intType i
  | .uint u => intType u.toInt64
  | .double _ => .double
  | .text _ => .text
  | .list _ => .array
  | .map _ => .document

/-- The form of a string. -/
def textForm (octets : Bytes) : Bytes :=
  Bytes.little 4 (octets.length + 1) ++ (octets ++ [0])

/-- A document around its elements. -/
def documentForm (content : Bytes) : Bytes :=
  Bytes.little 4 (content.length + 5) ++ (content ++ [0])

mutual

/-- The form of a value, after the head of its element. -/
def payloadForm : Tree → Bytes
  | .null => []
  | .bool b => [if b then 1 else 0]
  | .int i => intForm i
  | .uint u => intForm u.toInt64
  | .double bits => Bytes.little 8 bits.toNat
  | .text octets => textForm octets
  | .list items => documentForm (formItems 0 items)
  | .map pairs => documentForm (formPairs pairs)

def formItems (index : Nat) : List Tree → Bytes
  | [] => []
  | item :: items =>
    headForm (typeOf item) (Bytes.decimal index) ++ payloadForm item ++ formItems (index + 1) items

def formPairs : List (Bytes × Tree) → Bytes
  | [] => []
  | (k, value) :: pairs => headForm (typeOf value) k ++ payloadForm value ++ formPairs pairs

end

/-- The form of an element. -/
def elementForm (key : Bytes) (t : Tree) : Bytes := headForm (typeOf t) key ++ payloadForm t

/-- The items of a list as elements. -/
def entriesOf (items : List Tree) : List (Bytes × Tree) :=
  items.zipIdx.map fun p => (Bytes.decimal p.2, p.1)

/-- The elements of a document. -/
def entriesForm (entries : List (Bytes × Tree)) : Bytes :=
  entries.flatMap fun kv => elementForm kv.1 kv.2

theorem formPairs_eq (pairs : List (Bytes × Tree)) : formPairs pairs = entriesForm pairs := by
  induction pairs with
  | nil => rfl
  | cons pair pairs ih =>
    rw [formPairs, ih, entriesForm, entriesForm, List.flatMap_cons]
    rfl

theorem formItems_eq (items : List Tree) : formItems 0 items = entriesForm (entriesOf items) := by
  have hfrom : ∀ index, formItems index items =
      (items.zipIdx index).flatMap fun p => elementForm (Bytes.decimal p.2) p.1 := by
    induction items with
    | nil => exact fun _ => rfl
    | cons item items ih =>
      intro index
      rw [formItems, ih, List.zipIdx_cons, List.flatMap_cons]
      rfl
  rw [hfrom, entriesForm, entriesOf, List.flatMap_map]

/-! ## What has a form -/

/-- At the root of a tree, nothing stands against a form. -/
def PlainAt : Tree → Prop
  | .uint u => u.toNat < 0x8000000000000000
  | .map pairs => ∀ kv ∈ pairs, (0 : UInt8) ∉ kv.1
  | _ => True

/-- No key has a zero octet, and no integer is beyond the signed range. -/
def Plain (t : Tree) : Prop := t.All PlainAt

theorem plain_list {items : List Tree} : Plain (.list items) ↔ ∀ t ∈ items, Plain t :=
  Tree.all_list.trans (and_iff_right trivial)

theorem plain_map {pairs : List (Bytes × Tree)} :
    Plain (.map pairs) ↔ (∀ kv ∈ pairs, (0 : UInt8) ∉ kv.1) ∧ ∀ kv ∈ pairs, Plain kv.2 :=
  Tree.all_map

/-! ## Lengths -/

theorem length_headForm (type : ElementType) (key : Bytes) :
    (headForm type key).length = key.length + 2 := by
  rw [headForm, List.length_cons, List.length_append]
  rfl

theorem length_documentForm (content : Bytes) :
    (documentForm content).length = content.length + 5 := by
  rw [documentForm, List.length_append, List.length_append, Bytes.length_little]
  show 4 + (content.length + 1) = _
  omega

theorem length_elementForm (key : Bytes) (t : Tree) :
    (elementForm key t).length = key.length + 2 + (payloadForm t).length := by
  rw [elementForm, List.length_append, length_headForm]

theorem length_entries_le (entries : List (Bytes × Tree)) :
    entries.length ≤ (entriesForm entries).length := by
  have hle : entries.length * 1 ≤ (entriesForm entries).length := by
    refine Bytes.length_entries fun kv _ => ?_
    rw [length_elementForm]
    omega
  rwa [Nat.mul_one] at hle

theorem length_entry_le {entries : List (Bytes × Tree)} {kv : Bytes × Tree} (h : kv ∈ entries) :
    (elementForm kv.1 kv.2).length ≤ (entriesForm entries).length :=
  Bytes.length_entry_le (fun kv => elementForm kv.1 kv.2) h

theorem length_entriesOf (items : List Tree) : (entriesOf items).length = items.length := by
  rw [entriesOf, List.length_map, List.length_zipIdx]

theorem values_entriesOf (items : List Tree) : (entriesOf items).map (·.2) = items := by
  rw [entriesOf, List.map_map]
  exact List.zipIdx_map_fst 0 items

theorem mem_of_mem_entriesOf {items : List Tree} {kv : Bytes × Tree} (h : kv ∈ entriesOf items) :
    kv.2 ∈ items :=
  values_entriesOf items ▸ List.mem_map_of_mem h

/-- If elements are no longer than the nodes in them make them, so are they together. -/
theorem length_entriesForm_le {entries : List (Bytes × Tree)} {k : Nat}
    (h : ∀ kv ∈ entries, (elementForm kv.1 kv.2).length ≤ kv.2.nodes * k) :
    (entriesForm entries).length ≤ (entries.map fun kv => kv.2.nodes).sum * k := by
  induction entries with
  | nil => exact Nat.zero_le _
  | cons kv entries ih =>
    rw [List.forall_mem_cons] at h
    rw [List.map_cons, List.sum_cons, Nat.add_mul, entriesForm, List.flatMap_cons, List.length_append]
    exact Nat.add_le_add h.1 (ih h.2)

theorem length_payload_scalar {n : Nat} {t : Tree} (hscalar : t.isContainer = false)
    (ht : t.All (Tree.LengthsBelow n)) : (payloadForm t).length ≤ n + 8 := by
  cases t with
  | list items => exact Bool.noConfusion hscalar
  | map pairs => exact Bool.noConfusion hscalar
  | null => exact Nat.zero_le _
  | bool b => rw [payloadForm, List.length_singleton]; omega
  | int i => rw [payloadForm, intForm, Bytes.length_little]; split <;> omega
  | uint u => rw [payloadForm, intForm, Bytes.length_little]; split <;> omega
  | double bits => rw [payloadForm, Bytes.length_little]; omega
  | text octets =>
    have hlen : octets.length < n := ht
    rw [payloadForm, textForm, List.length_append, List.length_append, Bytes.length_little,
      List.length_singleton]
    omega

/-- **The length of an element is bounded by its nodes, if the lengths in it are bounded.** -/
theorem length_elementForm_le {n : Nat} {t : Tree} (ht : t.All (Tree.LengthsBelow n)) {key : Bytes}
    (hkey : key.length ≤ n) : (elementForm key t).length ≤ t.nodes * (2 * n + 10) := by
  induction t using Tree.induct generalizing key with
  | scalar t hscalar =>
    have hpayload := length_payload_scalar hscalar ht
    rw [length_elementForm, Tree.nodes_scalar hscalar]
    omega
  | list items ih =>
    rw [Tree.all_list] at ht
    have hlen : items.length < n := ht.1
    have hitem : ∀ kv ∈ entriesOf items,
        (elementForm kv.1 kv.2).length ≤ kv.2.nodes * (2 * n + 10) := by
      intro kv hkv
      obtain ⟨p, hp, rfl⟩ := List.mem_map.mp hkv
      have hmem := List.fst_mem_of_mem_zipIdx hp
      -- an index is below the number of items, and has no more digits than that
      have hindex := List.snd_lt_of_mem_zipIdx hp
      have hdigits : (Bytes.decimal p.2).length ≤ n :=
        Nat.le_trans (Bytes.length_decimal_le p.2) (by omega)
      exact ih p.1 hmem (ht.2 p.1 hmem) hdigits
    have hnodes : ((entriesOf items).map fun kv => kv.2.nodes) = items.map Tree.nodes := by
      have hvalues := congrArg (List.map Tree.nodes) (values_entriesOf items)
      rwa [List.map_map] at hvalues
    have hitems := length_entriesForm_le hitem
    rw [hnodes] at hitems
    rw [length_elementForm, payloadForm, length_documentForm, formItems_eq, Tree.nodes_list,
      Nat.add_mul, Nat.one_mul]
    omega
  | map pairs ih =>
    rw [Tree.all_map] at ht
    have hpairs := length_entriesForm_le fun kv hkv =>
      ih kv hkv (ht.2 kv hkv) (Nat.le_of_lt (ht.1.2 kv hkv))
    rw [length_elementForm, payloadForm, length_documentForm, formPairs_eq, Tree.nodes_map,
      Nat.add_mul, Nat.one_mul]
    omega

/-! ## Writing -/

variable {codec : String} {key : Bytes} {f f' : Folder}

theorem putHead_writes {type : ElementType} (h : (0 : UInt8) ∉ key) :
    (putHead codec type key).Writes (headForm type key) () := by
  have hnul : ¬ key.contains 0 = true := by simpa using h
  rw [putHead, if_neg hnul]
  exact .put

theorem putInt_writes {i : Int64} (h : (0 : UInt8) ∉ key) :
    (putInt codec key i).Writes (headForm (intType i) key ++ intForm i) () := by
  by_cases hi : FitsShort i
  · have hput : putInt codec key i = (do
        putHead codec .int32 key
        Writer.put (Bytes.little 4 i.toUInt64.toNat)) := if_pos hi
    rw [hput, intType, if_pos hi, intForm, if_pos hi]
    exact .bind (putHead_writes h) .put
  · -- too great for four octets
    have hput : putInt codec key i = (do
        putHead codec .int64 key
        Writer.put (Bytes.little 8 i.toUInt64.toNat)) := if_neg hi
    rw [hput, intType, if_neg hi, intForm, if_neg hi]
    exact .bind (putHead_writes h) .put

theorem putText_writes {octets : Bytes} (h : (0 : UInt8) ∉ key)
    (hlen : octets.length + 1 < 0x80000000) :
    (putText codec key octets).Writes (headForm .text key ++ textForm octets) () := by
  rw [putText, if_neg (Nat.not_le.mpr hlen)]
  exact .bind (putHead_writes h) (.bind .put (.bind .put .put))

/-- The end of a document puts all of it. -/
theorem close_writes {octets : Bytes} (hlen : octets.length + 5 < 0x80000000) :
    Writer.Writes (do
      if 0x80000000 ≤ octets.length + 5 then
        Writer.refuse codec (.longDocument (octets.length + 5))
      Writer.put (Bytes.little 4 (octets.length + 5))
      Writer.put octets
      Writer.put [0]) (documentForm octets) () := by
  rw [if_neg (Nat.not_le.mpr hlen)]
  exact .bind .put (.bind .put .put)

/-- What a step yields is put in a document behind its length. -/
theorem document_yields {content : Encoder Unit} {octets : Bytes}
    (h : content.Yields f octets () f') (hlen : octets.length + 5 < 0x80000000) :
    (document codec content).Yields f (documentForm octets) () f' where
  apply out := by
    have hbytes : (Output.empty.append octets).bytes = octets := Output.bytes_append ..
    rw [document, h.apply]
    dsimp only
    rw [hbytes]
    exact (Encoder.Yields.write (close_writes hlen)).apply out

/-! ### Containers -/

/-- What is needed of an entry for it to be written. -/
def Encodable (codec : String) (kv : Bytes × Tree) : Prop :=
  Encodes (writeElement codec kv.1 kv.2) kv.2 (elementForm kv.1 kv.2)

/-- A list is written as a document of its items. -/
theorem list_encodes {items : List Tree}
    (hlen : (documentForm (formItems 0 items)).length < 0x80000000)
    (hitems : ∀ kv ∈ entriesOf items, Encodable codec kv) :
    Encodes (do
      let count ← Encoder.count items.length
      Encoder.fold (.beginList (some count))
      document codec (writeItems codec 0 items)
      Encoder.fold .endList) (.list items) (documentForm (formItems 0 items)) where
  apply {f} h := by
    obtain ⟨m, hm, hdepth⟩ := Tree.exists_depth_list items
    rw [hm] at h
    rw [length_documentForm] at hlen
    -- every item takes an octet, so a document that is short enough has few enough of them
    have hcount : items.length < 0x100000000 := by
      have hle := length_entries_le (entriesOf items)
      rw [← formItems_eq, length_entriesOf] at hle
      omega
    have hloop := Encodes.items (fun i => writeItems codec i)
      (fun i => writeElement codec (Bytes.decimal i)) (fun i => elementForm (Bytes.decimal i))
      (fun _ => rfl) (fun _ _ _ => rfl) h hcount (Folder.declared_eq hcount) hdepth []
      (fun p hp => hitems (Bytes.decimal p.2, p.1) (List.mem_map_of_mem hp)) (Nat.zero_add _)
    have hform : (items.zipIdx.flatMap fun p => elementForm (Bytes.decimal p.2) p.1) =
        formItems 0 items := by
      rw [formItems_eq, entriesForm, entriesOf, List.flatMap_map]
    rw [List.length_nil, hform, List.nil_append] at hloop
    refine .bind_nil (.count hcount) (.bind_nil (.fold (Folder.beginList_tree h)) ?_)
    refine (document_yields hloop hlen).bind_last (.fold ?_)
    exact Folder.endList_tree h.room hcount (Folder.declared_eq hcount)

/-- A map is written as a document of its pairs. -/
theorem map_encodes {pairs : List (Bytes × Tree)}
    (hlen : (documentForm (formPairs pairs)).length < 0x80000000)
    (hpairs : ∀ kv ∈ pairs, Encodable codec kv) :
    Encodes (do
      let count ← Encoder.count pairs.length
      Encoder.fold (.beginMap (some count))
      document codec (writePairs codec pairs)
      Encoder.fold .endMap) (.map pairs) (documentForm (formPairs pairs)) where
  apply {f} h := by
    obtain ⟨m, hm, hdepth⟩ := Tree.exists_depth_map pairs
    rw [hm] at h
    rw [length_documentForm] at hlen
    have hcount : pairs.length < 0x100000000 := by
      have hle := length_entries_le pairs
      rw [← formPairs_eq] at hle
      omega
    have hloop := Encodes.pairs (fun _ => writePairs codec) (fun _ k => Encoder.fold (.key k))
      (writeElement codec) (fun _ _ => []) elementForm (fun _ => rfl) (fun _ _ _ _ => rfl) h hcount
      (Folder.declared_eq hcount) hdepth (fun _ _ _ _ => .fold Folder.key_tree) hpairs []
      (Nat.zero_add _)
    have hform : (pairs.zipIdx.flatMap fun p => [] ++ elementForm p.1.1 p.1.2) = formPairs pairs := by
      rw [formPairs_eq, entriesForm]
      exact flatMap_zipIdx (fun kv : Bytes × Tree => elementForm kv.1 kv.2) pairs 0
    rw [List.length_nil, hform, List.nil_append] at hloop
    refine .bind_nil (.count hcount) (.bind_nil (.fold (Folder.beginMap_tree h)) ?_)
    refine (document_yields hloop hlen).bind_last (.fold ?_)
    exact Folder.endMap_tree h.room hcount (Folder.declared_eq hcount)

/-- **An element of a plain tree is written in its form, if that is not too long.** -/
theorem writeElement_encodes {t : Tree} (ht : Plain t) (hkey : (0 : UInt8) ∉ key)
    (hlen : (elementForm key t).length < 0x80000000) : Encodable codec (key, t) := by
  show Encodes (writeElement codec key t) t (elementForm key t)
  induction t using Tree.induct generalizing key with
  | scalar t hscalar =>
    cases t with
    | list items => exact Bool.noConfusion hscalar
    | map pairs => exact Bool.noConfusion hscalar
    | null =>
      have hnull : (putNull codec key).Writes (elementForm key .null) () := by
        rw [elementForm, payloadForm, List.append_nil]
        exact putHead_writes hkey
      exact .scalar Folder.scalar_ok fun _ => .write hnull
    | bool b => exact .scalar Folder.scalar_ok fun _ => .write (.bind (putHead_writes hkey) .put)
    | int i => exact .scalar Folder.scalar_ok fun _ => .write (putInt_writes hkey)
    | uint u =>
      -- written as the signed integer it is, which is what comes back
      have hput : putUInt codec key u = putInt codec key u.toInt64 := if_pos ht
      rw [writeElement, hput]
      exact .scalarAfter Folder.scalar_ok fun _ => .write (putInt_writes hkey)
    | double bits => exact .scalar Folder.scalar_ok fun _ => .write (.bind (putHead_writes hkey) .put)
    | text octets =>
      have hoctets : octets.length + 1 < 0x80000000 := by
        rw [length_elementForm, payloadForm, textForm, List.length_append, List.length_append,
          List.length_singleton] at hlen
        omega
      exact .scalar Folder.scalar_ok fun _ => .write (putText_writes hkey hoctets)
  | list items ih =>
    rw [length_elementForm, payloadForm] at hlen
    have hinner : (documentForm (formItems 0 items)).length < 0x80000000 := by omega
    refine .after (putHead_writes hkey) (list_encodes hinner fun kv hkv => ?_)
    have hle := length_entry_le hkv
    rw [← formItems_eq] at hle
    rw [length_documentForm] at hinner
    obtain ⟨p, hp, rfl⟩ := List.mem_map.mp hkv
    have hmem := List.fst_mem_of_mem_zipIdx hp
    dsimp only at hle
    show Encodes (writeElement codec (Bytes.decimal p.2) p.1) p.1 (elementForm (Bytes.decimal p.2) p.1)
    exact ih p.1 hmem (plain_list.mp ht p.1 hmem) (Bytes.not_nul_mem_decimal _) (by omega)
  | map pairs ih =>
    rw [length_elementForm, payloadForm] at hlen
    have hinner : (documentForm (formPairs pairs)).length < 0x80000000 := by omega
    refine .after (putHead_writes hkey) (map_encodes hinner fun kv hkv => ?_)
    have hle := length_entry_le hkv
    rw [← formPairs_eq] at hle
    rw [length_documentForm] at hinner
    obtain ⟨hkeys, hvalues⟩ := plain_map.mp ht
    exact ih kv hkv (hvalues kv hkv) (hkeys kv hkv) (by omega)

/-! ## Roots -/

/-- The form of a root, which is a list or a map. -/
def form : Tree → Bytes
  | .list items => documentForm (formItems 0 items)
  | .map pairs => documentForm (formPairs pairs)
  | _ => []

/-- The form of a root is no longer than that of an element. -/
theorem length_form_le {n : Nat} {t : Tree} (ht : t.All (Tree.LengthsBelow n)) :
    (form t).length ≤ t.nodes * (2 * n + 10) := by
  have hle : (elementForm [] t).length ≤ t.nodes * (2 * n + 10) :=
    length_elementForm_le ht (Nat.zero_le n)
  rw [length_elementForm] at hle
  cases t with
  | list items => rw [payloadForm] at hle; rw [form]; omega
  | map pairs => rw [payloadForm] at hle; rw [form]; omega
  | _ => exact Nat.zero_le _

/-- A root is a list, or a map that readers do not take for a list. -/
def IsRoot : Tree → Prop
  | .list _ => True
  | .map pairs => pairs.head?.map (·.1) ≠ some [0x30]
  | _ => False

/-- **A plain root is written in its form, if that is not too long.** -/
theorem write_encodes {t : Tree} (ht : Plain t) (hroot : IsRoot t)
    (hlen : (form t).length < 0x80000000) : Encodes (write codec t) t (form t) := by
  cases t with
  | list items =>
    refine list_encodes hlen fun kv hkv => ?_
    have hle := length_entry_le hkv
    rw [← formItems_eq] at hle
    rw [form, length_documentForm] at hlen
    obtain ⟨p, hp, rfl⟩ := List.mem_map.mp hkv
    have hmem := List.fst_mem_of_mem_zipIdx hp
    exact writeElement_encodes (plain_list.mp ht p.1 hmem) (Bytes.not_nul_mem_decimal _)
      (Nat.lt_of_le_of_lt hle (by omega))
  | map pairs =>
    have hwrite : write codec (.map pairs) = (do
        let count ← Encoder.count pairs.length
        Encoder.fold (.beginMap (some count))
        document codec (writePairs codec pairs)
        Encoder.fold .endMap) := if_neg hroot
    rw [hwrite]
    refine map_encodes hlen fun kv hkv => ?_
    have hle := length_entry_le hkv
    rw [← formPairs_eq] at hle
    rw [form, length_documentForm] at hlen
    obtain ⟨hkeys, hvalues⟩ := plain_map.mp ht
    exact writeElement_encodes (hvalues kv hkv) (hkeys kv hkv) (by omega)
  | _ => exact hroot.elim

end TreeDigest.Bson
