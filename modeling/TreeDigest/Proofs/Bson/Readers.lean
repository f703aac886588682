import TreeDigest.Proofs.Bson.Persists
import TreeDigest.Proofs.Fold.Mirror
import TreeDigest.Proofs.Input.Trees

/-!
# The two BSON readers

The reader that folds and the reader that builds a tree are one function of the
input. As for MessagePack, the proof is by induction on the levels that are left.

A document says how long it is and not how many elements it has. That they can be
counted at all follows from its length: every element begins before the end of its
document and takes at least one octet, and a length is less than 2^31. `Within` is
the invariant that carries this through the elements of a document. The limit
decides only whether a tree is built, and not which.
-/

namespace TreeDigest.Bson

open Folder

variable {limit levels start finish index : Nat} {isArray : Bool} {f : Folder} {c c' : Cursor}
  {document : Bool → Reader Tree}

/-! ## What a document can hold -/

/-- The elements read so far each took an octet and began before the end. -/
structure Within (start finish : Nat) (pairs : List (Bytes × Tree)) (c : Cursor) : Prop where
  taken : start + pairs.length ≤ c.offset
  begun : start + pairs.length ≤ finish

theorem Within.init (h : openDocument c = .ok finish c') : Within c'.offset finish [] c' where
  taken := Nat.le_refl _
  begun := (openDocument_bounds h).1

theorem Within.next {pairs : List (Bytes × Tree)} {result : Option (Bytes × Tree)}
    (hdocument : ∀ b, (document b).Persists) (h : Within start finish pairs c)
    (hr : readElement document isArray finish index c = .ok result c') :
    Within start finish (pairs ++ result.toList) c' := by
  have htaken := h.taken
  cases result with
  | none =>
    -- the zero octet at the end adds no element
    obtain ⟨-, hmoved⟩ := readElement_none hr
    rw [Option.toList_none, List.append_nil]
    exact ⟨by omega, h.begun⟩
  | some kv =>
    obtain ⟨hbefore, hmoved, -⟩ := readElement_some hdocument hr
    have hlength : (pairs ++ (some kv).toList).length = pairs.length + 1 := by
      rw [Option.toList_some, List.length_append, List.length_singleton]
    exact ⟨by omega, by omega⟩

/-- The elements of a document can be counted. -/
theorem length_lt {ρ : Type} {room : List ρ} {pairs : List (Bytes × Tree)} {c'' : Cursor}
    (hdocument : ∀ b, (document b).Persists) (hopen : openDocument c = .ok finish c')
    (hpairs : Loop.gather (readElement document isArray finish) room c' = .ok pairs c'') :
    pairs.length < 0x80000000 := by
  have hbegun := (Steps.gather_ok (I := Within c'.offset finish)
    (fun _ _ _ _ hwithin hr => hwithin.next hdocument hr) (.init hopen) hpairs).begun
  obtain ⟨-, hshort⟩ := openDocument_bounds hopen
  omega

/-! ## What the tree reader builds -/

theorem documentTree_depth {pairs : List (Bytes × Tree)}
    (h : ∀ kv ∈ pairs, kv.2.depth ≤ levels) : (documentTree isArray pairs).depth ≤ levels + 1 := by
  cases isArray with
  | true =>
    refine Tree.depth_list_le.mpr fun t ht => ?_
    obtain ⟨kv, hkv, rfl⟩ := List.mem_map.mp ht
    exact h kv hkv
  | false => exact Tree.depth_map_le.mpr h

theorem documentTree_countable {pairs : List (Bytes × Tree)} (hlen : pairs.length < 0x100000000)
    (h : ∀ kv ∈ pairs, kv.2.Countable) : (documentTree isArray pairs).Countable := by
  cases isArray with
  | true =>
    refine Tree.countable_list.mpr ⟨by rwa [List.length_map], fun t ht => ?_⟩
    obtain ⟨kv, hkv, rfl⟩ := List.mem_map.mp ht
    exact h kv hkv
  | false => exact Tree.countable_map.mpr ⟨hlen, h⟩

theorem readPayload_fits {payload : Payload} {t : Tree}
    (hdocument : ∀ {b c t c'}, document b c = .ok t c' → t.depth ≤ levels ∧ t.Countable)
    (h : readPayload document payload c = .ok t c') : t.depth ≤ levels ∧ t.Countable := by
  cases payload with
  | document => exact hdocument h
  | array => exact hdocument h
  | _ => cases h; exact ⟨Nat.zero_le _, Tree.countable_scalar rfl⟩

theorem readElement_fits {kv : Bytes × Tree}
    (hdocument : ∀ {b c t c'}, document b c = .ok t c' → t.depth ≤ levels ∧ t.Countable)
    (h : readElement document isArray finish index c = .ok (some kv) c') :
    kv.2.depth ≤ levels ∧ kv.2.Countable := by
  obtain ⟨header, c₁, -, h⟩ := Steps.bind_eq_ok_iff.mp h
  cases header with
  | none => cases h
  | some header =>
    obtain ⟨_, c₂, -, h⟩ := Steps.bind_eq_ok_iff.mp h
    obtain ⟨payload, c₃, -, h⟩ := Steps.bind_eq_ok_iff.mp h
    obtain ⟨t, c₄, hvalue, h⟩ := Steps.bind_eq_ok_iff.mp h
    cases h
    exact readPayload_fits hdocument hvalue

/-- A tree that was read is no deeper than its levels, and its counts fit 32 bits. -/
theorem read_fits {t : Tree} (h : read limit levels isArray c = .ok t c') :
    t.depth ≤ levels ∧ t.Countable := by
  induction levels generalizing isArray c c' t with
  | zero => cases h
  | succ levels ih =>
    rw [read] at h
    obtain ⟨finish, c₁, hopen, h⟩ := Steps.bind_eq_ok_iff.mp h
    obtain ⟨c₂, c₃, hget, h⟩ := Steps.bind_eq_ok_iff.mp h
    cases hget
    obtain ⟨pairs, c₄, hpairs, h⟩ := Steps.bind_eq_ok_iff.mp h
    cases h
    -- the induction bounds the depths, the length of the document the number of elements
    have hlength := length_lt (fun _ => read_persists) hopen hpairs
    have hall := Steps.gather_forall (readElement_fits ih) hpairs
    exact ⟨documentTree_depth fun kv hkv => (hall kv hkv).1,
      documentTree_countable (by omega) fun kv hkv => (hall kv hkv).2⟩

/-! ## Other limits -/

theorem depth_documentTree_pos (pairs : List (Bytes × Tree)) :
    ¬ (documentTree isArray pairs).depth ≤ 0 := by
  cases isArray with
  | true => exact Nat.not_le.mpr (Tree.depth_list_pos _)
  | false => exact Nat.not_le.mpr (Tree.depth_map_pos _)

theorem documentTree_depth_iff {pairs : List (Bytes × Tree)} :
    (documentTree isArray pairs).depth ≤ levels + 1 ↔ ∀ kv ∈ pairs, kv.2.depth ≤ levels := by
  refine ⟨fun h => ?_, documentTree_depth⟩
  cases isArray with
  | true => exact fun kv hkv => Tree.depth_list_le.mp h kv.2 (List.mem_map_of_mem hkv)
  | false => exact Tree.depth_map_le.mp h

/-- An element is read alike if the documents in it are, as far as these fit the levels. -/
theorem readElement_limited {document document' : Bool → Reader Tree}
    (h : ∀ b, Reader.LimitedTo limit levels (document b) (document' b)) :
    Steps.Limited (.depthExceeded limit) (fun result => ∀ kv ∈ result, kv.2.depth ≤ levels)
      (readElement document isArray finish index) (readElement document' isArray finish index) := by
  have hpayload : ∀ payload : Payload, Reader.LimitedTo limit levels
      (readPayload document payload) (readPayload document' payload) := by
    intro payload
    cases payload with
    | document => exact h false
    | array => exact h true
    | _ => exact .pure (Nat.zero_le _)
  refine .after fun header => ?_
  cases header with
  | none => exact .pure fun _ hkv => nomatch hkv
  | some header =>
    refine .after fun _ => .after fun payload => .map (hpayload payload) fun t => ?_
    exact ⟨fun ht => ht _ rfl, fun ht => by rintro _ ⟨⟩; exact ht⟩

/-- **With other levels the same tree is read, if it fits them.** -/
theorem read_limited (limit limit' levels levels' : Nat) (isArray : Bool) :
    Reader.LimitedTo limit levels (read limit levels isArray) (read limit' levels' isArray) := by
  induction levels generalizing levels' isArray with
  | zero =>
    refine .throw fun {c t c'} hok => ?_
    cases levels' with
    | zero => cases hok
    | succ levels' =>
      obtain ⟨_, _, -, hok⟩ := Steps.bind_eq_ok_iff.mp hok
      obtain ⟨_, _, -, hok⟩ := Steps.bind_eq_ok_iff.mp hok
      obtain ⟨pairs, _, -, hok⟩ := Steps.bind_eq_ok_iff.mp hok
      cases hok
      exact depth_documentTree_pos pairs
  | succ levels ih =>
    cases levels' with
    | zero => exact .of_throw _
    | succ levels' =>
      rw [read, read]
      have helement : ∀ finish index, Steps.Limited (.depthExceeded limit)
          (fun result => ∀ kv ∈ result, kv.2.depth ≤ levels)
          (readElement (read limit levels) isArray finish index)
          (readElement (read limit' levels') isArray finish index) := fun _ _ =>
        readElement_limited fun b => ih levels' b
      refine .after fun finish => .after fun c => ?_
      exact .map (.gather (helement finish)) fun pairs => documentTree_depth_iff

/-- **A limit decides only whether an input is read**, and what is read can be counted. -/
theorem readsTrees : ReadsTrees readTree :=
  .of_whole (fun input limit limit' => read_limited limit limit' limit limit' (rootIsArray input))
    read_fits

/-! ## The folding reader in step with it -/

/-- A document has been opened and elements folded. -/
def elementsOver (f : Folder) (isArray : Bool) (pairs : List (Bytes × Tree)) : Folder :=
  if isArray then f.listOver none (pairs.map (·.2)) else f.mapOver none pairs

/-- After those elements, the key of one more has been dealt with. -/
def headOver (f : Folder) (isArray : Bool) (pairs : List (Bytes × Tree)) (k : Bytes) : Folder :=
  if isArray then f.listOver none (pairs.map (·.2)) else f.keyOver none pairs k

variable {pairs : List (Bytes × Tree)}

theorem headOver_inStep {k : Bytes} (h : f.InStep limit (levels + 1))
    (hlen : pairs.length < 0x80000000) : (headOver f isArray pairs k).InStep limit levels := by
  have hroom : RoomAfter none pairs.length := .undeclared (by omega)
  cases isArray with
  | true =>
    refine h.listOver ?_
    rwa [List.length_map]
  | false => exact h.keyOver hroom

theorem headOver_foldedTree (k : Bytes) (t : Tree) :
    (headOver f isArray pairs k).foldedTree t = elementsOver f isArray (pairs ++ [(k, t)]) := by
  cases isArray with
  | true =>
    rw [headOver, if_pos rfl, listOver_foldedTree, elementsOver, if_pos rfl, List.map_append]
    rfl
  | false => exact keyOver_foldedTree t

theorem foldBegin_ok (h : f.Admits (levels + 1)) :
    Folding.event (if isArray then .beginList none else .beginMap none) f =
      .ok () (elementsOver f isArray []) := by
  cases isArray with
  | true => exact beginList_tree h
  | false => exact beginMap_tree h

theorem foldBegin_refuses (h : f.InStep limit 0) :
    Folding.event (if isArray then .beginList none else .beginMap none) f =
      .error (.decode (.depthExceeded limit)) f := by
  cases isArray with
  | true => exact beginList_refuses h
  | false => exact beginMap_refuses h

theorem foldEnd_ok (h : f.HasRoom) (hlen : pairs.length < 0x100000000) :
    Folding.event (if isArray then .endList else .endMap) (elementsOver f isArray pairs) =
      .ok () (f.foldedTree (documentTree isArray pairs)) := by
  cases isArray with
  | true => exact endList_tree h (by rwa [List.length_map]) (by simp)
  | false => exact endMap_tree h hlen (by simp)

theorem foldKey_mirrors (header : Header) :
    Mirrors .decode (foldKey isArray header index) (readKey isArray header index) c
      (elementsOver f isArray pairs) (fun _ => ()) fun _ => headOver f isArray pairs header.key := by
  cases isArray with
  | true => exact .reading _
  | false => exact .fold key_tree

theorem foldPayload_mirrors {step : Bool → Decoder Cursor Unit} {payload : Payload} {n : Nat}
    (h : f.Admits n)
    (hdocument : ∀ b c, Mirrors .decode (step b) (document b) c f (fun _ => ()) f.foldedTree) :
    Mirrors .decode (foldPayload step payload) (readPayload document payload) c f (fun _ => ())
      f.foldedTree := by
  cases payload with
  | document => exact hdocument false c
  | array => exact hdocument true c
  | _ => exact .fold (scalar_ok h)

theorem foldElement_mirrors {step : Bool → Decoder Cursor Unit} (h : f.InStep limit (levels + 1))
    (hlen : pairs.length < 0x80000000)
    (hdocument : ∀ (g : Folder) b c, g.InStep limit levels →
      Mirrors .decode (step b) (document b) c g (fun _ => ()) g.foldedTree) :
    Mirrors .decode (foldElement step isArray finish index)
      (readElement document isArray finish index) c (elementsOver f isArray pairs) Option.isSome
      fun result => elementsOver f isArray (pairs ++ result.toList) := by
  refine .bind (.reading _) fun header c _ => ?_
  cases header with
  | none => exact .done _ rfl (by rw [Option.toList_none, List.append_nil])
  | some header =>
    have hhead : (headOver f isArray pairs header.key).InStep limit levels := headOver_inStep h hlen
    refine .bind (foldKey_mirrors header) fun _ c _ => .bind (.reading _) fun payload c _ => ?_
    refine .bind (foldPayload_mirrors hhead.toAdmits fun b c => hdocument _ b c hhead)
      fun value c _ => ?_
    exact .done _ rfl (headOver_foldedTree header.key value).symm

/-- **Folding a document mirrors reading it.** -/
theorem fold_mirrors (h : f.InStep limit levels) :
    Mirrors .decode (fold levels isArray) (read limit levels isArray) c f (fun _ => ())
      f.foldedTree := by
  induction levels generalizing f isArray c with
  | zero => exact .fold_throws (foldBegin_refuses h)
  | succ levels ih =>
    have hpersists : ∀ b, (read limit levels b).Persists := fun _ => read_persists
    rw [fold, read]
    refine .fold_bind (foldBegin_ok h.toAdmits) (.bind (.reading _) fun finish c hopen => ?_)
    refine .bind .rest fun c' c'' hget => ?_
    cases hget
    refine .bind (.gather (I := Within c.offset finish) ?_ ?_ (.init hopen)) ?_
    · intro pairs c' hwithin
      obtain ⟨-, hshort⟩ := openDocument_bounds hopen
      have hbegun := hwithin.begun
      exact foldElement_mirrors h (by omega) fun g b c hg => ih hg
    · exact fun pairs c' kv c'' hwithin hr => hwithin.next hpersists hr
    · intro pairs c' hpairs
      have hlength := length_lt hpersists hopen hpairs
      exact .fold (foldEnd_ok h.room (by omega))

/-! ## One function -/

theorem decodeStream_eq (input : Bytes) (o : FoldOptions) :
    decodeStream input o = decodeTree input o :=
  (fold_mirrors (start_inStep o)).run fun _ _ h => read_fits h

/-- **Both BSON codecs decode alike.** -/
theorem bson_decoders_agree (input : Bytes) (o : FoldOptions) :
    stream.decode input o = built.decode input o :=
  decodeStream_eq input o

end TreeDigest.Bson
