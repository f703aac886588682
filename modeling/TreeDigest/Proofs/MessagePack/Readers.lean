import TreeDigest.MessagePack.Codec
import TreeDigest.Proofs.Fold.Mirror
import TreeDigest.Proofs.Input.Trees

/-!
# The two MessagePack readers

The reader that folds and the reader that builds a tree are one function of the
input. The proof is by induction on the levels that are left: `fold` mirrors
`read`, container by container.

Folding the tree afterwards cannot fail, since whatever `read` builds fits the
limit it was given and has no more entries than its heads could declare. The limit
decides only whether a tree is built, and not which.
-/

namespace TreeDigest.MessagePack

open Folder

variable {limit levels : Nat} {f : Folder} {c c' : Cursor}

/-! ## What the tree reader builds -/

theorem fits_scalar {t : Tree} (h : t.isContainer = false) : t.depth ≤ levels ∧ t.Countable :=
  ⟨Tree.depth_scalar h ▸ Nat.zero_le _, Tree.countable_scalar h⟩

theorem readPair_ok {value : Reader Tree} {kv : Bytes × Tree} {p : Tree → Prop}
    (hp : ∀ {c t c'}, value c = .ok t c' → p t) (h : readPair value c = .ok kv c') : p kv.2 := by
  obtain ⟨k, c₁, -, h⟩ := Steps.bind_eq_ok_iff.mp h
  obtain ⟨t, c₂, hvalue, h⟩ := Steps.bind_eq_ok_iff.mp h
  cases h
  exact hp hvalue

/-- A tree that was read is no deeper than its levels, and its counts fit 32 bits. -/
theorem read_fits {t : Tree} (h : read limit levels c = .ok t c') :
    t.depth ≤ levels ∧ t.Countable := by
  induction levels generalizing c c' t with
  | zero =>
    rw [read] at h
    obtain ⟨tag, c₁, -, h⟩ := Steps.bind_eq_ok_iff.mp h
    cases tag <;> cases h <;> exact fits_scalar rfl
  | succ levels ih =>
    rw [read] at h
    obtain ⟨tag, c₁, -, h⟩ := Steps.bind_eq_ok_iff.mp h
    cases tag with
    | array count =>
      obtain ⟨_, c₂, -, h⟩ := Steps.bind_eq_ok_iff.mp h
      obtain ⟨items, c₃, hitems, h⟩ := Steps.bind_eq_ok_iff.mp h
      cases h
      obtain ⟨hlen, hruns⟩ := Steps.collect_eq_ok_iff.mp hitems
      have hall := hruns.forall ih
      refine ⟨Tree.depth_list_le.mpr fun t ht => (hall t ht).1, Tree.countable_list.mpr ⟨?_, ?_⟩⟩
      · rw [hlen]; exact count.toNat_lt
      · exact fun t ht => (hall t ht).2
    | map count =>
      obtain ⟨_, c₂, -, h⟩ := Steps.bind_eq_ok_iff.mp h
      obtain ⟨pairs, c₃, hpairs, h⟩ := Steps.bind_eq_ok_iff.mp h
      cases h
      obtain ⟨hlen, hruns⟩ := Steps.collect_eq_ok_iff.mp hpairs
      have hall := hruns.forall (readPair_ok ih)
      refine ⟨Tree.depth_map_le.mpr fun t ht => (hall t ht).1, Tree.countable_map.mpr ⟨?_, ?_⟩⟩
      · rw [hlen]; exact count.toNat_lt
      · exact fun t ht => (hall t ht).2
    | _ => cases h; exact fits_scalar rfl

/-! ## Other limits -/

/-- A scalar is read alike whatever the limits. -/
theorem read_scalar_limited {limit levels : Nat} {t : Tree} (h : t.isContainer = false) :
    Reader.LimitedTo limit levels (pure t) (pure t) :=
  .pure (Tree.depth_scalar h ▸ Nat.zero_le _)

/-- **With other levels the same tree is read, if it fits them.** -/
theorem read_limited (limit limit' levels levels' : Nat) :
    Reader.LimitedTo limit levels (read limit levels) (read limit' levels') := by
  induction levels generalizing levels' with
  | zero =>
    rw [read.eq_def limit, read.eq_def limit']
    refine .after fun tag => ?_
    cases tag with
    | array count =>
      refine .throw fun {c t c'} hok => ?_
      cases levels' with
      | zero => cases hok
      | succ levels' =>
        obtain ⟨_, _, -, hok⟩ := Steps.bind_eq_ok_iff.mp hok
        obtain ⟨items, _, -, hok⟩ := Steps.bind_eq_ok_iff.mp hok
        cases hok
        exact Nat.not_le.mpr (Tree.depth_list_pos items)
    | map count =>
      refine .throw fun {c t c'} hok => ?_
      cases levels' with
      | zero => cases hok
      | succ levels' =>
        obtain ⟨_, _, -, hok⟩ := Steps.bind_eq_ok_iff.mp hok
        obtain ⟨pairs, _, -, hok⟩ := Steps.bind_eq_ok_iff.mp hok
        cases hok
        exact Nat.not_le.mpr (Tree.depth_map_pos pairs)
    | _ => exact read_scalar_limited rfl
  | succ levels ih =>
    have hpair : ∀ levels', Steps.Limited (.depthExceeded limit) (fun kv => kv.2.depth ≤ levels)
        (readPair (read limit levels)) (readPair (read limit' levels')) := fun levels' =>
      .after fun k => .map (ih levels') fun _ => Iff.rfl
    rw [read.eq_def limit, read.eq_def limit']
    refine .after fun tag => ?_
    cases tag with
    | array count =>
      cases levels' with
      | zero => exact .of_throw _
      | succ levels' => exact .after fun _ => .map (ih levels').collect fun _ => Tree.depth_list_le
    | map count =>
      cases levels' with
      | zero => exact .of_throw _
      | succ levels' => exact .after fun _ => .map (hpair levels').collect fun _ => Tree.depth_map_le
    | _ => exact read_scalar_limited rfl

/-- **A limit decides only whether an input is read**, and what is read can be counted. -/
theorem readsTrees : ReadsTrees readTree :=
  .of_whole (fun _ limit limit' => read_limited limit limit' limit limit') read_fits

/-! ## The folding reader in step with it -/

theorem foldPair_mirrors {step : Decoder Cursor Unit} {value : Reader Tree} {count : UInt32}
    {pairs : List (Bytes × Tree)} (h : f.InStep limit (levels + 1))
    (hroom : RoomAfter (some count) pairs.length)
    (hvalue : ∀ {g : Folder} {c : Cursor}, g.InStep limit levels →
      Mirrors .decode step value c g (fun _ => ()) g.foldedTree) :
    Mirrors .decode (foldPair step) (readPair value) c (f.mapOver (some count) pairs)
      (fun _ => ()) fun kv => f.mapOver (some count) (pairs ++ [kv]) := by
  refine .bind (.reading key) fun k c _ => .fold_bind key_tree ?_
  exact .map (hvalue (h.keyOver hroom)) (fun _ => rfl) fun t => (keyOver_foldedTree t).symm

/-- **Folding an element mirrors reading it.** -/
theorem fold_mirrors (h : f.InStep limit levels) :
    Mirrors .decode (fold levels) (read limit levels) c f (fun _ => ()) f.foldedTree := by
  induction levels generalizing f c with
  | zero =>
    rw [fold, read]
    refine .bind (.reading tag) fun tag c _ => ?_
    cases tag with
    -- both are out of levels, and each says so of the same limit
    | array count => exact .fold_throws (beginList_refuses h)
    | map count => exact .fold_throws (beginMap_refuses h)
    | _ => exact .fold (scalar_ok h.toAdmits)
  | succ levels ih =>
    have hdeclared : ∀ {count : UInt32}, ∀ d ∈ some count, d.toNat = count.toNat := by
      rintro count d ⟨⟩
      rfl
    rw [fold, read]
    refine .bind (.reading tag) fun tag c _ => ?_
    cases tag with
    | array count =>
      refine .fold_bind (beginList_tree h.toAdmits) (.bind (.reading _) fun _ c _ => ?_)
      refine .bind (.collect fun items c hitems => ?_) fun items c hitems => .fold ?_
      · exact (ih (h.listOver (.of_lt count.toNat_lt hdeclared hitems))).congr listOver_foldedTree
      · obtain ⟨hlen, -⟩ := Steps.collect_eq_ok_iff.mp hitems
        exact endList_tree h.room (hlen ▸ count.toNat_lt) (hlen ▸ hdeclared)
    | map count =>
      refine .fold_bind (beginMap_tree h.toAdmits) (.bind (.reading _) fun _ c _ => ?_)
      refine .bind (.collect fun pairs c hpairs => ?_) fun pairs c hpairs => .fold ?_
      · exact foldPair_mirrors h (.of_lt count.toNat_lt hdeclared hpairs) ih
      · obtain ⟨hlen, -⟩ := Steps.collect_eq_ok_iff.mp hpairs
        exact endMap_tree h.room (hlen ▸ count.toNat_lt) (hlen ▸ hdeclared)
    | _ => exact .fold (scalar_ok h.toAdmits)

/-! ## One function -/

theorem decodeStream_eq (input : Bytes) (o : FoldOptions) :
    decodeStream input o = decodeTree input o :=
  (fold_mirrors (start_inStep o)).run fun _ _ h => read_fits h

/-- **All MessagePack codecs decode alike.** -/
theorem messagePack_decoders_agree (input : Bytes) (o : FoldOptions) :
    compact.decode input o = node.decode input o ∧ wide.decode input o = node.decode input o :=
  ⟨decodeStream_eq input o, decodeStream_eq input o⟩

end TreeDigest.MessagePack
