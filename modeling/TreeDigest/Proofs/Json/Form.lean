import TreeDigest.Proofs.Json.Direct
import TreeDigest.Proofs.Output.Encodes

/-!
# The JSON form of a tree

Both writers give the same form. It is put together from the forms of parts, each
entry of a container with what separates it from the one before: `layout`.

Texts and keys have to be UTF-8 and doubles finite: `Expressible`. The writer that
folds first also refuses a map in which a key occurs twice: `Distinct`.
-/

namespace TreeDigest.Json

open Encoder (Yields)
open Folder

/-! ## Forms -/

mutual

/-- The form of a tree. -/
def layout : Tree → Bytes
  | .null => nullForm
  | .bool b => boolForm b
  | .int i => intForm i
  | .uint u => uintForm u
  | .double bits => doubleForm bits
  | .text octets => textForm octets
  | .list items => 0x5B :: (layoutItems true items ++ [0x5D])
  | .map pairs => 0x7B :: (layoutPairs true pairs ++ [0x7D])

/-- Items, the first of them with or without a comma before it. -/
def layoutItems (isFirst : Bool) : List Tree → Bytes
  | [] => []
  | item :: items => separator isFirst ++ layout item ++ layoutItems false items

/-- Pairs, the first of them with or without a comma before it. -/
def layoutPairs (isFirst : Bool) : List (Bytes × Tree) → Bytes
  | [] => []
  | (k, value) :: pairs =>
    separator isFirst ++ textForm k ++ [0x3A] ++ layout value ++ layoutPairs false pairs

end

theorem put_ok (bytes : Bytes) (out : Output) : put bytes out = .ok () (out.append bytes) := rfl

theorem scalarForm_eq {t : Tree} (h : t.isContainer = false) : scalarForm t = layout t := by
  cases t with
  | list items => exact Bool.noConfusion h
  | map pairs => exact Bool.noConfusion h
  | _ => rfl

/-- A tree is written in its form, whatever was written before. -/
def Serialized (t : Tree) : Prop := ∀ out, serialize t out = .ok () (out.append (layout t))

theorem serializeItems_ok {items : List Tree} (h : ∀ t ∈ items, Serialized t) (isFirst : Bool)
    (out : Output) :
    serializeItems isFirst items out = .ok () (out.append (layoutItems isFirst items)) := by
  induction items generalizing isFirst out with
  | nil => rfl
  | cons item items ih =>
    rw [List.forall_mem_cons] at h
    rw [serializeItems, Steps.bind_ok (put_ok _ _), Steps.bind_ok (h.1 _), ih h.2, layoutItems]
    simp only [Output.append_append]

theorem serializePairs_ok {pairs : List (Bytes × Tree)} (h : ∀ kv ∈ pairs, Serialized kv.2)
    (isFirst : Bool) (out : Output) :
    serializePairs isFirst pairs out = .ok () (out.append (layoutPairs isFirst pairs)) := by
  induction pairs generalizing isFirst out with
  | nil => rfl
  | cons pair pairs ih =>
    obtain ⟨k, value⟩ := pair
    rw [List.forall_mem_cons] at h
    rw [serializePairs, Steps.bind_ok (put_ok _ _), Steps.bind_ok (h.1 _), ih h.2, layoutPairs]
    simp only [Output.append_append, List.append_assoc]

/-- **Nothing stops the serializer of a tree**, and what it writes is the form. -/
theorem serialize_ok (t : Tree) : Serialized t := by
  intro out
  induction t using Tree.induct generalizing out with
  | scalar t hscalar =>
    rw [← scalarForm_eq hscalar]
    cases t with
    | list items => exact Bool.noConfusion hscalar
    | map pairs => exact Bool.noConfusion hscalar
    | _ => rfl
  | list items ih =>
    rw [serialize, Steps.bind_ok (put_ok _ _), Steps.bind_ok (serializeItems_ok ih true _), put_ok,
      layout, Output.append_append, Output.append_append]
    rfl
  | map pairs ih =>
    rw [serialize, Steps.bind_ok (put_ok _ _), Steps.bind_ok (serializePairs_ok ih true _), put_ok,
      layout, Output.append_append, Output.append_append]
    rfl

/-- **What passes the check is written in its form**, and its serializer is never to blame. -/
theorem encodeTree_of_check {codec : String} {t : Tree} {o : FoldOptions} {f : Folder}
    (h : check codec t (.start .encode o) = .ok () f) :
    encodeTree codec t o = (do return ⟨layout t, ← f.finish⟩) := by
  rw [encodeTree, h]
  dsimp only
  rw [serialize_ok]
  dsimp only
  rw [Output.bytes_append, Output.bytes_empty, List.nil_append]

/-- What does not pass fails with what the check fails with. -/
theorem encodeTree_of_check_error {codec : String} {t : Tree} {o : FoldOptions} {f : Folder}
    {e : Error} (h : check codec t (.start .encode o) = .error e f) :
    encodeTree codec t o = .error e := by
  rw [encodeTree, h]

/-- Items with their places, of which only the first one is of interest. -/
theorem layoutItems_zipIdx (items : List Tree) (i : Nat) :
    ((items.zipIdx i).flatMap fun p => separator (p.2 == 0) ++ layout p.1) =
      layoutItems (i == 0) items := by
  induction items generalizing i with
  | nil => rfl
  | cons item items ih => rw [List.zipIdx_cons, List.flatMap_cons, ih, layoutItems]; rfl

theorem layoutPairs_zipIdx (pairs : List (Bytes × Tree)) (i : Nat) :
    ((pairs.zipIdx i).flatMap fun p =>
      (separator (p.2 == 0) ++ textForm p.1.1 ++ [0x3A]) ++ layout p.1.2) =
      layoutPairs (i == 0) pairs := by
  induction pairs generalizing i with
  | nil => rfl
  | cons pair pairs ih => rw [List.zipIdx_cons, List.flatMap_cons, ih, layoutPairs]; rfl

/-! ## What has a form -/

/-- At the root of a tree, nothing stands against a form. -/
def ExpressibleAt : Tree → Prop
  | .double bits => Binary.double.isFinite bits.toNat = true
  | .text octets => Utf8.isValid octets = true
  | .map pairs => ∀ kv ∈ pairs, Utf8.isValid kv.1 = true
  | _ => True

/-- Texts and keys are UTF-8, and doubles are finite. -/
def Expressible (t : Tree) : Prop := t.All ExpressibleAt

theorem expressible_list {items : List Tree} :
    Expressible (.list items) ↔ ∀ t ∈ items, Expressible t :=
  Tree.all_list.trans (and_iff_right trivial)

theorem expressible_map {pairs : List (Bytes × Tree)} :
    Expressible (.map pairs) ↔
      (∀ kv ∈ pairs, Utf8.isValid kv.1 = true) ∧ ∀ kv ∈ pairs, Expressible kv.2 :=
  Tree.all_map

/-- At the root of a tree, no key occurs twice. -/
def DistinctAt : Tree → Prop
  | .map pairs => (pairs.map Prod.fst).Nodup
  | _ => True

/-- No map has a key twice. -/
def Distinct (t : Tree) : Prop := t.All DistinctAt

theorem distinct_list {items : List Tree} : Distinct (.list items) ↔ ∀ t ∈ items, Distinct t :=
  Tree.all_list.trans (and_iff_right trivial)

theorem distinct_map {pairs : List (Bytes × Tree)} :
    Distinct (.map pairs) ↔ (pairs.map Prod.fst).Nodup ∧ ∀ kv ∈ pairs, Distinct kv.2 :=
  Tree.all_map

/-! ## Writing -/

variable {codec : String} {f : Folder}

theorem requireText_ok {octets : Bytes} (h : Utf8.isValid octets = true) :
    requireText codec octets = .ok () := by
  rw [requireText, Option.isNone_iff_eq_none.mp h]

theorem requireFinite_ok {bits : UInt64} (h : Binary.double.isFinite bits.toNat = true) :
    requireFinite codec bits = .ok () := if_pos h

/-- Folds a key and writes it, with what separates it from the pair before. -/
def writeKey (codec : String) (isFirst : Bool) (k : Bytes) : Encoder Unit := do
  require (requireText codec k)
  Encoder.fold (.key k)
  Encoder.put (separator isFirst ++ textForm k ++ [0x3A])

theorem writePairs_cons {isFirst : Bool} {k : Bytes} {value : Tree} {pairs : List (Bytes × Tree)} :
    Direct.writePairs codec isFirst ((k, value) :: pairs) = (do
      writeKey codec isFirst k
      Direct.write codec value
      Direct.writePairs codec false pairs) := by
  rw [Direct.writePairs, writeKey]
  simp only [bind_assoc]

theorem writeKey_yields {isFirst : Bool} {k : Bytes} (h : Utf8.isValid k = true)
    {declared : Option UInt32} {seen : List (Bytes × Tree)} :
    (writeKey codec isFirst k).Yields (f.mapOver declared seen)
      (separator isFirst ++ textForm k ++ [0x3A]) () (f.keyOver declared seen k) := by
  rw [writeKey, requireText_ok h]
  exact .bind_nil .pure (.bind_nil (.fold key_tree) .put)

/-- **An expressible tree is written in its form.** -/
theorem write_encodes {t : Tree} (ht : Expressible t) (hcount : t.Countable) :
    Encodes (Direct.write codec t) t (layout t) := by
  induction t using Tree.induct with
  | scalar t hscalar =>
    cases t with
    | list items => exact Bool.noConfusion hscalar
    | map pairs => exact Bool.noConfusion hscalar
    | double bits =>
      rw [Direct.write, requireFinite_ok ht]
      exact .scalar scalar_ok fun _ => .put
    | text octets =>
      rw [Direct.write, requireText_ok ht]
      exact .scalar scalar_ok fun _ => .put
    | _ => exact .scalar scalar_ok fun _ => .put
  | list items ih =>
    have hitems := expressible_list.mp ht
    obtain ⟨hlen, hcounts⟩ := Tree.countable_list.mp hcount
    obtain ⟨m, hm, hdepth⟩ := Tree.exists_depth_list items
    refine ⟨fun {f} h => ?_⟩
    rw [hm] at h
    have hloop := Encodes.items (fun i => Direct.writeItems codec (i == 0))
      (fun i item => do Encoder.put (separator (i == 0)); Direct.write codec item)
      (fun i item => separator (i == 0) ++ layout item) (fun _ => rfl)
      (fun i item items => by rw [Direct.writeItems, bind_assoc]; rfl) h hlen
      (declared_eq hlen) hdepth []
      (fun p hp => .after .put (ih p.1 (List.fst_mem_of_mem_zipIdx hp)
        (hitems _ (List.fst_mem_of_mem_zipIdx hp)) (hcounts _ (List.fst_mem_of_mem_zipIdx hp))))
      (Nat.zero_add _)
    rw [layoutItems_zipIdx, List.nil_append] at hloop
    rw [Direct.write]
    refine .bind_nil (.count hlen) (.bind_nil (.fold (beginList_tree h)) (.bind .put ?_))
    refine .bind hloop (.bind_nil (.fold ?_) .put)
    exact endList_tree h.room hlen (declared_eq hlen)
  | map pairs ih =>
    obtain ⟨hkeys, hpairs⟩ := expressible_map.mp ht
    obtain ⟨hlen, hcounts⟩ := Tree.countable_map.mp hcount
    obtain ⟨m, hm, hdepth⟩ := Tree.exists_depth_map pairs
    refine ⟨fun {f} h => ?_⟩
    rw [hm] at h
    have hloop := Encodes.pairs (fun i => Direct.writePairs codec (i == 0))
      (fun i => writeKey codec (i == 0)) (fun _ => Direct.write codec)
      (fun i k => separator (i == 0) ++ textForm k ++ [0x3A]) (fun _ => layout)
      (fun _ => rfl) (fun _ _ _ _ => writePairs_cons) h hlen (declared_eq hlen) hdepth
      (fun _ kv hkv _ => writeKey_yields (hkeys kv hkv))
      (fun kv hkv => ih kv hkv (hpairs kv hkv) (hcounts kv hkv)) [] (Nat.zero_add _)
    rw [layoutPairs_zipIdx, List.nil_append] at hloop
    rw [Direct.write]
    refine .bind_nil (.count hlen) (.bind_nil (.fold (beginMap_tree h)) (.bind .put ?_))
    refine .bind hloop (.bind_nil (.fold ?_) .put)
    exact endMap_tree h.room hlen (declared_eq hlen)

/-! ## Folding before writing -/

theorem checkItems_ok {items seen : List Tree} {n m : Nat} (h : f.Admits (m + 1))
    (hn : n < 0x100000000)
    (hfold : ∀ t ∈ items, ∀ g : Folder, g.Admits m → check codec t g = .ok () (g.foldedTree t))
    (hlen : seen.length + items.length = n) :
    checkItems codec items (f.listOver (some n.toUInt32) seen) =
      .ok () (f.listOver (some n.toUInt32) (seen ++ items)) := by
  induction items generalizing seen with
  | nil => rw [List.append_nil]; rfl
  | cons item items ih =>
    rw [List.forall_mem_cons] at hfold
    rw [List.length_cons] at hlen
    have hroom : RoomAfter (some n.toUInt32) seen.length := .of_lt hn (declared_eq hn) (by omega)
    rw [checkItems, Steps.bind_ok (hfold.1 _ (listOver_admits h hroom)), listOver_foldedTree,
      ih hfold.2 (by rw [List.length_append, List.length_singleton]; omega), List.append_assoc,
      List.singleton_append]

/-- Keys that were told apart from those seen before and from one more. -/
theorem unseen_insert {pairs : List (Bytes × Tree)} {keys : Std.HashSet Bytes} {k : Bytes}
    (hk : k ∉ pairs.map Prod.fst) (hkeys : ∀ kv ∈ pairs, keys.contains kv.1 = false) :
    ∀ kv ∈ pairs, (keys.insert k).contains kv.1 = false := by
  intro kv hkv
  have hne : k ≠ kv.1 := fun h => hk (List.mem_map.mpr ⟨kv, hkv, h.symm⟩)
  rw [Std.HashSet.contains_insert, hkeys kv hkv, Bool.or_false]
  exact beq_false_of_ne hne

/-- Pairs with keys that are told apart from each other and from those seen before. -/
theorem checkPairs_ok {pairs seen : List (Bytes × Tree)} {keys : Std.HashSet Bytes} {n m : Nat}
    (h : f.Admits (m + 1)) (hn : n < 0x100000000)
    (hvalid : ∀ kv ∈ pairs, Utf8.isValid kv.1 = true) (hdistinct : (pairs.map Prod.fst).Nodup)
    (hkeys : ∀ kv ∈ pairs, keys.contains kv.1 = false)
    (hfold : ∀ kv ∈ pairs, ∀ g : Folder, g.Admits m →
      check codec kv.2 g = .ok () (g.foldedTree kv.2))
    (hlen : seen.length + pairs.length = n) :
    checkPairs codec keys pairs (f.mapOver (some n.toUInt32) seen) =
      .ok () (f.mapOver (some n.toUInt32) (seen ++ pairs)) := by
  induction pairs generalizing seen keys with
  | nil => rw [List.append_nil]; rfl
  | cons pair pairs ih =>
    obtain ⟨k, value⟩ := pair
    rw [List.forall_mem_cons] at hvalid hkeys hfold
    rw [List.map_cons, List.nodup_cons] at hdistinct
    rw [List.length_cons] at hlen
    have hroom : RoomAfter (some n.toUInt32) seen.length := .of_lt hn (declared_eq hn) (by omega)
    have hrequire : require (requireText codec k) (f.mapOver (some n.toUInt32) seen) =
        .ok () (f.mapOver (some n.toUInt32) seen) := by rw [requireText_ok hvalid.1]; rfl
    rw [checkPairs, Steps.bind_ok hrequire, Steps.bind_ok key_tree,
      Steps.bind_ok (hfold.1 _ (keyOver_admits h hroom)), keyOver_foldedTree, hkeys.1,
      if_neg Bool.false_ne_true]
    dsimp only
    rw [ih hvalid.2 hdistinct.2 (unseen_insert hdistinct.1 hkeys.2) hfold.2
      (by rw [List.length_append, List.length_singleton]; omega), List.append_assoc,
      List.singleton_append]

/-- **What can be written passes the check, which folds it.** -/
theorem check_ok {t : Tree} (ht : Expressible t) (hdistinct : Distinct t) (hcount : t.Countable)
    (h : f.Admits t.depth) : check codec t f = .ok () (f.foldedTree t) := by
  induction t using Tree.induct generalizing f with
  | scalar t hscalar =>
    cases t with
    | list items => exact Bool.noConfusion hscalar
    | map pairs => exact Bool.noConfusion hscalar
    | double bits =>
      rw [check, requireFinite_ok ht]
      exact scalar_ok h
    | text octets =>
      rw [check, requireText_ok ht]
      exact scalar_ok h
    | _ => exact scalar_ok h
  | list items ih =>
    have hitems := expressible_list.mp ht
    have hdistincts := distinct_list.mp hdistinct
    obtain ⟨hlen, hcounts⟩ := Tree.countable_list.mp hcount
    obtain ⟨m, hm, hdepth⟩ := Tree.exists_depth_list items
    rw [hm] at h
    have hfold : ∀ t ∈ items, ∀ g : Folder, g.Admits m → check codec t g = .ok () (g.foldedTree t) :=
      fun t ht g hg => ih t ht (hitems t ht) (hdistincts t ht) (hcounts t ht) (hg.mono (hdepth t ht))
    rw [check, Steps.bind_ok (count_ok hlen), Steps.bind_ok (beginList_tree h),
      Steps.bind_ok (checkItems_ok h hlen hfold (Nat.zero_add _)), List.nil_append,
      endList_tree h.room hlen (declared_eq hlen)]
  | map pairs ih =>
    obtain ⟨hkeys, hpairs⟩ := expressible_map.mp ht
    obtain ⟨hnodup, hdistincts⟩ := distinct_map.mp hdistinct
    obtain ⟨hlen, hcounts⟩ := Tree.countable_map.mp hcount
    obtain ⟨m, hm, hdepth⟩ := Tree.exists_depth_map pairs
    rw [hm] at h
    have hfold : ∀ kv ∈ pairs, ∀ g : Folder, g.Admits m →
        check codec kv.2 g = .ok () (g.foldedTree kv.2) := fun kv hkv g hg =>
      ih kv hkv (hpairs kv hkv) (hdistincts kv hkv) (hcounts kv hkv) (hg.mono (hdepth kv hkv))
    have hempty : ∀ kv ∈ pairs, (∅ : Std.HashSet Bytes).contains kv.1 = false :=
      fun _ _ => Std.HashSet.contains_empty
    rw [check, Steps.bind_ok (count_ok hlen), Steps.bind_ok (beginMap_tree h),
      Steps.bind_ok (checkPairs_ok h hlen hkeys hnodup hempty hfold (Nat.zero_add _)),
      List.nil_append, endMap_tree h.room hlen (declared_eq hlen)]

end TreeDigest.Json
