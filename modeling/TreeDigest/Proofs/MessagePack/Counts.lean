import TreeDigest.Proofs.MessagePack.Inverse

/-!
# Counts are held to

The heads of containers ask for entries: one element for an item of a list, two for
a pair of a map. Every element but the first is asked for by one head, so an input
that is read has one head more than its heads ask for. The octets of a head say
nothing of where its entries are, and a changed count may move all that follows into
other containers. But it does not change how many heads there are, only what they
ask for, so the input is no longer read.
-/

namespace TreeDigest.MessagePack

variable {said said' : List Tag} {before input head head' after : Bytes} {markers : List UInt8}
  {limit : Nat} {t : Tree}

/-! ## What heads ask for -/

/-- How many elements a head asks for. -/
def Tag.demand : Tag → Nat
  | .array count => count.toNat
  | .map count => 2 * count.toNat
  | _ => 0

/-- How many elements the heads of a row ask for. -/
def demand (said : List Tag) : Nat := (said.map Tag.demand).sum

theorem demand_cons (tag : Tag) (said : List Tag) : demand (tag :: said) = tag.demand + demand said := by
  rw [demand, List.map_cons, List.sum_cons, demand]

theorem demand_append (said said' : List Tag) :
    demand (said ++ said') = demand said + demand said' := by
  rw [demand, List.map_append, List.sum_append, demand, demand]

/-- Precision asks for nothing. -/
theorem demand_kept (said : List Tag) : demand (said.map Tag.kept) = demand said := by
  have hkept : ∀ tag : Tag, tag.kept.demand = tag.demand := fun tag => by cases tag <;> rfl
  rw [demand, List.map_map, demand]
  exact congrArg List.sum (List.map_congr_left fun tag _ => hkept tag)

/-- Rows that have some heads more than they ask for, one after the other. -/
theorem length_flatMap_demand {α : Type} {row : α → List Tag} {more : Nat} {xs : List α}
    (h : ∀ x ∈ xs, (row x).length = demand (row x) + more) :
    (xs.flatMap row).length = demand (xs.flatMap row) + xs.length * more := by
  induction xs with
  | nil => simp [demand]
  | cons x xs ih =>
    rw [List.forall_mem_cons] at h
    rw [List.flatMap_cons, List.length_append, h.1, ih h.2, demand_append, List.length_cons,
      Nat.succ_mul]
    omega

/-- **The tags of a tree are one more than they ask for.** -/
theorem length_tags (ht : t.Short) : (tags t).length = demand (tags t) + 1 := by
  induction t using Tree.induct with
  | scalar t hscalar =>
    cases t with
    | list items => exact Bool.noConfusion hscalar
    | map pairs => exact Bool.noConfusion hscalar
    | _ => rfl
  | list items ih =>
    obtain ⟨hcount, hitems⟩ := Tree.short_list.mp ht
    have hrows := length_flatMap_demand fun item hitem => ih item hitem (hitems item hitem)
    have hback : items.length.toUInt32.toNat = items.length := UInt32.toNat_ofNat_of_lt' hcount
    rw [tags, tagsOfItems_eq, List.length_cons, hrows, demand_cons, Tag.demand, hback]
    omega
  | map pairs ih =>
    obtain ⟨⟨hcount, -⟩, hvalues⟩ := Tree.short_map.mp ht
    have hpair : ∀ kv ∈ pairs,
        (Tag.text kv.1 :: tags kv.2).length = demand (.text kv.1 :: tags kv.2) + 2 := by
      intro kv hkv
      have htext : (Tag.text kv.1).demand = 0 := rfl
      rw [List.length_cons, ih kv hkv (hvalues kv hkv), demand_cons, htext]
      omega
    have hrows := length_flatMap_demand hpair
    have hback : pairs.length.toUInt32.toNat = pairs.length := UInt32.toNat_ofNat_of_lt' hcount
    rw [tags, tagsOfPairs_eq, List.length_cons, hrows, demand_cons, Tag.demand, hback]
    omega

/-- **An input that is read has one head more than its heads ask for.** -/
theorem length_of_read (hread : readTree input limit = .ok t) (h : Heads said input markers) :
    said.length = demand said + 1 := by
  obtain ⟨hshort, said', markers', hheads, hkept⟩ := readTree_takes hread
  obtain ⟨rfl, -⟩ := h.unique hheads
  have hlength := length_tags hshort
  rwa [← hkept, List.length_map, demand_kept] at hlength

/-! ## Another count -/

/-- The families of containers. -/
inductive Family where
  | array
  | map

/-- The tag of a container of a family. -/
def Family.tag : Family → UInt32 → Tag
  | .array => .array
  | .map => .map

/-- The octets are a head of a container, in one of the widths that hold its count. -/
def IsHeadOf (family : Family) (count : UInt32) (head : Bytes) : Prop :=
  ∃ marker body, Head marker body (family.tag count) ∧ head = marker :: body

theorem demand_tag_inj {family : Family} {count count' : UInt32}
    (h : (family.tag count).demand = (family.tag count').demand) : count = count' := by
  cases family with
  | array => exact UInt32.toNat_inj.mp h
  | map => exact UInt32.toNat_inj.mp (Nat.eq_of_mul_eq_mul_left Nat.two_pos h)

/-- What follows a row of heads in a longer row is a row of heads. -/
theorem Heads.rest (h : Heads said before markers) {said' : List Tag} {markers' : List UInt8}
    (h' : Heads said' (before ++ after) markers') :
    ∃ said'' markers'', Heads said'' after markers'' := by
  induction h generalizing said' markers' with
  | nil => exact ⟨_, _, h'⟩
  | @cons marker body bytes tag said markers hhead _ ih =>
    generalize hbytes : marker :: body ++ bytes ++ after = all at h'
    cases h' with
    | nil => cases hbytes
    | cons hhead' hheads' =>
      rw [List.append_assoc] at hbytes
      obtain ⟨rfl, rfl⟩ := (head_reads hhead).unique (head_reads hhead') hbytes
      exact ih hheads'

/-- A head among other heads is one of the row. -/
theorem Heads.insert {markers' : List UInt8} {family : Family} {count : UInt32}
    (hbefore : Heads said before markers) (hhead : IsHeadOf family count head)
    (hafter : Heads said' after markers') :
    ∃ markers'', Heads (said ++ family.tag count :: said') (before ++ head ++ after) markers'' := by
  obtain ⟨marker, body, hhead, rfl⟩ := hhead
  have hheads := hbefore.append (.cons hhead hafter)
  rw [← List.append_assoc] at hheads
  exact ⟨_, hheads⟩

/-- What follows the heads of the beginning of an input that is read is heads. -/
theorem heads_after {family : Family} {count : UInt32}
    (hread : readTree (before ++ head ++ after) limit = .ok t)
    (hbefore : Heads said before markers) (hhead : IsHeadOf family count head) :
    ∃ said' markers', Heads said' after markers' := by
  obtain ⟨-, _, _, hheads, -⟩ := readTree_takes hread
  obtain ⟨marker, body, hhead, rfl⟩ := hhead
  have hfirst := Heads.cons hhead .nil
  rw [List.append_nil] at hfirst
  exact (hbefore.append hfirst).rest hheads

/-- **No two counts of one container are read with the same octets around them.** -/
theorem count_unique {limit' : Nat} {t' : Tree} {family : Family} {count count' : UInt32}
    (hread : readTree (before ++ head ++ after) limit = .ok t)
    (hread' : readTree (before ++ head' ++ after) limit' = .ok t')
    (hbefore : Heads said before markers)
    (hhead : IsHeadOf family count head) (hhead' : IsHeadOf family count' head') :
    count = count' := by
  obtain ⟨said', markers', hafter⟩ := heads_after hread hbefore hhead
  obtain ⟨_, hheads⟩ := hbefore.insert hhead hafter
  obtain ⟨_, hheads'⟩ := hbefore.insert hhead' hafter
  -- as many heads in both rows, so the two counts ask for the same
  have hlength := length_of_read hread hheads
  have hlength' := length_of_read hread' hheads'
  simp only [List.length_append, List.length_cons, demand_append, demand_cons] at hlength hlength'
  have hdemand : (family.tag count).demand = (family.tag count').demand := by omega
  exact demand_tag_inj hdemand

/-! ## Decoders -/

/--
**A container holds as many entries as its head says.** If octets are decoded in which
the head of a container comes after a row of heads, with another count in its place, of
any width that holds it, no decoder accepts them, whatever the options.
-/
theorem messagePack_counts_are_held_to {reader : Codec} {o : FoldOptions} {digest : Digest}
    {family : Family} {count count' : UInt32}
    (hreader : reader ∈ Codec.ofFormat .messagePack)
    (hok : reader.decode (before ++ head ++ after) o = .ok digest)
    (hbefore : Markers before markers)
    (hhead : IsHeadOf family count head) (hhead' : IsHeadOf family count' head')
    (hcount : count' ≠ count) :
    ∀ reader' ∈ Codec.ofFormat .messagePack, ∀ o' : FoldOptions,
      ∃ e, reader'.decode (before ++ head' ++ after) o' = .error (.decode e) := by
  obtain ⟨t, hread⟩ := Codec.Folds.read (decode_eq hreader) hok
  obtain ⟨said, hbefore⟩ := hbefore
  intro reader' hreader' o'
  refine readsTrees.decode_of_unread (decode_eq hreader') (fun limit' t' hread' => hcount ?_) o'
  exact (count_unique hread hread' hbefore hhead hhead').symm

/-- The list in `{a: [1, 2], b: 3}` takes the key behind it for an item. -/
theorem messagePack_counts_are_held_to_nested :
    wide.decode [0x82, 0xA1, 0x61, 0x92, 1, 2, 0xA1, 0x62, 3] {} =
        .ok ((Tree.map [([0x61], .list [.uint 1, .uint 2]), ([0x62], .uint 3)]).digest {}) ∧
      Markers [0x82, 0xA1, 0x61] [0x82, 0xA1] ∧
      IsHeadOf .array 2 [0x92] ∧ IsHeadOf .array 3 [0xDC, 0, 3] ∧ (3 : UInt32) ≠ 2 ∧
      ∃ e, node.decode [0x82, 0xA1, 0x61, 0xDC, 0, 3, 1, 2, 0xA1, 0x62, 3] {} = .error (.decode e) := by
  have hwide : wide ∈ Codec.ofFormat .messagePack := by simp [codecs_eq]
  have hnode : node ∈ Codec.ofFormat .messagePack := by simp [codecs_eq]
  have hshort : (Tree.map [([0x61], .list [.uint 1, .uint 2]), ([0x62], .uint 3)]).Short := by
    simp [Tree.Short, Tree.All, Tree.AllItems, Tree.AllPairs, Tree.LengthsBelow]
  have hread : wide.decode (form .compact (.map [([0x61], .list [.uint 1, .uint 2]),
      ([0x62], .uint 3)])) {} = _ := decode_form_eq hwide hshort {}
  have hok : wide.decode ([0x82, 0xA1, 0x61] ++ [0x92] ++ [1, 2, 0xA1, 0x62, 3]) {} = .ok _ :=
    hread.trans (if_pos (by decide))
  have hbefore : Markers [0x82, 0xA1, 0x61] [0x82, 0xA1] :=
    ⟨_, .cons (@Head.fixMap 0x82 (by decide) (by decide))
      (.cons (@Head.fixText 0xA1 [0x61] (by decide) (by decide) rfl) .nil)⟩
  have hhead : IsHeadOf .array 2 [0x92] :=
    ⟨_, _, @Head.fixArray 0x92 (by decide) (by decide), rfl⟩
  have hhead' : IsHeadOf .array 3 [0xDC, 0, 3] :=
    ⟨_, _, @Head.array 0xDC 2 3 (by decide) (by decide), rfl⟩
  exact ⟨hok, hbefore, hhead, hhead', by decide,
    messagePack_counts_are_held_to hwide hok hbefore hhead hhead' (by decide) node hnode {}⟩

end TreeDigest.MessagePack
