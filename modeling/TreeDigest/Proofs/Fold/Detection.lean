import TreeDigest.Proofs.Digest.Mixing
import TreeDigest.Proofs.Fold.Depth
import TreeDigest.Proofs.Fold.Signedness

/-!
# What a digest tells apart for certain

A digest of 32 bits cannot tell all trees apart, and some differences it never misses.
What is absorbed keeps digests apart, so another seed gives another digest. And a change
of one primitive that every digest notices is noticed wherever the primitive stands, since
what is absorbed behind it is the same. A map and the list of its keys and values absorb
the same but for the count at the end, as long as the pairs stay where they are.

Where pairs are sorted they need not stay, and then a map and the list can meet.
-/

namespace TreeDigest

/-! ## Primitives -/

namespace Digest

variable {d d' : Digest}

/-- **What is absorbed keeps digests apart.** -/
theorem absorb_inj {p : Primitive} (h : d.absorb p = d'.absorb p) : d = d' := by
  cases p with
  | null => exact mix_inj h
  | bool b => exact mix_inj (mix_inj h)
  | int i => exact mix_inj (mixWide_inj h)
  | uint u =>
    rw [absorb, absorb] at h
    split at h
    · exact mix_inj (mixWide_inj h)
    · exact mix_inj (mixWide_inj h)
  | double bits => exact mix_inj (mixWide_inj h)
  | bytes octets => exact mix_inj (mixWide_inj (mixOctets_inj h))
  | count n => exact mix_inj (mix_inj h)

theorem foldl_absorb_inj {ps : List Primitive} (h : ps.foldl absorb d = ps.foldl absorb d') :
    d = d' := by
  induction ps generalizing d d' with
  | nil => exact h
  | cons p ps ih => exact absorb_inj (ih h)

end Digest

/-! ## Local changes -/

/-- A change within one word of a string, or within the room that its last word has. -/
inductive TextChange : Bytes → Bytes → Prop
  | word {octets octets' : Bytes} (i : Nat) : octets.length = octets'.length → octets ≠ octets' →
      octets.take (4 * i) = octets'.take (4 * i) →
      octets.drop (4 * i + 4) = octets'.drop (4 * i + 4) → TextChange octets octets'
  | zeros {octets : Bytes} {k : Nat} : octets.length < 0x100000000 → 0 < octets.length % 4 →
      0 < k → octets.length % 4 + k ≤ 4 → TextChange octets (octets ++ List.replicate k 0)

/-- An integer in 64 bits. -/
def Integer.pattern : Integer → UInt64
  | .signed i => i.toUInt64
  | .unsigned u => u

/-- A tree with one local change, in a scalar or in a key. -/
inductive Tree.Changes : Tree → Tree → Prop
  | bool (b : Bool) : Changes (.bool b) (.bool !b)
  | integer {m n : Integer} : m.value < 0x8000000000000000 → n.value < 0x8000000000000000 →
      Digest.OneHalf m.pattern n.pattern → Changes m.tree n.tree
  | double {v w : UInt64} : Binary.double.isNaN v.toNat = false →
      Binary.double.isNaN w.toNat = false → Digest.OneHalf v w → Changes (.double v) (.double w)
  | text {octets octets' : Bytes} : TextChange octets octets' →
      Changes (.text octets) (.text octets')
  | key {k k' : Bytes} (before after : List (Bytes × Tree)) (value : Tree) : TextChange k k' →
      Changes (.map (before ++ (k, value) :: after)) (.map (before ++ (k', value) :: after))
  | item {t t' : Tree} (before after : List Tree) : Changes t t' →
      Changes (.list (before ++ t :: after)) (.list (before ++ t' :: after))
  | value {t t' : Tree} (before after : List (Bytes × Tree)) (k : Bytes) : Changes t t' →
      Changes (.map (before ++ (k, t) :: after)) (.map (before ++ (k, t') :: after))

/-! ### Primitives apart -/

/-- Primitives that every digest tells apart. -/
def Primitive.Apart (p q : Primitive) : Prop := ∀ d : Digest, d.absorb p ≠ d.absorb q

namespace Primitive

theorem bool_apart (b : Bool) : Apart (.bool b) (.bool !b) := by
  intro d heq
  have hword := Digest.mix_word_inj heq
  cases b <;> cases hword

/-- An integer in the signed range is absorbed by its pattern. -/
theorem absorb_integer {n : Integer} (h : n.value < 0x8000000000000000) (d : Digest) :
    d.absorb n.primitive = (d.mix 3).mixWide n.pattern := by
  cases n with
  | signed i => rfl
  | unsigned u =>
    have hu : u.toNat < 0x8000000000000000 := Int.ofNat_lt.mp h
    rw [Integer.primitive, Digest.absorb, if_pos hu, Integer.pattern]

theorem integer_apart {m n : Integer} (hm : m.value < 0x8000000000000000)
    (hn : n.value < 0x8000000000000000) (h : Digest.OneHalf m.pattern n.pattern) :
    Apart m.primitive n.primitive := by
  intro d
  rw [absorb_integer hm, absorb_integer hn]
  exact Digest.mixWide_ne h

theorem double_apart {v w : UInt64} (hv : Binary.double.isNaN v.toNat = false)
    (hw : Binary.double.isNaN w.toNat = false) (h : Digest.OneHalf v w) :
    Apart (.double v) (.double w) := by
  intro d
  rw [Digest.absorb, Digest.absorb, Digest.canonicalDouble, Digest.canonicalDouble, hv, hw]
  exact Digest.mixWide_ne h

theorem bytes_apart {octets octets' : Bytes} (h : TextChange octets octets') :
    Apart (.bytes octets) (.bytes octets') := by
  intro d
  rw [Digest.absorb, Digest.absorb]
  cases h with
  | word i hlen hne hbefore hafter =>
    have hsplit : ∀ bytes : Bytes,
        bytes.take (4 * i) ++ (bytes.drop (4 * i)).take 4 ++ bytes.drop (4 * i + 4) = bytes := by
      intro bytes
      rw [List.append_assoc, ← List.drop_drop, List.take_append_drop, List.take_append_drop]
    -- what lies behind the end is no change
    have hinside : 4 * i ≤ octets.length := by
      by_contra hout
      rw [List.take_of_length_le (by omega), List.take_of_length_le (by omega)] at hbefore
      exact hne hbefore
    have hwhole : (octets.take (4 * i)).length % 4 = 0 := by
      rw [List.length_take]
      omega
    have hlengths :
        ((octets.drop (4 * i)).take 4).length = ((octets'.drop (4 * i)).take 4).length := by
      rw [List.length_take, List.length_take, List.length_drop, List.length_drop, hlen]
    have hword : (octets.drop (4 * i)).take 4 ≠ (octets'.drop (4 * i)).take 4 := by
      intro hsame
      rw [← hsplit octets, ← hsplit octets', hbefore, hsame, hafter] at hne
      exact hne rfl
    have hmixed : ∀ d : Digest,
        d.mixOctets (octets.take (4 * i) ++ (octets.drop (4 * i)).take 4 ++
            octets.drop (4 * i + 4)) ≠
          d.mixOctets (octets.take (4 * i) ++ (octets'.drop (4 * i)).take 4 ++
            octets.drop (4 * i + 4)) :=
      Digest.mixOctets_ne hwhole hlengths (List.length_take_le 4 _) hword
    rw [hsplit octets, hbefore, hafter, hsplit octets'] at hmixed
    rw [hlen]
    exact hmixed _
  | zeros hlt hpart hk hroom =>
    rw [Digest.mixOctets_padded hpart hroom, List.length_append, List.length_replicate]
    exact fun heq => Digest.mixWide_extended_ne hlt hpart hk hroom _ (Digest.mixOctets_inj heq)

end Primitive

/-! ### Trees with a change -/

/-- Rows of primitives that are the same but for one, which every digest tells apart. -/
def OneApart (ps qs : List Primitive) : Prop :=
  ∃ (before : List Primitive) (p q : Primitive) (after : List Primitive),
    p.Apart q ∧ ps = before ++ p :: after ∧ qs = before ++ q :: after

namespace OneApart

variable {ps qs : List Primitive}

theorem single {p q : Primitive} (h : p.Apart q) : OneApart [p] [q] := ⟨[], p, q, [], h, rfl, rfl⟩

theorem within (h : OneApart ps qs) (before after : List Primitive) :
    OneApart (before ++ ps ++ after) (before ++ qs ++ after) := by
  obtain ⟨front, p, q, back, hpq, rfl, rfl⟩ := h
  exact ⟨before ++ front, p, q, back ++ after, hpq, by simp, by simp⟩

/-- **One change shows in the digest.** -/
theorem foldl_ne (h : OneApart ps qs) (d : Digest) :
    ps.foldl Digest.absorb d ≠ qs.foldl Digest.absorb d := by
  obtain ⟨before, p, q, after, hpq, rfl, rfl⟩ := h
  intro heq
  rw [List.foldl_append, List.foldl_append, List.foldl_cons, List.foldl_cons] at heq
  exact hpq _ (Digest.foldl_absorb_inj heq)

end OneApart

namespace Tree

variable {t t' : Tree}

/-- What a list absorbs, around one item. -/
theorem absorbed_item (before after : List Tree) : ∃ (front back : List Primitive), ∀ t : Tree,
    absorbed .preserve (.list (before ++ t :: after)) =
      front ++ absorbed .preserve t ++ back := by
  refine ⟨(absorbedItems .preserve before).flatten, (absorbedItems .preserve after).flatten ++
    [.count (before.length + (after.length + 1)).toUInt32], fun t => ?_⟩
  rw [absorbed, absorbedItems_append, List.length_append, List.length_cons]
  simp [absorbedItems]

/-- What a map absorbs, around one pair. -/
theorem absorbed_pair (before after : List (Bytes × Tree)) :
    ∃ (front back : List Primitive), ∀ (k : Bytes) (value : Tree),
      absorbed .preserve (.map (before ++ (k, value) :: after)) =
        front ++ (.bytes k :: absorbed .preserve value) ++ back := by
  refine ⟨KeyOrder.preserve.primitives (absorbedPairs .preserve before),
    KeyOrder.preserve.primitives (absorbedPairs .preserve after) ++
      [.count (before.length + (after.length + 1)).toUInt32], fun k value => ?_⟩
  rw [absorbed, absorbedPairs_append, List.length_append, List.length_cons]
  simp [KeyOrder.primitives, KeyOrder.arrange, absorbedPairs]

theorem Changes.oneApart (h : Changes t t') :
    OneApart (t.absorbed .preserve) (t'.absorbed .preserve) := by
  induction h with
  | bool b => exact .single (Primitive.bool_apart b)
  | integer hm hn hhalf =>
    rw [absorbed_tree, absorbed_tree]
    exact .single (Primitive.integer_apart hm hn hhalf)
  | double hv hw hhalf => exact .single (Primitive.double_apart hv hw hhalf)
  | text htext => exact .single (Primitive.bytes_apart htext)
  | key before after value htext =>
    obtain ⟨front, back, hpair⟩ := absorbed_pair before after
    rw [hpair, hpair]
    exact ((OneApart.single (Primitive.bytes_apart htext)).within [] _).within front back
  | item before after _ ih =>
    obtain ⟨front, back, hitem⟩ := absorbed_item before after
    rw [hitem, hitem]
    exact ih.within front back
  | value before after k _ ih =>
    obtain ⟨front, back, hpair⟩ := absorbed_pair before after
    rw [hpair, hpair]
    have hvalue := ih.within [.bytes k] []
    rw [List.append_nil, List.append_nil] at hvalue
    exact hvalue.within front back

theorem Changes.depth_le (h : Changes t t') {n : Nat} : t.depth ≤ n ↔ t'.depth ≤ n := by
  have hinteger : ∀ n : Integer, n.tree.depth = 0 := fun n => by cases n <;> rfl
  induction h generalizing n with
  | bool b => rfl
  | integer hm hn hhalf => rw [hinteger, hinteger]
  | double hv hw hhalf => rfl
  | text htext => rfl
  | key before after value htext =>
    cases n with
    | zero => exact ⟨nofun, nofun⟩
    | succ n => simp only [depth_map_le, List.forall_mem_append, List.forall_mem_cons]
  | item before after _ ih =>
    cases n with
    | zero => exact ⟨nofun, nofun⟩
    | succ n => simp only [depth_list_le, List.forall_mem_append, List.forall_mem_cons, ih]
  | value before after k _ ih =>
    cases n with
    | zero => exact ⟨nofun, nofun⟩
    | succ n => simp only [depth_map_le, List.forall_mem_append, List.forall_mem_cons, ih]

theorem Changes.countable (h : Changes t t') : t.Countable ↔ t'.Countable := by
  have hinteger : ∀ n : Integer, n.tree.Countable := fun n => by
    cases n <;> exact countable_scalar rfl
  induction h with
  | bool b => rfl
  | integer hm hn hhalf => exact iff_of_true (hinteger _) (hinteger _)
  | double hv hw hhalf => rfl
  | text htext => rfl
  | key before after value htext =>
    simp only [countable_map, List.forall_mem_append, List.forall_mem_cons, List.length_append,
      List.length_cons]
  | item before after _ ih =>
    simp only [countable_list, List.forall_mem_append, List.forall_mem_cons, List.length_append,
      List.length_cons, ih]
  | value before after k _ ih =>
    simp only [countable_map, List.forall_mem_append, List.forall_mem_cons, List.length_append,
      List.length_cons, ih]

end Tree

/-! ## Maps and lists -/

namespace Tree

variable {pairs : List (Bytes × Tree)} {order : KeyOrder} {o : FoldOptions}

/-- The keys and the values of pairs in a row. -/
def row (pairs : List (Bytes × Tree)) : List Tree := pairs.flatMap fun kv => [.text kv.1, kv.2]

theorem length_row (pairs : List (Bytes × Tree)) : (row pairs).length = 2 * pairs.length := by
  induction pairs with
  | nil => rfl
  | cons kv pairs ih =>
    rw [row, List.flatMap_cons, List.length_append, List.length_cons, ← row, ih]
    show 2 + 2 * pairs.length = 2 * (pairs.length + 1)
    omega

theorem forall_mem_row {p : Tree → Prop} (htext : ∀ octets, p (.text octets)) :
    (∀ t ∈ row pairs, p t) ↔ ∀ kv ∈ pairs, p kv.2 := by
  simp only [row, List.mem_flatMap, List.mem_cons, List.not_mem_nil, or_false]
  constructor
  · exact fun h kv hkv => h kv.2 ⟨kv, hkv, .inr rfl⟩
  · rintro h t ⟨kv, hkv, rfl | rfl⟩
    · exact htext kv.1
    · exact h kv hkv

theorem depth_row (pairs : List (Bytes × Tree)) : (list (row pairs)).depth = (map pairs).depth := by
  have hle : ∀ n, (list (row pairs)).depth ≤ n ↔ (map pairs).depth ≤ n := by
    intro n
    cases n with
    | zero => exact ⟨nofun, nofun⟩
    | succ n => rw [depth_list_le, depth_map_le, forall_mem_row fun _ => Nat.zero_le _]
  exact Nat.le_antisymm ((hle _).mpr (Nat.le_refl _)) ((hle _).mp (Nat.le_refl _))

end Tree

/-- Pairs that stay where they are when a map is folded. -/
def KeyOrder.Keeps (order : KeyOrder) (pairs : List (Bytes × Tree)) : Prop :=
  order = .sorted → pairs.Pairwise fun a b => a.1 ≤ b.1

namespace Tree

theorem arrange_of_keeps (h : order.Keeps pairs) :
    order.arrange (absorbedPairs order pairs) = absorbedPairs order pairs := by
  cases order with
  | preserve => rfl
  | sorted =>
    refine List.mergeSort_of_pairwise ?_
    rw [absorbedPairs_eq, List.pairwise_map]
    exact (h rfl).imp decide_eq_true

theorem absorbedItems_row (pairs : List (Bytes × Tree)) :
    (absorbedItems order (row pairs)).flatten =
      (absorbedPairs order pairs).flatMap fun pair => .bytes pair.1 :: pair.2 := by
  induction pairs with
  | nil => rfl
  | cons kv pairs ih =>
    rw [row, List.flatMap_cons, absorbedItems_append, List.flatten_append, ← row, ih, absorbedPairs,
      List.flatMap_cons]
    simp [absorbedItems, absorbed]

/-- **A map absorbs what its row absorbs, but for the count.** -/
theorem absorbed_row (h : order.Keeps pairs) : ∃ ps : List Primitive,
    absorbed order (.map pairs) = ps ++ [.count pairs.length.toUInt32] ∧
      absorbed order (.list (row pairs)) = ps ++ [.count (2 * pairs.length).toUInt32] := by
  refine ⟨order.primitives (absorbedPairs order pairs), rfl, ?_⟩
  rw [absorbed, absorbedItems_row, length_row, KeyOrder.primitives, arrange_of_keeps h]

/-- **A map and its row have digests apart**, if there is a pair and the row can be counted. -/
theorem digest_row_ne (hpairs : pairs ≠ []) (hrow : (list (row pairs)).Countable)
    (h : o.keyOrder.Keeps pairs) : (map pairs).digest o ≠ (list (row pairs)).digest o := by
  obtain ⟨ps, hmap, hlist⟩ := absorbed_row h
  have hpos := List.length_pos_iff.mpr hpairs
  have hlt := (countable_list.mp hrow).1
  rw [length_row] at hlt
  intro heq
  rw [digest, digest, hmap, hlist, List.foldl_append, List.foldl_append] at heq
  have hcount := congrArg UInt32.toNat (Digest.mix_word_inj heq)
  have hhalf : pairs.length < 0x100000000 := by omega
  rw [Nat.toUInt32_eq, Nat.toUInt32_eq, UInt32.toNat_ofNat_of_lt' hhalf,
    UInt32.toNat_ofNat_of_lt' hlt] at hcount
  omega

theorem countable_of_row (h : (list (row pairs)).Countable) : (map pairs).Countable := by
  obtain ⟨hlt, hitems⟩ := countable_list.mp h
  rw [length_row] at hlt
  exact countable_map.mpr ⟨by omega, (forall_mem_row fun _ => countable_scalar rfl).mp hitems⟩

end Tree

/-! ## At the top -/

/-- Two trees have digests, each under its options, and these are not the same. -/
def ToldApart (t : Tree) (o : FoldOptions) (t' : Tree) (o' : FoldOptions) : Prop :=
  ∃ d d', foldTree t o = .ok d ∧ foldTree t' o' = .ok d' ∧ d ≠ d'

theorem ToldApart.intro {t t' : Tree} {o o' : FoldOptions} (ht : t.Countable)
    (hdepth : t.depth ≤ o.depthLimit) (ht' : t'.Countable) (hdepth' : t'.depth ≤ o'.depthLimit)
    (hne : t.digest o ≠ t'.digest o') : ToldApart t o t' o' :=
  ⟨_, _, foldTreeOn_eq hdepth ht, foldTreeOn_eq hdepth' ht', hne⟩

/--
**What a digest never misses.** A tree has a digest if its entries can be counted and it fits
the limit. Then it has another one under another seed; where pairs are not sorted, a tree
with one local change has another one; and a map has another one than the list of its keys
and values, if the order of keys leaves its pairs where they are.
-/
theorem digest_detects_changes (o : FoldOptions) :
    (∀ t, (∃ d, foldTree t o = .ok d) ↔ t.Countable ∧ t.depth ≤ o.depthLimit) ∧
    (∀ t, t.Countable → t.depth ≤ o.depthLimit →
      ∀ seed, seed ≠ o.seed → ToldApart t o t { o with seed }) ∧
    (∀ t, t.Countable → t.depth ≤ o.depthLimit →
      ∀ t', t.Changes t' → o.keyOrder = .preserve → ToldApart t o t' o) ∧
    ∀ pairs, pairs ≠ [] → (Tree.list (Tree.row pairs)).Countable →
      (Tree.map pairs).depth ≤ o.depthLimit → o.keyOrder.Keeps pairs →
        ToldApart (.map pairs) o (.list (Tree.row pairs)) o := by
  refine ⟨fun t => ⟨?accepted, fun h => ⟨_, foldTreeOn_eq h.2 h.1⟩⟩,
    fun t ht hdepth seed hseed => ?seeds, fun t ht hdepth t' hchanges ho => ?changes,
    fun pairs hpairs hrow hdepth hkeeps => ?rows⟩
  case accepted =>
    rintro ⟨d, hfold⟩
    exact (foldTreeOn_eq_ok_iff.mp hfold).1
  case seeds =>
    refine .intro ht hdepth ht hdepth fun heq => hseed ?_
    exact (Digest.mk.inj (Digest.foldl_absorb_inj heq)).symm
  case changes =>
    refine .intro ht hdepth (hchanges.countable.mp ht) (hchanges.depth_le.mp hdepth) ?_
    rw [Tree.digest, Tree.digest, ho]
    exact hchanges.oneApart.foldl_ne _
  case rows =>
    exact .intro (Tree.countable_of_row hrow) hdepth hrow (by rwa [Tree.depth_row])
      (Tree.digest_row_ne hpairs hrow hkeeps)

/-- Another seed, another letter in a key, and a map that is sorted beside its row. -/
theorem digest_detects_changes_pair :
    ToldApart (.map [([0x61], .uint 1)]) {} (.map [([0x61], .uint 1)]) { seed := 7 } ∧
    ToldApart (.map [([0x61], .uint 1)]) {} (.map [([0x62], .uint 1)]) {} ∧
    ToldApart (.map [([0x61], .uint 1), ([0x62], .null)]) { keyOrder := .sorted }
      (.list [.text [0x61], .uint 1, .text [0x62], .null]) { keyOrder := .sorted } := by
  have hcountable : (Tree.map [([0x61], .uint 1)]).Countable := by
    simp [Tree.Countable, Tree.All, Tree.AllPairs, Tree.entries]
  have hrow : (Tree.list (Tree.row [([0x61], .uint 1), ([0x62], .null)])).Countable := by
    simp [Tree.row, Tree.Countable, Tree.All, Tree.AllItems, Tree.entries]
  have hletter : TextChange [0x61] [0x62] := .word 0 rfl (by decide) rfl rfl
  obtain ⟨-, hseeds, hchanges, -⟩ := digest_detects_changes {}
  obtain ⟨-, -, -, hrows⟩ := digest_detects_changes { keyOrder := .sorted }
  exact ⟨hseeds _ hcountable (by decide) 7 (by decide),
    hchanges _ hcountable (by decide) _ (.key [] [] _ hletter) rfl,
    hrows _ (List.cons_ne_nil _ _) hrow (by decide) fun _ => by simp +decide⟩

/-- **Where pairs are sorted, a map and the list of its keys and values can meet.** -/
theorem map_meets_row_sorted :
    foldTree (.map [([0x62], .int 2199), ([0x61], .int 34301)]) { keyOrder := .sorted } =
        .ok ⟨0xE3C3338E⟩ ∧
      foldTree (.list [.text [0x62], .int 2199, .text [0x61], .int 34301])
        { keyOrder := .sorted } = .ok ⟨0xE3C3338E⟩ := by
  have hrow : (Tree.list [.text [0x62], .int 2199, .text [0x61], .int 34301]).Countable := by
    simp [Tree.Countable, Tree.All, Tree.AllItems, Tree.entries]
  have hmap : (Tree.map [([0x62], .int 2199), ([0x61], .int 34301)]).Countable :=
    Tree.countable_of_row hrow
  have hsorted : (Tree.map [([0x62], .int 2199), ([0x61], .int 34301)]).absorbed .sorted =
      [.bytes [0x61], .int 34301, .bytes [0x62], .int 2199, .count 2] := by
    simp +decide [Tree.absorbed, KeyOrder.primitives, KeyOrder.arrange, Tree.absorbedPairs,
      List.mergeSort]
  refine ⟨foldTreeOn_eq_ok_iff.mpr ⟨⟨hmap, by decide⟩, ?_⟩,
    foldTreeOn_eq_ok_iff.mpr ⟨⟨hrow, by decide⟩, ?_⟩⟩
  · rw [Tree.digest, hsorted]
    decide +kernel
  · decide +kernel

end TreeDigest
