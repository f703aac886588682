import Mathlib.Data.List.Forall2
import TreeDigest.Proofs.Input.Drives
import TreeDigest.Proofs.MessagePack.Inverse

/-!
# Spelled trees

A tree can be spelled in many ways, since a head leaves open how wide it is and whether
an integer is signed. `Spells` makes each of these choices at each node apart, and it has
no reader in it.

The tree reader is sound and complete for it. What is spelled is read, but for the
signedness of integers, which is that of their heads; and what is read is spelled. So the
digest of an input is that of every tree it spells.
-/

namespace TreeDigest.MessagePack

open Reader (Reads)

mutual

/-- Octets are a tree, each part of it in any form that holds the part. -/
inductive Spells : Tree → Bytes → Prop
  | null {marker : UInt8} {body : Bytes} : Head marker body .null → Spells .null (marker :: body)
  | bool {b : Bool} {marker : UInt8} {body : Bytes} : Head marker body (.bool b) →
      Spells (.bool b) (marker :: body)
  | int {i : Int64} {n : Integer} {marker : UInt8} {body : Bytes} : n.value = i.toInt →
      Head marker body (integerTag n) → Spells (.int i) (marker :: body)
  | uint {u : UInt64} {n : Integer} {marker : UInt8} {body : Bytes} : n.value = u.toNat →
      Head marker body (integerTag n) → Spells (.uint u) (marker :: body)
  | single {bits : UInt32} {marker : UInt8} {body : Bytes} : Head marker body (.single bits) →
      Spells (.double (Binary.widen bits)) (marker :: body)
  | double {bits : UInt64} {marker : UInt8} {body : Bytes} : Head marker body (.double bits) →
      Spells (.double bits) (marker :: body)
  | text {octets : Bytes} {marker : UInt8} {body : Bytes} : Head marker body (.text octets) →
      Spells (.text octets) (marker :: body)
  | list {items : List Tree} {count : UInt32} {marker : UInt8} {body content : Bytes} :
      count.toNat = items.length → Head marker body (.array count) → SpellsItems items content →
      Spells (.list items) (marker :: body ++ content)
  | map {pairs : List (Bytes × Tree)} {count : UInt32} {marker : UInt8} {body content : Bytes} :
      count.toNat = pairs.length → Head marker body (.map count) → SpellsPairs pairs content →
      Spells (.map pairs) (marker :: body ++ content)

/-- Octets are trees, one after the other. -/
inductive SpellsItems : List Tree → Bytes → Prop
  | nil : SpellsItems [] []
  | cons {item : Tree} {items : List Tree} {bytes content : Bytes} : Spells item bytes →
      SpellsItems items content → SpellsItems (item :: items) (bytes ++ content)

/-- Octets are keys, each with a tree after it. -/
inductive SpellsPairs : List (Bytes × Tree) → Bytes → Prop
  | nil : SpellsPairs [] []
  | cons {key : Bytes} {value : Tree} {pairs : List (Bytes × Tree)} {marker : UInt8}
      {body bytes content : Bytes} : Head marker body (.text key) → Spells value bytes →
      SpellsPairs pairs content →
      SpellsPairs ((key, value) :: pairs) (marker :: body ++ bytes ++ content)

end

variable {limit levels : Nat} {c c' : Cursor} {t : Tree} {bytes content input : Bytes}
  {items : List Tree} {pairs : List (Bytes × Tree)} {o : FoldOptions}

/-! ## What is spelled is read -/

/-- Trees that differ in the signedness of integers at most. -/
def SameValues (t t' : Tree) : Prop := t.mapIntegers .toSigned = t'.mapIntegers .toSigned

/-- Octets are read as a tree wherever there are levels enough. -/
structure ReadAs (bytes : Bytes) (t : Tree) : Prop where
  reads : ∀ {limit levels : Nat}, t.depth ≤ levels → (read limit levels).Reads bytes t
  pos : 0 < bytes.length

/-- Octets are read as a tree with the values of another. -/
def ReadFor (t : Tree) (bytes : Bytes) : Prop := ∃ t', SameValues t' t ∧ ReadAs bytes t'

theorem sameValues_tree {m n : Integer} (h : m.value = n.value) : SameValues m.tree n.tree := by
  rw [SameValues, Tree.mapIntegers_tree, Tree.mapIntegers_tree, Integer.toSigned_inj h]

/-- The tree that a head is with nothing behind it. -/
def Tag.scalar : Tag → Option Tree
  | .null => some .null
  | .bool b => some (.bool b)
  | .int i => some (.int i)
  | .uint u => some (.uint u)
  | .single bits => some (.double (Binary.widen bits))
  | .double bits => some (.double bits)
  | .text octets => some (.text octets)
  | .array _ | .map _ => none

theorem ReadAs.head {marker : UInt8} {body : Bytes} {tag : Tag} (h : Head marker body tag)
    (htag : tag.scalar = some t) : ReadAs (marker :: body) t where
  reads _ := by
    unfold read
    cases tag <;> cases htag <;> exact .bind_last (head_reads h) .pure
  pos := Nat.succ_pos _

theorem Spells.readFor_scalar (h : Spells t bytes) (ht : t.isContainer = false) :
    ReadFor t bytes := by
  have hinteger : ∀ n : Integer, (integerTag n).scalar = some n.tree := fun n => by cases n <;> rfl
  cases h with
  | null hhead => exact ⟨_, rfl, .head hhead rfl⟩
  | bool hhead => exact ⟨_, rfl, .head hhead rfl⟩
  | @int i n _ _ hvalue hhead =>
    exact ⟨n.tree, @sameValues_tree n (.signed i) hvalue, .head hhead (hinteger n)⟩
  | @uint u n _ _ hvalue hhead =>
    exact ⟨n.tree, @sameValues_tree n (.unsigned u) hvalue, .head hhead (hinteger n)⟩
  | single hhead => exact ⟨_, rfl, .head hhead rfl⟩
  | double hhead => exact ⟨_, rfl, .head hhead rfl⟩
  | text hhead => exact ⟨_, rfl, .head hhead rfl⟩
  | list => exact Bool.noConfusion ht
  | map => exact Bool.noConfusion ht

/-! ### Entries

The trees that are read for the entries of a container, each with its octets.
-/

theorem SpellsItems.parts (h : SpellsItems items content)
    (hread : ∀ t ∈ items, ∀ bytes, Spells t bytes → ReadFor t bytes) :
    ∃ parts : List (Bytes × Tree), parts.flatMap (·.1) = content ∧
      List.Forall₂ SameValues (parts.map (·.2)) items ∧ ∀ part ∈ parts, ReadAs part.1 part.2 := by
  induction items generalizing content with
  | nil =>
    cases h
    exact ⟨[], rfl, .nil, nofun⟩
  | cons item items ih =>
    rw [List.forall_mem_cons] at hread
    cases h with
    | @cons _ _ bytes _ hitem hitems =>
      obtain ⟨t, hsame, ht⟩ := hread.1 bytes hitem
      obtain ⟨parts, rfl, hparts, hall⟩ := ih hitems hread.2
      exact ⟨(bytes, t) :: parts, rfl, .cons hsame hparts, List.forall_mem_cons.mpr ⟨ht, hall⟩⟩

/-- What is read for an entry of a map, with its octets: those of a key and those of a tree. -/
structure ReadPair (part : Bytes × Bytes × Tree) : Prop where
  reads : ∀ {limit levels : Nat}, part.2.2.depth ≤ levels →
    (readPair (read limit levels)).Reads part.1 part.2
  two_le : 2 ≤ part.1.length

theorem ReadPair.of_head {marker : UInt8} {body k : Bytes} (hkey : Head marker body (.text k))
    (h : ReadAs bytes t) : ReadPair (marker :: body ++ bytes, k, t) where
  reads hdepth := by
    have hread : key.Reads (marker :: body) k :=
      .offset_bind fun _ => .bind_last (head_reads hkey) .pure
    exact hread.bind (h.reads hdepth).map
  two_le := by
    have hpos := h.pos
    rw [List.length_append, List.length_cons]
    omega

theorem SpellsPairs.parts (h : SpellsPairs pairs content)
    (hread : ∀ kv ∈ pairs, ∀ bytes, Spells kv.2 bytes → ReadFor kv.2 bytes) :
    ∃ parts : List (Bytes × Bytes × Tree), parts.flatMap (·.1) = content ∧
      List.Forall₂ (fun kv kv' => kv.1 = kv'.1 ∧ SameValues kv.2 kv'.2) (parts.map (·.2)) pairs ∧
      ∀ part ∈ parts, ReadPair part := by
  induction pairs generalizing content with
  | nil =>
    cases h
    exact ⟨[], rfl, .nil, nofun⟩
  | cons kv pairs ih =>
    rw [List.forall_mem_cons] at hread
    cases h with
    | @cons k _ _ marker body bytes _ hkey hvalue hpairs =>
      obtain ⟨t, hsame, ht⟩ := hread.1 bytes hvalue
      obtain ⟨parts, rfl, hparts, hall⟩ := ih hpairs hread.2
      exact ⟨(marker :: body ++ bytes, k, t) :: parts, rfl, .cons ⟨rfl, hsame⟩ hparts,
        List.forall_mem_cons.mpr ⟨.of_head hkey ht, hall⟩⟩

/-! ### Trees -/

theorem SameValues.list {items' : List Tree} (h : List.Forall₂ SameValues items' items) :
    SameValues (.list items') (.list items) := by
  rw [SameValues, Tree.mapIntegers_list, Tree.mapIntegers_list]
  refine congrArg Tree.list ?_
  induction h with
  | nil => rfl
  | cons hitem _ ih => rw [List.map_cons, List.map_cons, hitem, ih]

theorem SameValues.map {pairs' : List (Bytes × Tree)}
    (h : List.Forall₂ (fun kv kv' => kv.1 = kv'.1 ∧ SameValues kv.2 kv'.2) pairs' pairs) :
    SameValues (.map pairs') (.map pairs) := by
  rw [SameValues, Tree.mapIntegers_map, Tree.mapIntegers_map]
  refine congrArg Tree.map ?_
  induction h with
  | nil => rfl
  | cons hpair _ ih => rw [List.map_cons, List.map_cons, hpair.1, hpair.2, ih]

/-- **What is spelled is read, but for the signedness of integers.** -/
theorem Spells.readFor (h : Spells t bytes) : ReadFor t bytes := by
  induction t using Tree.induct generalizing bytes with
  | scalar t ht => exact h.readFor_scalar ht
  | list items ih =>
    cases h with
    | @list _ count marker body content hcount hhead hitems =>
      obtain ⟨parts, rfl, hsame, hparts⟩ := hitems.parts fun t ht _ h => ih t ht h
      have hlen : (parts.map (·.2)).length = count.toNat := by rw [hsame.length_eq, hcount]
      refine ⟨.list (parts.map (·.2)), .list hsame, fun {limit levels} hdepth => ?_, Nat.succ_pos _⟩
      obtain ⟨levels, rfl, hdepths⟩ := Tree.exists_of_depth_list_le hdepth
      rw [read]
      refine .bind (head_reads hhead) ?_
      dsimp only
      rw [List.length_map] at hlen
      rw [claim, ← hlen]
      -- an item has its marker at least, so there are as many octets left as there are items
      refine .need_bind (Bytes.length_entries fun part hpart => (hparts part hpart).pos) (.map ?_)
      exact .collect fun part hpart =>
        (hparts part hpart).reads (hdepths _ (List.mem_map_of_mem hpart))
  | map pairs ih =>
    cases h with
    | @map _ count marker body content hcount hhead hpairs =>
      obtain ⟨parts, rfl, hsame, hparts⟩ := hpairs.parts fun kv hkv _ h => ih kv hkv h
      have hlen : (parts.map (·.2)).length = count.toNat := by rw [hsame.length_eq, hcount]
      refine ⟨.map (parts.map (·.2)), .map hsame, fun {limit levels} hdepth => ?_, Nat.succ_pos _⟩
      obtain ⟨levels, rfl, hdepths⟩ := Tree.exists_of_depth_map_le hdepth
      rw [read]
      refine .bind (head_reads hhead) ?_
      dsimp only
      rw [List.length_map] at hlen
      rw [claim, ← hlen]
      refine .need_bind (Bytes.length_entries fun part hpart => (hparts part hpart).two_le)
        (.map ?_)
      exact .collect fun part hpart =>
        (hparts part hpart).reads (hdepths _ (List.mem_map_of_mem hpart))

/-! ## What is read is spelled -/

/-- Octets that are a tree lie between two places. -/
def TakesTree (c : Cursor) (t : Tree) (c' : Cursor) : Prop :=
  ∃ bytes, Spells t bytes ∧ c.Takes bytes c'

theorem items_spelled {step : Reader Tree} (h : Steps.Collects step c items c')
    (hstep : ∀ {c t c'}, step c = .ok t c' → TakesTree c t c') :
    ∃ content, SpellsItems items content ∧ c.Takes content c' := by
  induction h with
  | nil => exact ⟨[], .nil, .refl _⟩
  | cons hitem _ ih =>
    obtain ⟨bytes, hspells, htaken⟩ := hstep hitem
    obtain ⟨content, hitems, hrest⟩ := ih
    exact ⟨bytes ++ content, .cons hspells hitems, htaken.trans hrest⟩

theorem pairs_spelled {value : Reader Tree} (h : Steps.Collects (readPair value) c pairs c')
    (hvalue : ∀ {c t c'}, value c = .ok t c' → TakesTree c t c') :
    ∃ content, SpellsPairs pairs content ∧ c.Takes content c' := by
  induction h with
  | nil => exact ⟨[], .nil, .refl _⟩
  | cons hpair _ ih =>
    obtain ⟨k, c₁, hkey, hpair⟩ := Steps.bind_eq_ok_iff.mp hpair
    obtain ⟨t, c₂, ht, hpair⟩ := Steps.bind_eq_ok_iff.mp hpair
    cases hpair
    obtain ⟨marker, body, hhead, hkeyTaken⟩ := tag_ok (key_ok hkey)
    obtain ⟨bytes, hspells, htaken⟩ := hvalue ht
    obtain ⟨content, hpairs, hrest⟩ := ih
    exact ⟨marker :: body ++ bytes ++ content, .cons hhead hspells hpairs,
      (hkeyTaken.trans htaken).trans hrest⟩

theorem scalar_spelled {tag : Tag} (h : MessagePack.tag c = .ok tag c')
    (htag : tag.scalar = some t) : TakesTree c t c' := by
  obtain ⟨marker, body, hhead, htaken⟩ := tag_ok h
  refine ⟨marker :: body, ?_, htaken⟩
  cases tag with
  | null => cases htag; exact .null hhead
  | bool b => cases htag; exact .bool hhead
  | int i => cases htag; exact @Spells.int i (.signed i) _ _ rfl hhead
  | uint u => cases htag; exact @Spells.uint u (.unsigned u) _ _ rfl hhead
  | single bits => cases htag; exact .single hhead
  | double bits => cases htag; exact .double hhead
  | text octets => cases htag; exact .text hhead
  | array count => cases htag
  | map count => cases htag

/-- **A tree is read from octets that spell it.** -/
theorem read_spelled (h : read limit levels c = .ok t c') : TakesTree c t c' := by
  induction levels generalizing c c' t with
  | zero =>
    rw [read] at h
    obtain ⟨tag, c₁, htag, h⟩ := Steps.bind_eq_ok_iff.mp h
    cases tag <;> cases h <;> exact scalar_spelled htag rfl
  | succ levels ih =>
    rw [read] at h
    obtain ⟨tag, c₁, htag, h⟩ := Steps.bind_eq_ok_iff.mp h
    cases tag with
    | array count =>
      obtain ⟨_, c₂, hclaim, h⟩ := Steps.bind_eq_ok_iff.mp h
      obtain ⟨items, c₃, hitems, h⟩ := Steps.bind_eq_ok_iff.mp h
      cases h
      obtain ⟨-, rfl⟩ := Reader.need_eq_ok_iff.mp hclaim
      obtain ⟨hlen, hruns⟩ := Steps.collect_eq_ok_iff.mp hitems
      obtain ⟨marker, body, hhead, htaken⟩ := tag_ok htag
      obtain ⟨content, hspelled, hcontent⟩ := items_spelled hruns ih
      exact ⟨_, .list hlen.symm hhead hspelled, htaken.trans hcontent⟩
    | map count =>
      obtain ⟨_, c₂, hclaim, h⟩ := Steps.bind_eq_ok_iff.mp h
      obtain ⟨pairs, c₃, hpairs, h⟩ := Steps.bind_eq_ok_iff.mp h
      cases h
      obtain ⟨-, rfl⟩ := Reader.need_eq_ok_iff.mp hclaim
      obtain ⟨hlen, hruns⟩ := Steps.collect_eq_ok_iff.mp hpairs
      obtain ⟨marker, body, hhead, htaken⟩ := tag_ok htag
      obtain ⟨content, hspelled, hcontent⟩ := pairs_spelled hruns ih
      exact ⟨_, .map hlen.symm hhead hspelled, htaken.trans hcontent⟩
    | _ => cases h; exact scalar_spelled htag rfl

/-! ## Whole inputs -/

theorem readTree_spelled (h : readTree input limit = .ok t) : Spells t input := by
  obtain ⟨c, hread, hend⟩ := Reader.whole_ok h
  obtain ⟨bytes, hspells, htaken⟩ := read_spelled hread
  exact htaken.whole hend ▸ hspells

namespace SameValues

theorem depth (h : SameValues t t') : t.depth = t'.depth := by
  rw [← Tree.depth_mapIntegers (g := .toSigned), h, Tree.depth_mapIntegers]

theorem countable (h : SameValues t t') : t.Countable ↔ t'.Countable := by
  rw [← Tree.countable_mapIntegers (g := .toSigned), h, Tree.countable_mapIntegers]

theorem digest (h : SameValues t t') (o : FoldOptions) : t.digest o = t'.digest o := by
  rw [← Tree.digest_mapIntegers Integer.value_toSigned, h,
    Tree.digest_mapIntegers Integer.value_toSigned]

end SameValues

/-- An input that spells a tree is read as one with its values, if that fits the limit. -/
theorem Spells.readTree (h : Spells t input) (hdepth : t.depth ≤ limit) :
    ∃ t', MessagePack.readTree input limit = .ok t' ∧ SameValues t' t := by
  obtain ⟨t', hsame, hread⟩ := h.readFor
  have hdepth' : t'.depth ≤ limit := hsame.depth ▸ hdepth
  exact ⟨t', (hread.reads hdepth').whole, hsame⟩

theorem Spells.decodeTree_eq (h : Spells t input) (o : FoldOptions) :
    t.Countable ∧ decodeTree input o = if t.depth ≤ o.depthLimit then .ok (t.digest o)
      else .error (.decode (.depthExceeded o.depthLimit)) := by
  obtain ⟨t', hread, hsame⟩ := h.readTree (Nat.le_refl _)
  refine ⟨hsame.countable.mp (readsTrees.countable hread), ?_⟩
  rw [decodeTree, readsTrees.fold_of_ok hread, ← hsame.depth, ← hsame.digest]

/--
**The readers accept the grammar and are blind to widths.** Every spelling of a tree is
decoded as the tree, whatever heads it has, and is read as the tree but for the signedness
of integers. And an input that is accepted is a spelling of a tree: of the one that is
read, and of one with the digest that is answered.
-/
theorem messagePack_reads_its_grammar {codec : Codec} (h : codec ∈ Codec.ofFormat .messagePack)
    (input : Bytes) :
    (∀ t, Spells t input → codec.Recovers input t ∧
      ∀ maxDepth, t.depth ≤ min maxDepth FoldOptions.depthCeiling →
        ∃ t', readValue input maxDepth = .ok t' ∧ SameValues t' t) ∧
    (∀ o digest, codec.decode input o = .ok digest →
      ∃ t, Spells t input ∧ foldTree t o = .ok digest) ∧
    ∀ maxDepth t, readValue input maxDepth = .ok t → Spells t input := by
  refine ⟨fun t hspells => ⟨?recovers, fun maxDepth hdepth => hspells.readTree hdepth⟩,
    fun o digest hok => ?accepted, fun maxDepth t hread => readTree_spelled hread⟩
  case recovers =>
    obtain ⟨hcountable, -⟩ := hspells.decodeTree_eq {}
    exact .of_eq_ite hcountable fun o => (decode_eq h input o).trans (hspells.decodeTree_eq o).2
  case accepted =>
    rw [decode_eq h, decodeTree] at hok
    cases hread : MessagePack.readTree input o.depthLimit with
    | ok t => rw [hread] at hok; exact ⟨t, readTree_spelled hread, hok⟩
    | error e => rw [hread] at hok; cases hok

/-- A wide list of a signed five, a binary letter and a number of single precision. -/
theorem messagePack_reads_its_grammar_mixed :
    (∃ digest,
      foldTree (.list [.uint 5, .text [0x61], .double (Binary.widen 0x3FC00000)]) {} = .ok digest ∧
      wide.decode [0xDC, 0, 3, 0xD1, 0, 5, 0xC4, 1, 0x61, 0xCA, 0x3F, 0xC0, 0, 0] {} =
        .ok digest) ∧
    ∃ t, readValue [0xDC, 0, 3, 0xD1, 0, 5, 0xC4, 1, 0x61, 0xCA, 0x3F, 0xC0, 0, 0] 1 = .ok t ∧
      SameValues t (.list [.uint 5, .text [0x61], .double (Binary.widen 0x3FC00000)]) ∧
      Spells t [0xDC, 0, 3, 0xD1, 0, 5, 0xC4, 1, 0x61, 0xCA, 0x3F, 0xC0, 0, 0] := by
  have hwide : wide ∈ Codec.ofFormat .messagePack := by simp [codecs_eq]
  have hfive : Spells (.uint 5) [0xD1, 0, 5] :=
    @Spells.uint 5 (.signed 5) _ _ rfl (@Head.int 0xD1 2 5 (by decide) (.two (by decide)))
  have hletter : Spells (.text [0x61]) [0xC4, 1, 0x61] :=
    .text (@Head.text 0xC4 1 [0x61] (by decide) (by decide))
  have hsingle : Spells (.double (Binary.widen 0x3FC00000)) [0xCA, 0x3F, 0xC0, 0, 0] :=
    .single (.single 0x3FC00000)
  have hspells : Spells (.list [.uint 5, .text [0x61], .double (Binary.widen 0x3FC00000)])
      [0xDC, 0, 3, 0xD1, 0, 5, 0xC4, 1, 0x61, 0xCA, 0x3F, 0xC0, 0, 0] :=
    @Spells.list _ 3 _ _ _ rfl (@Head.array 0xDC 2 3 (by decide) (by decide))
      (.cons hfive (.cons hletter (.cons hsingle .nil)))
  obtain ⟨hforward, -, hconverse⟩ := messagePack_reads_its_grammar hwide
    [0xDC, 0, 3, 0xD1, 0, 5, 0xC4, 1, 0x61, 0xCA, 0x3F, 0xC0, 0, 0]
  obtain ⟨t, hread, hsame⟩ := (hforward _ hspells).2 1 (by decide)
  exact ⟨(hforward _ hspells).1.within {} (by decide), t, hread, hsame, hconverse 1 t hread⟩

end TreeDigest.MessagePack
