import Mathlib.Data.List.Basic
import TreeDigest.Proofs.MessagePack.RoundTrip

/-!
# The tags of a tree

A tree is a row of tags, a container's before those of its entries, and on both sides
of it there are heads. The form of a tree is the row of the heads that a writer has
for its tags. An input that is read as the tree is a row of heads that say its tags,
each in the width and the precision that it happens to have.
-/

namespace TreeDigest.MessagePack

mutual

/-- The tags of a tree, a container's before those of its entries. -/
def tags : Tree → List Tag
  | .null => [.null]
  | .bool b => [.bool b]
  | .int i => [.int i]
  | .uint u => [.uint u]
  | .double bits => [.double bits]
  | .text octets => [.text octets]
  | .list items => .array items.length.toUInt32 :: tagsOfItems items
  | .map pairs => .map pairs.length.toUInt32 :: tagsOfPairs pairs

def tagsOfItems : List Tree → List Tag
  | [] => []
  | item :: items => tags item ++ tagsOfItems items

def tagsOfPairs : List (Bytes × Tree) → List Tag
  | [] => []
  | (k, value) :: pairs => (.text k :: tags value) ++ tagsOfPairs pairs

end

theorem tagsOfItems_eq (items : List Tree) : tagsOfItems items = items.flatMap tags := by
  induction items with
  | nil => rfl
  | cons item items ih => rw [tagsOfItems, ih, List.flatMap_cons]

theorem tagsOfPairs_eq (pairs : List (Bytes × Tree)) :
    tagsOfPairs pairs = pairs.flatMap fun kv => .text kv.1 :: tags kv.2 := by
  induction pairs with
  | nil => rfl
  | cons pair pairs ih => rw [tagsOfPairs, ih, List.flatMap_cons]

/-- What a tree keeps of a tag: it has one precision only. -/
def Tag.kept : Tag → Tag
  | .single bits => .double (Binary.widen bits)
  | t => t

/-- The head that a writer has for a tag. -/
def tagForm (widths : Widths) : Tag → Bytes
  | .null => nullForm
  | .bool b => boolForm b
  | .int i => intForm widths i
  | .uint u => uintForm widths u
  | .single bits => doubleForm (Binary.widen bits)
  | .double bits => doubleForm bits
  | .text octets => textForm widths octets
  | .array count => arrayForm widths count
  | .map count => mapForm widths count

variable {widths : Widths} {limit levels : Nat} {c c' c'' : Cursor} {t : Tree}

theorem tagForm_kept (tag : Tag) : tagForm widths tag.kept = tagForm widths tag := by
  cases tag <;> rfl

/-- There is a tag for each node and for each key. -/
theorem length_tags_eq_size (t : Tree) : (tags t).length = t.size := by
  induction t using Tree.induct with
  | scalar t hscalar =>
    cases t with
    | list items => exact Bool.noConfusion hscalar
    | map pairs => exact Bool.noConfusion hscalar
    | _ => rfl
  | list items ih =>
    rw [tags, tagsOfItems_eq, List.length_cons, List.length_flatMap, List.map_congr_left ih,
      Tree.size_list, Nat.add_comm]
  | map pairs ih =>
    have hpair : ∀ kv ∈ pairs, (Tag.text kv.1 :: tags kv.2).length = 1 + kv.2.size := fun kv hkv => by
      rw [List.length_cons, ih kv hkv, Nat.add_comm]
    rw [tags, tagsOfPairs_eq, List.length_cons, List.length_flatMap, List.map_congr_left hpair,
      Tree.size_map, Nat.add_comm]

/-- The form of a tree is the heads of its tags. -/
theorem form_eq_tags (t : Tree) : form widths t = (tags t).flatMap (tagForm widths) := by
  induction t using Tree.induct with
  | scalar t hscalar =>
    cases t with
    | list items => exact Bool.noConfusion hscalar
    | map pairs => exact Bool.noConfusion hscalar
    | _ => exact (List.flatMap_singleton ..).symm
  | list items ih =>
    rw [form, formItems_eq, tags, tagsOfItems_eq, List.flatMap_cons, List.flatMap_assoc]
    exact congrArg _ (List.flatMap_congr ih)
  | map pairs ih =>
    rw [form, formPairs_eq, tags, tagsOfPairs_eq, List.flatMap_cons, List.flatMap_assoc]
    refine congrArg _ (List.flatMap_congr fun kv hkv => ?_)
    rw [List.flatMap_cons, ih kv hkv, tagForm]

/-! ## What was read -/

/-- Between two places lie heads of which a tree keeps certain tags. -/
def TakesHeads (c : Cursor) (kept : List Tag) (c' : Cursor) : Prop :=
  ∃ said bytes markers, Heads said bytes markers ∧ said.map Tag.kept = kept ∧ c.Takes bytes c'

namespace TakesHeads

variable {kept kept' : List Tag}

theorem nil (c : Cursor) : TakesHeads c [] c := ⟨[], [], [], .nil, rfl, .refl c⟩

theorem append (h : TakesHeads c kept c') (h' : TakesHeads c' kept' c'') :
    TakesHeads c (kept ++ kept') c'' := by
  obtain ⟨said, bytes, markers, hheads, rfl, htaken⟩ := h
  obtain ⟨said', bytes', markers', hheads', rfl, htaken'⟩ := h'
  exact ⟨_, _, _, hheads.append hheads', List.map_append, htaken.trans htaken'⟩

theorem tag {tag : Tag} (h : MessagePack.tag c = .ok tag c') : TakesHeads c [tag.kept] c' := by
  obtain ⟨marker, body, hhead, htaken⟩ := tag_ok h
  refine ⟨[tag], marker :: body, [marker], ?_, rfl, htaken⟩
  have hheads := Heads.cons hhead .nil
  rwa [List.append_nil] at hheads

/-- The results of a loop were said one after the other. -/
theorem collects {α : Type} {step : Reader α} {say : α → List Tag} {xs : List α}
    (h : Steps.Collects step c xs c')
    (hstep : ∀ {c x c'}, step c = .ok x c' → TakesHeads c (say x) c') :
    TakesHeads c (xs.flatMap say) c' := by
  induction h with
  | nil => exact nil _
  | cons hx _ ih =>
    rw [List.flatMap_cons]
    exact (hstep hx).append ih

end TakesHeads

/-- A string was said by a head whose length fits 32 bits. -/
theorem tag_text_short {octets : Bytes} (h : tag c = .ok (.text octets) c') :
    octets.length < 0x100000000 := by
  obtain ⟨marker, body, hhead, -⟩ := tag_ok h
  cases hhead with
  | fixText _ _ hlength =>
    have := (marker &&& 0x1F).toNat_lt
    omega
  | @text _ width _ hmarker hlt =>
    have hle : ∀ p ∈ textWidths, Bytes.capacity p.2 ≤ 0x100000000 := by decide
    exact Nat.lt_of_lt_of_le hlt (hle _ hmarker)

theorem key_ok {k : Bytes} (h : key c = .ok k c') : tag c = .ok (.text k) c' := by
  obtain ⟨offset, c₀, hoffset, h⟩ := Steps.bind_eq_ok_iff.mp h
  obtain ⟨rfl, rfl⟩ := Reader.offset_ok hoffset
  obtain ⟨t, c₁, htag, h⟩ := Steps.bind_eq_ok_iff.mp h
  cases t <;> cases h
  exact htag

/-- What a pair of an input is, if its value is a tree of a kind. -/
theorem readPair_takes {value : Reader Tree} {kv : Bytes × Tree}
    (hvalue : ∀ {c t c'}, value c = .ok t c' → t.Short ∧ TakesHeads c (tags t) c')
    (h : readPair value c = .ok kv c') :
    (kv.1.length < 0x100000000 ∧ kv.2.Short) ∧ TakesHeads c (.text kv.1 :: tags kv.2) c' := by
  obtain ⟨k, c₁, hkey, h⟩ := Steps.bind_eq_ok_iff.mp h
  obtain ⟨t, c₂, ht, h⟩ := Steps.bind_eq_ok_iff.mp h
  cases h
  obtain ⟨hshort, hheads⟩ := hvalue ht
  have htag := key_ok hkey
  exact ⟨⟨tag_text_short htag, hshort⟩, (TakesHeads.tag htag).append hheads⟩

/-- **A tree was read from heads that say its tags, and its lengths fit 32 bits.** -/
theorem read_takes (h : read limit levels c = .ok t c') : t.Short ∧ TakesHeads c (tags t) c' := by
  induction levels generalizing c c' t with
  | zero =>
    rw [read] at h
    obtain ⟨tag, c₁, htag, h⟩ := Steps.bind_eq_ok_iff.mp h
    cases tag with
    | array count => cases h
    | map count => cases h
    | text octets => cases h; exact ⟨tag_text_short htag, .tag htag⟩
    | _ => cases h; exact ⟨trivial, .tag htag⟩
  | succ levels ih =>
    rw [read] at h
    obtain ⟨tag, c₁, htag, h⟩ := Steps.bind_eq_ok_iff.mp h
    cases tag with
    | array count =>
      obtain ⟨_, c₂, hclaim, h⟩ := Steps.bind_eq_ok_iff.mp h
      obtain ⟨items, c₃, hitems, h⟩ := Steps.bind_eq_ok_iff.mp h
      cases h
      obtain ⟨-, rfl⟩ := Reader.need_eq_ok_iff.mp hclaim
      obtain ⟨hlen, hruns⟩ := Steps.collect_eq_ok_iff.mp hitems
      refine ⟨Tree.short_list.mpr ⟨hlen ▸ count.toNat_lt, hruns.forall fun hx => (ih hx).1⟩, ?_⟩
      have hheads := (TakesHeads.tag htag).append (.collects hruns fun hx => (ih hx).2)
      rwa [tags, tagsOfItems_eq, hlen, show count.toNat.toUInt32 = count from UInt32.ofNat_toNat]
    | map count =>
      obtain ⟨_, c₂, hclaim, h⟩ := Steps.bind_eq_ok_iff.mp h
      obtain ⟨pairs, c₃, hpairs, h⟩ := Steps.bind_eq_ok_iff.mp h
      cases h
      obtain ⟨-, rfl⟩ := Reader.need_eq_ok_iff.mp hclaim
      obtain ⟨hlen, hruns⟩ := Steps.collect_eq_ok_iff.mp hpairs
      have hall := hruns.forall fun hx => (readPair_takes ih hx).1
      refine ⟨Tree.short_map.mpr ⟨⟨hlen ▸ count.toNat_lt, fun kv hkv => (hall kv hkv).1⟩,
        fun kv hkv => (hall kv hkv).2⟩, ?_⟩
      have hheads := (TakesHeads.tag htag).append
        (.collects hruns fun hx => (readPair_takes ih hx).2)
      rwa [tags, tagsOfPairs_eq, hlen, show count.toNat.toUInt32 = count from UInt32.ofNat_toNat]
    | text octets => cases h; exact ⟨tag_text_short htag, .tag htag⟩
    | _ => cases h; exact ⟨trivial, .tag htag⟩

/-- **An input that is read is a row of heads that say the tags of the tree.** -/
theorem readTree_takes {input : Bytes} (h : readTree input limit = .ok t) :
    t.Short ∧ ∃ said markers, Heads said input markers ∧ said.map Tag.kept = tags t := by
  obtain ⟨c, hread, hend⟩ := Reader.whole_ok h
  obtain ⟨hshort, said, bytes, markers, hheads, hkept, htaken⟩ := read_takes hread
  obtain rfl := htaken.whole hend
  exact ⟨hshort, said, markers, hheads, hkept⟩

/-- Each node and each key of a tree that is read takes an octet at least. -/
theorem size_le_of_read {input : Bytes} (h : readTree input limit = .ok t) :
    t.size ≤ input.length := by
  obtain ⟨-, said, markers, hheads, hkept⟩ := readTree_takes h
  have hle := hheads.length_le
  rwa [← List.length_map, hkept, length_tags_eq_size] at hle

end TreeDigest.MessagePack
