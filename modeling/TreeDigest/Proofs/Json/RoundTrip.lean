import TreeDigest.Proofs.Fold.Arrival
import TreeDigest.Proofs.Input.Drives
import TreeDigest.Proofs.Json.Content
import TreeDigest.Proofs.Json.Requires
import TreeDigest.Proofs.Json.Token

/-!
# Reading JSON forms

The content of the form of a tree is the tree, except that an integer comes back as the
format has it: unsigned if it can be. So the reader that folds hands over the tree, and
what the other one builds is built of it. Neither kind of integer changes a digest. The
tree that is built has each key once besides, and that does change one, and a depth, of
a tree that has not.

A form is read in front of anything that can follow a value, and so the entries of a
container are read one after the other.
-/

namespace TreeDigest.Json

open TreeDigest.Json.Parser (Leads)
open Decoder (Drives)

variable {rest : Bytes} {levels : Nat} {f : Folder}

/-! ## Between entries -/

theorem follows_items (items : List Tree) (rest : Bytes) :
    Follows (layoutItems false items ++ 0x5D :: rest) := by
  cases items with
  | nil => rintro _ ⟨⟩; exact .inr (.inl rfl)
  | cons item items => rintro _ ⟨⟩; exact .inl rfl

theorem follows_pairs (pairs : List (Bytes × Tree)) (rest : Bytes) :
    Follows (layoutPairs false pairs ++ 0x7D :: rest) := by
  cases pairs with
  | nil => rintro _ ⟨⟩; exact .inr (.inr rfl)
  | cons pair pairs => rintro _ ⟨⟩; exact .inl rfl

theorem length_layout_pos {t : Tree} (ht : Expressible t) : 1 ≤ (layout t).length := by
  obtain ⟨b, tail, h, -⟩ := (opens_layout ht).head
  rw [h]
  exact Nat.succ_pos _

/-- No entry is empty, so a loop has room for all of them. -/
theorem length_layoutItems (isFirst : Bool) {items : List Tree} (h : ∀ t ∈ items, Expressible t) :
    items.length ≤ (layoutItems isFirst items).length := by
  induction items generalizing isFirst with
  | nil => exact Nat.zero_le _
  | cons item items ih =>
    rw [List.forall_mem_cons] at h
    have hitem := length_layout_pos h.1
    have hitems := ih false h.2
    rw [layoutItems, List.length_append, List.length_append, List.length_cons]
    omega

theorem length_layoutPairs (isFirst : Bool) (pairs : List (Bytes × Tree)) :
    pairs.length ≤ (layoutPairs isFirst pairs).length := by
  induction pairs generalizing isFirst with
  | nil => exact Nat.zero_le _
  | cons pair pairs ih =>
    have hpairs := ih false
    rw [layoutPairs]
    simp only [List.length_append, List.length_cons]
    omega

/-! ## Content -/

/-- A tree as a text says it: no integer is signed that need not be. -/
def said (t : Tree) : Tree := t.mapIntegers .toUnsigned

/-- One value is read, wherever it stands in a text. -/
def Readable (value : Parser Tree) (t : Tree) : Prop :=
  ∀ rest, Follows rest → value.Leads (layout t ++ rest) (said t) rest

theorem readItem_leads {value : Parser Tree} {item : Tree} {items : List Tree} {round : Nat}
    (ht : Expressible item) (h : Readable value item) :
    (readItem value round).Leads (layoutItems (round == 0) (item :: items) ++ 0x5D :: rest)
      (some (said item)) (layoutItems false items ++ 0x5D :: rest) := by
  rw [layoutItems, List.append_assoc, List.append_assoc]
  exact .bind (nextItem_item ((opens_layout ht).append _)) (.map (h _ (follows_items items rest)))

theorem readMember_leads {value : Parser Tree} {k : Bytes} {t : Tree} {pairs : List (Bytes × Tree)}
    {round : Nat} (hk : Utf8.isValid k = true) (h : Readable value t) :
    (readMember value round).Leads (layoutPairs (round == 0) ((k, t) :: pairs) ++ 0x7D :: rest)
      (some (k, said t)) (layoutPairs false pairs ++ 0x7D :: rest) := by
  simp only [layoutPairs, List.append_assoc]
  refine .bind nextKey_pair (.bind (key_leads hk) (.bind colon_leads ?_))
  exact .map (h _ (follows_pairs pairs rest))

/-- The items of a list are read one after the other, up to the bracket behind them. -/
theorem readItems_leads {value : Parser Tree} {items : List Tree} (ht : ∀ t ∈ items, Expressible t)
    (h : ∀ t ∈ items, Readable value t) :
    Leads (Loop.gather (readItem value) (layoutItems true items ++ 0x5D :: rest))
      (layoutItems true items ++ 0x5D :: rest) (items.map said) (0x5D :: rest) := by
  refine .gather (fun isFirst left => layoutItems isFirst left ++ 0x5D :: rest) ?_ ?_ ?_
  · intro seen item left hsplit
    have hmem : item ∈ items := by rw [hsplit]; simp
    exact readItem_leads (ht item hmem) (h item hmem)
  · exact .bind nextItem_end .pure
  · have := length_layoutItems true ht
    rw [List.length_append]
    omega

theorem readMembers_leads {value : Parser Tree} {pairs : List (Bytes × Tree)}
    (hkeys : ∀ kv ∈ pairs, Utf8.isValid kv.1 = true) (h : ∀ kv ∈ pairs, Readable value kv.2) :
    Leads (Loop.gather (readMember value) (layoutPairs true pairs ++ 0x7D :: rest))
      (layoutPairs true pairs ++ 0x7D :: rest) (pairs.map fun kv => (kv.1, said kv.2))
      (0x7D :: rest) := by
  refine .gather (fun isFirst left => layoutPairs isFirst left ++ 0x7D :: rest) ?_ ?_ ?_
  · intro seen kv left hsplit
    have hmem : kv ∈ pairs := by rw [hsplit]; simp
    exact readMember_leads (hkeys kv hmem) (h kv hmem)
  · exact .bind nextKey_end .pure
  · have := length_layoutPairs true pairs
    rw [List.length_append]
    omega

theorem content_of_int (i : Int64) :
    (if i.toInt < 0 then Number.negative i else .unsigned i.toUInt64).content = said (.int i) := by
  rw [said, Tree.mapIntegers, Integer.toUnsigned]
  by_cases hneg : i.toInt < 0
  · rw [if_pos hneg, if_neg (Int.not_le.mpr hneg)]
    rfl
  · rw [if_neg hneg, if_pos (Int.not_lt.mp hneg)]
    rfl

theorem readValue_scalar {t : Tree} {list object : Parser Tree} (ht : Expressible t)
    (hscalar : t.isContainer = false) : Readable (readValue list object) t := by
  intro rest hrest
  refine .bind (scalar_token ht hscalar hrest) ?_
  cases t with
  | list items => exact Bool.noConfusion hscalar
  | map pairs => exact Bool.noConfusion hscalar
  | int i =>
    rw [firstToken]
    dsimp only
    rw [content_of_int]
    exact .pure
  | _ => exact .pure

/-- **The form of a tree has the tree as its content.** -/
theorem readContent_leads {t : Tree} (ht : Expressible t) (hdepth : t.depth ≤ levels) :
    Readable (readContent levels) t := by
  induction t using Tree.induct generalizing levels with
  | scalar t hscalar => cases levels <;> exact readValue_scalar ht hscalar
  | list items ih =>
    intro rest hrest
    have hitems := expressible_list.mp ht
    obtain ⟨levels, rfl, hdepths⟩ := Tree.exists_of_depth_list_le hdepth
    have hreads : ∀ t ∈ items, Readable (readContent levels) t := fun t hmem =>
      ih t hmem (hitems t hmem) (hdepths t hmem)
    rw [said, Tree.mapIntegers_list, layout, List.cons_append, List.append_assoc, readContent]
    refine .bind listStart_token (.get_bind fun place => ?_)
    exact .bind (readItems_leads hitems hreads) (.bind listEnd_leads .pure)
  | map pairs ih =>
    intro rest hrest
    obtain ⟨hkeys, hpairs⟩ := expressible_map.mp ht
    obtain ⟨levels, rfl, hdepths⟩ := Tree.exists_of_depth_map_le hdepth
    have hreads : ∀ kv ∈ pairs, Readable (readContent levels) kv.2 := fun kv hmem =>
      ih kv hmem (hpairs kv hmem) (hdepths kv hmem)
    rw [said, Tree.mapIntegers_map, layout, List.cons_append, List.append_assoc, readContent]
    refine .bind objectStart_token (.get_bind fun place => ?_)
    exact .bind (readMembers_leads hkeys hreads) (.bind objectEnd_leads .pure)

/-- **A whole form has the tree as its content**, with all its pairs. -/
theorem content_layout {t : Tree} (ht : Expressible t) (hdepth : t.depth ≤ nestingCeiling) :
    content (layout t) = .ok (said t) := by
  have hread := readContent_leads ht hdepth [] .nil
  rw [List.append_nil] at hread
  have hstep : Leads (do let t ← readContent nestingCeiling; Parser.finished; return t) (layout t)
      (said t) [] := .bind hread (.bind finished_leads .pure)
  obtain ⟨_, hrun⟩ := hstep.apply ⟨1, 0⟩
  rw [content, Cursor.start, hrun]

/-! ## Folding -/

/-- A place in front of certain octets. -/
def Cursor.Before (input : Bytes) (c : Cursor) : Prop := c.rest = input

open TreeDigest.Json.Cursor (Before)

variable {codec : String}

/-- Where a parser leads, a decoder follows and hands over nothing. -/
theorem Parser.Leads.drives {α : Type} {parser : Parser α} {input : Bytes} {a : α}
    (h : parser.Leads input a rest) : (Direct.parse codec parser).Drives (Before input) f [] a (Before rest) :=
  .reading fun c hc => by
    obtain ⟨place, octets⟩ := c
    obtain rfl : octets = input := hc
    obtain ⟨place', h⟩ := h.apply place
    exact ⟨⟨place', rest⟩, rfl, h⟩

/-- All octets that are left. -/
theorem rest_drives {input : Bytes} : Direct.rest.Drives (Before input) f [] input (Before input) where
  apply c hc := by
    obtain rfl : c.rest = input := hc
    exact ⟨c, rfl, rfl⟩

/-- The events of a tree as they come from its form: nothing is counted. -/
def arrival (t : Tree) : List Event := t.arrival .toUnsigned false

/-- One value is handed over, wherever it stands in a text. -/
def Handed (value : Decoder Cursor Unit) (t : Tree) : Prop :=
  ∀ f rest, Follows rest → value.Drives (Before (layout t ++ rest)) f (arrival t) () (Before rest)

theorem foldNumber_of_int (i : Int64) :
    (Direct.foldNumber (if i.toInt < 0 then .negative i else .unsigned i.toUInt64)).Drives (Before rest) f
      (arrival (.int i)) () (Before rest) := by
  rw [arrival, Tree.arrival, Tree.mapIntegers, Integer.toUnsigned]
  by_cases hneg : i.toInt < 0
  · rw [if_pos hneg, if_neg (Int.not_le.mpr hneg)]
    exact .fold
  · rw [if_neg hneg, if_pos (Int.not_lt.mp hneg)]
    exact .fold

theorem foldItem_drives {value : Decoder Cursor Unit} {item : Tree} {items : List Tree} {round : Nat}
    (ht : Expressible item) (h : Handed value item) :
    (Direct.foldItem codec value round).Drives
      (Before (layoutItems (round == 0) (item :: items) ++ 0x5D :: rest)) f (arrival item) true
      (Before (layoutItems false items ++ 0x5D :: rest)) := by
  rw [layoutItems, List.append_assoc, List.append_assoc]
  refine .bind_nil (nextItem_item ((opens_layout ht).append _)).drives ?_
  exact .bind_last (h _ _ (follows_items items rest)) fun _ => .pure

theorem foldMember_drives {value : Decoder Cursor Unit} {k : Bytes} {t : Tree}
    {pairs : List (Bytes × Tree)} {round : Nat} (hk : Utf8.isValid k = true) (h : Handed value t) :
    (Direct.foldMember codec value round).Drives
      (Before (layoutPairs (round == 0) ((k, t) :: pairs) ++ 0x7D :: rest)) f (.key k :: arrival t) true
      (Before (layoutPairs false pairs ++ 0x7D :: rest)) := by
  simp only [layoutPairs, List.append_assoc]
  refine .bind_nil nextKey_pair.drives (.bind_nil (key_leads hk).drives (.fold_bind fun _ _ => ?_))
  refine .bind_nil colon_leads.drives ?_
  exact .bind_last (h _ _ (follows_pairs pairs rest)) fun _ => .pure

/-- After a round, the next one is not the first. -/
theorem length_append_beq_zero {α : Type} (seen : List α) (x : α) :
    ((seen ++ [x]).length == 0) = false := by
  rw [List.length_append]
  rfl

/-- The items of a list are handed over one after the other, up to the bracket behind them. -/
theorem foldItems_drives {value : Decoder Cursor Unit} {items : List Tree}
    (ht : ∀ t ∈ items, Expressible t) (h : ∀ t ∈ items, Handed value t) :
    Drives (Loop.rounds (Direct.foldItem codec value) 0 (layoutItems true items ++ 0x5D :: rest))
      (Before (layoutItems true items ++ 0x5D :: rest)) f (items.flatMap arrival) ()
      (Before (0x5D :: rest)) := by
  -- nothing has to be known of the folder
  refine .rounds (fun seen left => Before (layoutItems (seen.length == 0) left ++ 0x5D :: rest))
    (fun _ _ => True) ?_ (fun _ _ _ _ _ _ _ _ => trivial) (fun f => ?_) ?_ trivial
  · intro seen item left hsplit f _
    have hmem : item ∈ items := by rw [hsplit]; simp
    rw [length_append_beq_zero]
    exact foldItem_drives (ht item hmem) (h item hmem)
  · exact .bind_nil nextItem_end.drives .pure
  · have := length_layoutItems true ht
    rw [List.length_append]
    omega

theorem foldMembers_drives {value : Decoder Cursor Unit} {pairs : List (Bytes × Tree)}
    (hkeys : ∀ kv ∈ pairs, Utf8.isValid kv.1 = true) (h : ∀ kv ∈ pairs, Handed value kv.2) :
    Drives (Loop.rounds (Direct.foldMember codec value) 0 (layoutPairs true pairs ++ 0x7D :: rest))
      (Before (layoutPairs true pairs ++ 0x7D :: rest)) f
      (pairs.flatMap fun kv => .key kv.1 :: arrival kv.2) () (Before (0x7D :: rest)) := by
  refine .rounds (fun seen left => Before (layoutPairs (seen.length == 0) left ++ 0x7D :: rest))
    (fun _ _ => True) ?_ (fun _ _ _ _ _ _ _ _ => trivial) (fun f => ?_) ?_ trivial
  · intro seen kv left hsplit f _
    have hmem : kv ∈ pairs := by rw [hsplit]; simp
    rw [length_append_beq_zero]
    exact foldMember_drives (hkeys kv hmem) (h kv hmem)
  · exact .bind_nil nextKey_end.drives .pure
  · have := length_layoutPairs true pairs
    rw [List.length_append]
    omega

theorem fold_scalar {t : Tree} (ht : Expressible t) (hscalar : t.isContainer = false) :
    Handed (Direct.fold codec levels) t := by
  intro f rest hrest
  unfold Direct.fold
  refine .bind_nil (scalar_token ht hscalar hrest).drives ?_
  cases t with
  | list items => exact Bool.noConfusion hscalar
  | map pairs => exact Bool.noConfusion hscalar
  | int i => exact foldNumber_of_int i
  | _ => exact .fold

/-- **The form of a tree is handed over as the tree, its integers unsigned if they can be.** -/
theorem fold_handed {t : Tree} (ht : Expressible t) (hdepth : t.depth ≤ levels) :
    Handed (Direct.fold codec levels) t := by
  induction t using Tree.induct generalizing levels with
  | scalar t hscalar => exact fold_scalar ht hscalar
  | list items ih =>
    intro f rest hrest
    have hitems := expressible_list.mp ht
    obtain ⟨levels, rfl, hdepths⟩ := Tree.exists_of_depth_list_le hdepth
    have hhanded : ∀ t ∈ items, Handed (Direct.fold codec levels) t := fun t hmem =>
      ih t hmem (hitems t hmem) (hdepths t hmem)
    rw [arrival, Tree.arrival_list, layout, List.cons_append, List.append_assoc, Direct.fold]
    refine .bind_nil listStart_token.drives (.fold_bind fun _ _ => .bind_nil rest_drives ?_)
    refine .bind (foldItems_drives hitems hhanded) fun _ _ => ?_
    exact .bind_last .fold fun _ => listEnd_leads.drives
  | map pairs ih =>
    intro f rest hrest
    obtain ⟨hkeys, hpairs⟩ := expressible_map.mp ht
    obtain ⟨levels, rfl, hdepths⟩ := Tree.exists_of_depth_map_le hdepth
    have hhanded : ∀ kv ∈ pairs, Handed (Direct.fold codec levels) kv.2 := fun kv hmem =>
      ih kv hmem (hpairs kv hmem) (hdepths kv hmem)
    rw [arrival, Tree.arrival_map, layout, List.cons_append, List.append_assoc, Direct.fold]
    refine .bind_nil objectStart_token.drives (.fold_bind fun _ _ => .bind_nil rest_drives ?_)
    refine .bind (foldMembers_drives hkeys hhanded) fun _ _ => ?_
    exact .bind_last .fold fun _ => objectEnd_leads.drives

/-! ## Whole texts -/

variable {t : Tree} {o : FoldOptions} {e : Encoded}

/-- **What is encoded while it is folded is what is expressible and fits the limit.** -/
theorem encodeStream_eq_ok_iff :
    encodeStream codec t o = .ok e ↔ (Expressible t ∧ t.Countable) ∧ t.depth ≤ o.depthLimit ∧
      e = ⟨layout t, t.digest o⟩ := by
  constructor
  · intro hok
    rw [encodeStream_eq] at hok
    obtain ⟨ht, hcount, hdepth⟩ := (write_requires t).run hok
    rw [(write_encodes ht hcount).run hdepth] at hok
    cases hok
    exact ⟨⟨ht, hcount⟩, hdepth, rfl⟩
  · rintro ⟨⟨ht, hcount⟩, hdepth, rfl⟩
    rw [encodeStream_eq]
    exact (write_encodes ht hcount).run hdepth

/-- **What is folded first has its keys told apart besides.** -/
theorem encodeTree_eq_ok_iff :
    encodeTree codec t o = .ok e ↔ (Expressible t ∧ Distinct t ∧ t.Countable) ∧
      t.depth ≤ o.depthLimit ∧ e = ⟨layout t, t.digest o⟩ := by
  have hform : Expressible t → Distinct t → t.Countable → t.depth ≤ o.depthLimit →
      encodeTree codec t o = .ok ⟨layout t, t.digest o⟩ := by
    intro ht hdistinct hcount hdepth
    rw [encodeTree_of_check (check_ok ht hdistinct hcount (Folder.start_admits hdepth)),
      Folder.finish_start_foldedTree]
    rfl
  constructor
  · intro hok
    cases hcheck : check codec t (.start .encode o) with
    | error e folder => rw [encodeTree_of_check_error hcheck] at hok; cases hok
    | ok _ folder =>
      obtain ⟨ht, hdistinct, htree⟩ := check_requires t hcheck
      obtain ⟨hcount, hdepth⟩ := Folding.tree_start_ok htree
      rw [hform ht hdistinct hcount hdepth] at hok
      cases hok
      exact ⟨⟨ht, hdistinct, hcount⟩, hdepth, rfl⟩
  · rintro ⟨⟨ht, hdistinct, hcount⟩, hdepth, rfl⟩
    exact hform ht hdistinct hcount hdepth

/-- No text that was written has too many containers open at once to be read. -/
theorem depth_le_nestingCeiling (h : t.depth ≤ o.depthLimit) : t.depth ≤ nestingCeiling := by
  have hlimit : o.depthLimit ≤ FoldOptions.depthCeiling := Nat.min_le_right _ _
  exact Nat.le_trans (Nat.le_trans h hlimit) (by decide)

/-- **Its form decodes to its digest, or is too deep, folded while it is read.** -/
theorem decodeStream_form_eq (ht : Expressible t) (hcount : t.Countable)
    (hdepth : t.depth ≤ nestingCeiling) (o : FoldOptions) :
    decodeStream codec (layout t) o = if t.depth ≤ o.depthLimit then .ok (t.digest o)
      else .error (.decode (.depthExceeded o.depthLimit)) := by
  have hdrives : (Direct.fold codec nestingCeiling).Drives (Before (layout t ++ [])) (.start .decode o)
      (arrival t) () (Before []) := fold_handed ht hdepth _ [] .nil
  rw [List.append_nil] at hdrives
  have hstart : Before (layout t) (Cursor.start (layout t)) := rfl
  rw [decodeStream_eq, Direct.document, bind_assoc,
    hdrives.run hstart fun _ => finished_leads.drives]
  exact foldEvents_arrival Integer.value_toUnsigned hcount

/-- **Folded afterwards, what counts is the tree in which each key occurs once.** -/
theorem decodeTree_form_eq (ht : Expressible t) (hcount : t.Countable)
    (hdepth : t.depth ≤ nestingCeiling) (o : FoldOptions) :
    decodeTree codec (layout t) o = if (collapse t).depth ≤ o.depthLimit then
      .ok ((collapse t).digest o) else .error (.decode (.depthExceeded o.depthLimit)) := by
  rw [decodeTree_accepted (content_layout ht hdepth), said, built_mapIntegers Integer.value_toUnsigned,
    built_eq, foldTreeOn_eq_ite (Tree.countable_mapIntegers.mpr (collapse_countable hcount)),
    Tree.depth_mapIntegers, Tree.digest_mapIntegers Integer.value_toSigned]
  rfl

end TreeDigest.Json
