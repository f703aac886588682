import TreeDigest.Proofs.Json.Counting
import TreeDigest.Proofs.Json.Recounts
import TreeDigest.Proofs.Json.RoundTrip

/-!
# The two codecs on any text

Both codecs accept the same texts, if none of the limits is met. What they answer differs
by the tree: the one that folds while it reads answers about the content of the text with
all its pairs, the other about the content with each key kept once. So where no key occurs
twice they agree, and where one does, one of them may find too deep what the other does
not see.

About a text that is not accepted both give an error, but not always the same. The one
that folds may come to its limit before it comes to the fault.

All of that is about containers whose entries can be counted with 32 bits. A text of eight
gibibytes can have a list with more, and there the counting gives up, whatever else is said
of the text.
-/

namespace TreeDigest.Json

variable {input : Bytes} {t : Tree} {fault : Fault}

/-- What is answered about a text with a certain content. -/
structure Accepted (input : Bytes) (t : Tree) : Prop where
  /-- The folding codec recovers the content, pairs with the same key included. -/
  stream : t.Countable → stream.Recovers input t
  /-- The building codec recovers it with each key kept once, if the entries that are left count. -/
  dom : (collapse t).Countable → dom.Recovers input (collapse t)
  /-- No text of less than four gibibytes has more entries than can be counted. -/
  countable : input.length < 0x100000000 → t.Countable
  /-- The folding codec has an answer for no other reason. -/
  stream_ok : ∀ o d, Json.stream.decode input o = .ok d ↔
    (t.Countable ∧ t.depth ≤ o.depthLimit) ∧ t.digest o = d
  /-- The building codec has an answer for no other reason. -/
  dom_ok : ∀ o d, Json.dom.decode input o = .ok d ↔
    ((collapse t).Countable ∧ (collapse t).depth ≤ o.depthLimit) ∧ (collapse t).digest o = d
  /-- Where no key occurs twice, they have the same. -/
  alike : Distinct t → ∀ o d, Json.stream.decode input o = .ok d ↔ Json.dom.decode input o = .ok d

/-- What is answered about a text with a certain fault. -/
structure Refused (input : Bytes) (fault : Fault) : Prop where
  /-- The building codec reports the fault. -/
  dom : ∀ o, Json.dom.decode input o = .error (.decode (.parser Json.dom.name fault))
  /-- The folding codec reports it too, or has come to its limit before. -/
  stream : input.length < 0x100000000 → ∀ o,
    Json.stream.decode input o = .error (.decode (.parser Json.stream.name fault)) ∨
      Json.stream.decode input o = .error (.decode (.depthExceeded o.depthLimit))
  /-- It has no digest of a text of any length. -/
  stream_not_ok : ∀ o d, Json.stream.decode input o ≠ .ok d
  /-- It has an error of the input, if it has not come to the end of its counting before. -/
  stream_error : ∀ o, (∃ e, Json.stream.decode input o = .error (.decode e)) ∨
    0x100000000 ≤ input.length ∧
      Json.stream.decode input o = .error (.protocol .countOverflow)

theorem accepted_of_content (h : content input = .ok t) : Accepted input t := by
  obtain ⟨hentries, hfolded⟩ := decodeStream_accepted "json-stream" h
  have hstream : ∀ o, Json.stream.decode input o = foldEvents .decode (told t) o := hfolded
  have hdom : ∀ o, Json.dom.decode input o =
      foldTreeOn .decode ((collapse t).mapIntegers .toSigned) o := fun o => by
    rw [← built_eq]
    exact decodeTree_accepted h
  have hstream_ok : ∀ o d, Json.stream.decode input o = .ok d ↔
      (t.Countable ∧ t.depth ≤ o.depthLimit) ∧ t.digest o = d := by
    intro o d
    rw [hstream, foldEvents_eq_ok_iff (traversal_told t)]
  have hdom_ok : ∀ o d, Json.dom.decode input o = .ok d ↔
      ((collapse t).Countable ∧ (collapse t).depth ≤ o.depthLimit) ∧ (collapse t).digest o = d := by
    intro o d
    rw [hdom, foldTreeOn_eq_ok_iff, Tree.countable_mapIntegers, Tree.depth_mapIntegers,
      Tree.digest_mapIntegers Integer.value_toSigned]
  refine ⟨fun ht => .of_eq_ite ht fun o => ?_, fun ht => .of_eq_ite ht fun o => ?_,
    hentries.countable, hstream_ok, hdom_ok, fun hdistinct o d => ?_⟩
  · rw [hstream, foldEvents_eq (traversal_told t) ht]
    rfl
  · rw [hdom, foldTreeOn_eq_ite (Tree.countable_mapIntegers.mpr ht),
      Tree.depth_mapIntegers, Tree.digest_mapIntegers Integer.value_toSigned]
    rfl
  · rw [hstream_ok, hdom_ok, collapse_of_distinct hdistinct]

/-- A fault, or a beginning of the events of a tree that is refused. -/
theorem stream_refused (h : content input = .error fault) (hlen : input.length < 0x100000000)
    (o : FoldOptions) :
    Json.stream.decode input o = .error (.decode (.parser Json.stream.name fault)) ∨
      Json.stream.decode input o = .error (.decode (.depthExceeded o.depthLimit)) := by
  obtain ⟨t, es, hentries, hbegun, hstream⟩ := decodeStream_refused "json-stream" h o
  have hdecode : Json.stream.decode input o = _ := hstream
  rw [hdecode]
  cases hes : Folding.events es (.start .decode o) with
  | ok _ f => exact .inl rfl
  | error e f =>
    have hdepth := Folding.events_begun (traversal_told t) (hentries.countable hlen) hbegun hes
    exact .inr (congrArg Except.error hdepth)

theorem stream_not_ok (h : content input = .error fault) (o : FoldOptions) (d : Digest) :
    Json.stream.decode input o ≠ .ok d := by
  intro hok
  obtain ⟨t, es, -, -, hstream⟩ := decodeStream_refused "json-stream" h o
  have hdecode : Json.stream.decode input o = _ := hstream
  rw [hdecode] at hok
  split at hok <;> cases hok

theorem refused_of_content (h : content input = .error fault) : Refused input fault := by
  refine ⟨fun o => decodeTree_refused h, stream_refused h, stream_not_ok h, fun o => ?_⟩
  by_cases hlen : input.length < 0x100000000
  · rcases stream_refused h hlen o with hdecode | hdecode
    · exact .inl ⟨_, hdecode⟩
    · exact .inl ⟨_, hdecode⟩
  · -- in a longer text the events come in order still, and none of them has a digest for an answer
    have hanswered : Answered _ (Json.stream.decode input o) :=
      decodeStream_orderly "json-stream" input o
    cases hdecode : Json.stream.decode input o with
    | ok d => exact absurd hdecode (stream_not_ok h o d)
    | error e =>
      rw [hdecode] at hanswered
      cases hanswered with
      | input he => exact .inl ⟨_, rfl⟩
      | full hfull => exact .inr ⟨Nat.not_lt.mp hlen, rfl⟩

/-- **On every text the codecs differ by the pairs whose key occurs again, and by nothing else.** -/
theorem codecs_differ_by_collapse (input : Bytes) :
    (∀ t, content input = .ok t → Accepted input t) ∧
      ∀ fault, content input = .error fault → Refused input fault :=
  ⟨fun _ => accepted_of_content, fun _ => refused_of_content⟩

/-- The text `{"a":{"b":[]},"a":1}` is too deep for one codec only, and `[[` is refused by both. -/
theorem codecs_differ_at_repeated_key :
    Json.stream.decode [0x7B, 0x22, 0x61, 0x22, 0x3A, 0x7B, 0x22, 0x62, 0x22, 0x3A, 0x5B, 0x5D, 0x7D,
      0x2C, 0x22, 0x61, 0x22, 0x3A, 0x31, 0x7D] { maxDepth := 1 } =
        .error (.decode (.depthExceeded 1)) ∧
    Json.dom.decode [0x7B, 0x22, 0x61, 0x22, 0x3A, 0x7B, 0x22, 0x62, 0x22, 0x3A, 0x5B, 0x5D, 0x7D,
      0x2C, 0x22, 0x61, 0x22, 0x3A, 0x31, 0x7D] { maxDepth := 1 } =
        .ok ((Tree.map [([0x61], .uint 1)]).digest { maxDepth := 1 }) ∧
    Json.dom.decode [0x5B, 0x5B] {} = .error (.decode (.parser "json-dom" ⟨.endInList, ⟨1, 2⟩⟩)) ∧
    ∃ e, Json.stream.decode [0x5B, 0x5B] {} = .error (.decode e) := by
  have ht : Expressible (.map [([0x61], .map [([0x62], .list [])]), ([0x61], .uint 1)]) :=
    ⟨fun kv hkv => by rcases List.mem_pair.mp hkv with rfl | rfl <;> rfl,
      ⟨fun kv hkv => by rw [List.mem_singleton.mp hkv]; rfl, ⟨trivial, trivial⟩, trivial⟩,
      trivial, trivial⟩
  have hlayout : layout (.map [([0x61], .map [([0x62], .list [])]), ([0x61], .uint 1)]) =
      [0x7B, 0x22, 0x61, 0x22, 0x3A, 0x7B, 0x22, 0x62, 0x22, 0x3A, 0x5B, 0x5D, 0x7D,
        0x2C, 0x22, 0x61, 0x22, 0x3A, 0x31, 0x7D] := by rfl
  have hcontent := content_layout ht (by decide)
  rw [hlayout] at hcontent
  have hfault : content [0x5B, 0x5B] = .error ⟨.endInList, ⟨1, 2⟩⟩ := by rfl
  have haccepted := (codecs_differ_by_collapse _).1 _ hcontent
  have hrefused := (codecs_differ_by_collapse _).2 _ hfault
  have hcount := haccepted.countable (by decide)
  refine ⟨(haccepted.stream hcount).beyond _ (by decide), (haccepted.dom_ok _ _).mpr ?_,
    hrefused.dom _, ?_⟩
  · exact ⟨⟨collapse_countable hcount, by decide⟩, rfl⟩
  · rcases hrefused.stream (by decide) {} with h | h
    · exact ⟨_, h⟩
    · exact ⟨_, h⟩

/-! ## Entries without a count -/

theorem layoutItems_zeros (n : Nat) : layoutItems false (List.replicate n (.int 0)) =
    (List.replicate n [0x2C, 0x30]).flatten := by
  induction n with
  | zero => rfl
  | succ n ih =>
    rw [List.replicate_succ, layoutItems, ih, List.replicate_succ, List.flatten_cons]
    rfl

/-- The list of so many zeros that there is no count for them. -/
theorem layout_zeros : layout (.crowd (.int 0)) =
    0x5B :: 0x30 :: ((List.replicate 0xFFFFFFFF [0x2C, 0x30]).flatten ++ [0x5D]) := by
  rw [Tree.crowd, List.replicate_succ, layout, layoutItems, layoutItems_zeros]
  rfl

/-- The text `[0,0,…,0]` with so many zeros is accepted, and is one level deep. It has no digest. -/
theorem long_text_has_no_digest :
    (∃ t, content (0x5B :: 0x30 :: ((List.replicate 0xFFFFFFFF [0x2C, 0x30]).flatten ++ [0x5D])) =
        .ok t ∧ t.depth ≤ ({} : FoldOptions).depthLimit) ∧
      ∀ d, Json.stream.decode
        (0x5B :: 0x30 :: ((List.replicate 0xFFFFFFFF [0x2C, 0x30]).flatten ++ [0x5D])) {} ≠ .ok d := by
  have hdepth : (Tree.crowd (.int 0)).depth ≤ 1 := Tree.depth_crowd rfl
  have ht : Expressible (.crowd (.int 0)) :=
    expressible_list.mpr fun t ht => by rw [List.eq_of_mem_replicate ht]; trivial
  have hcontent := content_layout ht (Nat.le_trans hdepth (by decide))
  have hcount : ¬ (said (.crowd (.int 0))).Countable :=
    mt Tree.countable_mapIntegers.mp (Tree.not_countable_crowd _)
  rw [layout_zeros] at hcontent
  refine ⟨⟨_, hcontent, ?_⟩, fun d hok => ?_⟩
  · rw [said, Tree.depth_mapIntegers]
    exact Nat.le_trans hdepth (by decide)
  · exact hcount (((accepted_of_content hcontent).stream_ok {} d).mp hok).1.1

end TreeDigest.Json
