import TreeDigest.Proofs.Json.RoundTrip
import TreeDigest.Registry

/-!
# Reading takes back writing

Whichever of the two writers wrote a text, the reader that folds while it reads
recovers the tree. So does the one that builds a tree first, of a tree in which no key
occurs twice. Of any other it recovers what is left when each key is kept once, which
can be less deep than the tree that was written.

A limit on depths is met before the readers come to their own limit on open
containers, since nothing that was written gets there.
-/

namespace TreeDigest.Json

variable {writer : Codec} {t : Tree} {o : FoldOptions} {e : Encoded}

theorem codecs_eq : Codec.ofFormat .json = [stream, dom] := rfl

/-- Both codecs write the form of what they write. -/
theorem encode_ok (h : writer ∈ Codec.ofFormat .json) (hok : writer.encode t o = .ok e) :
    Expressible t ∧ t.Countable ∧ t.depth ≤ nestingCeiling ∧ e.bytes = layout t := by
  rw [codecs_eq] at h
  rcases List.mem_cons.mp h with rfl | h
  · obtain ⟨⟨ht, hcount⟩, hdepth, rfl⟩ := encodeStream_eq_ok_iff.mp hok
    exact ⟨ht, hcount, depth_le_nestingCeiling hdepth, rfl⟩
  · obtain rfl := List.mem_singleton.mp h
    obtain ⟨⟨ht, -, hcount⟩, hdepth, rfl⟩ := encodeTree_eq_ok_iff.mp hok
    exact ⟨ht, hcount, depth_le_nestingCeiling hdepth, rfl⟩

theorem stream_encode (ht : Expressible t) (hcount : t.Countable) (hdepth : t.depth ≤ o.depthLimit) :
    stream.encode t o = .ok ⟨layout t, t.digest o⟩ :=
  encodeStream_eq_ok_iff.mpr ⟨⟨ht, hcount⟩, hdepth, rfl⟩

theorem dom_decode (ht : Expressible t) (hcount : t.Countable) (hdepth : t.depth ≤ nestingCeiling)
    (o : FoldOptions) : dom.decode (layout t) o = if (collapse t).depth ≤ o.depthLimit then
      .ok ((collapse t).digest o) else .error (.decode (.depthExceeded o.depthLimit)) :=
  decodeTree_form_eq ht hcount hdepth o

/-- **What either codec writes, the one that folds recovers, and the one that builds a tree recovers
up to keys that occur twice.** -/
theorem json_round_trip (hwriter : writer ∈ Codec.ofFormat .json) (hok : writer.encode t o = .ok e) :
    stream.Recovers e.bytes t ∧ (Distinct t → dom.Recovers e.bytes t) ∧
      dom.Recovers e.bytes (collapse t) := by
  obtain ⟨ht, hcount, hdepth, hbytes⟩ := encode_ok hwriter hok
  have hcollapsed : dom.Recovers e.bytes (collapse t) := by
    refine .of_eq_ite (collapse_countable hcount) fun o' => ?_
    rw [hbytes]
    exact dom_decode ht hcount hdepth o'
  refine ⟨.of_eq_ite hcount fun o' => ?_, fun hdistinct => ?_, hcollapsed⟩
  · rw [hbytes]
    exact decodeStream_form_eq ht hcount hdepth o'
  · rwa [collapse_of_distinct hdistinct] at hcollapsed

/-- The text `{"a":[-1,1]}` is read within a limit and beyond one. -/
theorem json_round_trip_map :
    (∃ digest, foldTree (.map [([0x61], .list [.int (-1), .uint 1])]) {} = .ok digest ∧
      stream.decode [0x7B, 0x22, 0x61, 0x22, 0x3A, 0x5B, 0x2D, 0x31, 0x2C, 0x31, 0x5D, 0x7D] {} =
        .ok digest) ∧
    dom.decode [0x7B, 0x22, 0x61, 0x22, 0x3A, 0x5B, 0x2D, 0x31, 0x2C, 0x31, 0x5D, 0x7D]
      { maxDepth := 1 } = .error (.decode (.depthExceeded 1)) := by
  have ht : Expressible (.map [([0x61], .list [.int (-1), .uint 1])]) :=
    ⟨fun kv hkv => by rw [List.mem_singleton.mp hkv]; rfl, ⟨trivial, trivial, trivial, trivial⟩,
      trivial⟩
  have hdistinct : Distinct (.map [([0x61], .list [.int (-1), .uint 1])]) :=
    ⟨List.pairwise_singleton _ _, ⟨trivial, trivial, trivial, trivial⟩, trivial⟩
  have hcount : (Tree.map [([0x61], .list [.int (-1), .uint 1])]).Countable :=
    ⟨by decide, ⟨by decide, Tree.countable_scalar rfl, Tree.countable_scalar rfl, trivial⟩, trivial⟩
  have hlayout : layout (.map [([0x61], .list [.int (-1), .uint 1])]) =
      [0x7B, 0x22, 0x61, 0x22, 0x3A, 0x5B, 0x2D, 0x31, 0x2C, 0x31, 0x5D, 0x7D] := by rfl
  obtain ⟨hstream, hdom, -⟩ := json_round_trip (o := {}) (List.mem_cons_self ..)
    (stream_encode ht hcount (by decide))
  rw [hlayout] at hstream hdom
  exact ⟨hstream.within {} (by decide), (hdom hdistinct).beyond { maxDepth := 1 } (by decide)⟩

/-- A text three levels deep, `{"a":[[null]],"a":null}`, is read within two of them by the codec that
builds a tree. -/
theorem json_repeated_key_read_beyond_limit : ∃ e : Encoded,
    stream.encode (.map [([0x61], .list [.list [.null]]), ([0x61], .null)]) {} = .ok e ∧
    e.bytes = [0x7B, 0x22, 0x61, 0x22, 0x3A, 0x5B, 0x5B, 0x6E, 0x75, 0x6C, 0x6C, 0x5D, 0x5D, 0x2C, 0x22,
      0x61, 0x22, 0x3A, 0x6E, 0x75, 0x6C, 0x6C, 0x7D] ∧
    ({ maxDepth := 2 } : FoldOptions).depthLimit <
      (Tree.map [([0x61], .list [.list [.null]]), ([0x61], .null)]).depth ∧
    dom.decode e.bytes { maxDepth := 2 } =
      .ok ((Tree.map [([0x61], .null)]).digest { maxDepth := 2 }) := by
  have ht : Expressible (.map [([0x61], .list [.list [.null]]), ([0x61], .null)]) :=
    ⟨fun kv hkv => by rcases List.mem_pair.mp hkv with rfl | rfl <;> rfl,
      ⟨trivial, ⟨trivial, trivial, trivial⟩, trivial⟩, trivial, trivial⟩
  have hcount : (Tree.map [([0x61], .list [.list [.null]]), ([0x61], .null)]).Countable :=
    ⟨by decide, ⟨by decide, ⟨by decide, Tree.countable_scalar rfl, trivial⟩, trivial⟩,
      Tree.countable_scalar rfl, trivial⟩
  have hcollapse : collapse (.map [([0x61], .list [.list [.null]]), ([0x61], .null)]) =
      .map [([0x61], .null)] := by rfl
  have hdecode := dom_decode ht hcount (by decide) { maxDepth := 2 }
  rw [hcollapse, if_pos (by decide)] at hdecode
  exact ⟨_, stream_encode ht hcount (by decide), by rfl, by decide, hdecode⟩

end TreeDigest.Json
