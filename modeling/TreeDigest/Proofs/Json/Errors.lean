import TreeDigest.Proofs.Json.Agreement
import TreeDigest.Proofs.Json.Inverse
import TreeDigest.Proofs.Output.Performs

/-!
# What goes wrong in JSON

A text counts no entries, so a folder counts them, and all that can be wrong beyond the
text is that there are more than it has numbers for. The reader that builds a tree has to
tell how many there are when it folds the tree, and finds that out there.

Both writers refuse what has no form, one of them keys that occur again as well. Otherwise
they do what a walk over the tree does.
-/

namespace TreeDigest.Json

variable {codec : String}

/-! ## Whole texts -/

/-- **About every text the folding codec answers with a digest or for a reason of the text.** -/
theorem decodeStream_answered (input : Bytes) (o : FoldOptions) :
    Answered (0x100000000 ≤ input.length ∧ Visitor.Overflows input o) (stream.decode input o) := by
  have hanswered : Answered _ (stream.decode input o) := decodeStream_orderly stream.name input o
  by_cases hlength : 0x100000000 ≤ input.length
  · exact hanswered.mono fun hfull => ⟨hlength, hfull⟩
  · -- a shorter text has no more entries than can be counted, up to its fault or to its end
    have hshort : input.length < 0x100000000 := Nat.not_le.mp hlength
    cases hcontent : content input with
    | ok t =>
      have haccepted := accepted_of_content hcontent
      have hstream := haccepted.stream (haccepted.countable hshort)
      by_cases hdepth : t.depth ≤ o.depthLimit
      · obtain ⟨digest, -, hdecode⟩ := hstream.within o hdepth
        exact hdecode ▸ .digest digest
      · rw [hstream.beyond o (Nat.not_le.mp hdepth)]
        exact .input nofun
    | error fault =>
      rcases (refused_of_content hcontent).stream hshort o with hdecode | hdecode
      · rw [hdecode]
        exact .input nofun
      · rw [hdecode]
        exact .input nofun

/-- A tree that is read from a shorter text can be counted, with the keys of its maps kept once. -/
theorem readTree_countable {codec : String} {t : Tree} (h : readTree codec input = .ok t)
    (hlen : input.length < 0x100000000) : t.Countable := by
  rw [readTree_eq] at h
  cases hcontent : content input with
  | error fault =>
    rw [hcontent] at h
    cases h
  | ok t' =>
    rw [hcontent] at h
    have hbuilt : built t' = t := Except.ok.inj h
    have hcount := collapse_countable ((accepted_of_content hcontent).countable hlen)
    rw [← hbuilt, built_eq, Tree.countable_mapIntegers]
    exact hcount

/-- **So does the building codec, for whose tree the entries are those that were kept.** -/
theorem decodeTree_answered (input : Bytes) (o : FoldOptions) :
    Answered (0x100000000 ≤ input.length ∧ ∃ t, readTree dom.name input = .ok t ∧ ¬ t.Countable)
      (dom.decode input o) := by
  have hdecode : dom.decode input o = (do foldTreeOn .decode (← readTree dom.name input) o) := rfl
  rw [hdecode]
  cases hread : readTree dom.name input with
  | ok t =>
    refine (foldTreeOn_answered t o).mono fun ht => ⟨?_, t, rfl, ht⟩
    exact Nat.not_lt.mp fun hlen => ht (readTree_countable hread hlen)
  | error e =>
    rw [readTree_eq] at hread
    split at hread
    · cases hread
    · cases hread
      exact .input nofun

/-! ## Writing -/

section Writing

open Encoder (performs_fold performs_count performs_put)

variable {σ : Type} {folder : σ → Folder}

theorem require_performs {codec : String} {refusal : Except Error Unit}
    (h : ∀ e, refusal = .error e → e.Refusal codec) :
    Performs codec folder (require refusal) (pure ()) := by
  cases hrefusal : refusal with
  | ok _ => exact .pure ()
  | error e =>
    refine .silent (fun hok => by cases hok) fun herror => ?_
    cases herror
    exact h e hrefusal

theorem requireText_performs (codec : String) (octets : Bytes) :
    Performs codec folder (require (requireText codec octets)) (pure ()) := by
  refine require_performs fun e he => ?_
  unfold requireText at he
  split at he
  · cases he
  · cases he
    exact ⟨_, rfl⟩

theorem requireFinite_performs (codec : String) (bits : UInt64) :
    Performs codec folder (require (requireFinite codec bits)) (pure ()) := by
  refine require_performs fun e he => ?_
  unfold requireFinite at he
  split at he
  · cases he
  · cases he
    exact ⟨_, rfl⟩

/-- **To its folder the folding writer does what a walk over the tree does.** -/
theorem write_performs (t : Tree) : Encoder.Performs codec (Direct.write codec t) (Folding.tree t) := by
  induction t using Tree.induct with
  | scalar t hscalar =>
    cases t with
    | list items => exact Bool.noConfusion hscalar
    | map pairs => exact Bool.noConfusion hscalar
    | double bits =>
      exact .before (requireFinite_performs codec bits) (.after (performs_fold _) (performs_put _))
    | text octets =>
      exact .before (requireText_performs codec octets) (.after (performs_fold _) (performs_put _))
    | _ => exact .after (performs_fold _) (performs_put _)
  | list items ih =>
    refine .bind (performs_count _) fun count => .bind (performs_fold _) fun _ => ?_
    refine .before (performs_put _) (.bind ?_ fun _ => .after (performs_fold _) (performs_put _))
    exact .items (fun i => Direct.writeItems codec (i == 0))
      (fun i item => do Encoder.put (separator (i == 0)); Direct.write codec item) (fun _ => rfl)
      (fun i item items => by rw [Direct.writeItems, bind_assoc]; rfl)
      (fun i t ht => .before (performs_put _) (ih t ht)) 0
  | map pairs ih =>
    refine .bind (performs_count _) fun count => .bind (performs_fold _) fun _ => ?_
    refine .before (performs_put _) (.bind ?_ fun _ => .after (performs_fold _) (performs_put _))
    refine .pairs (fun i => Direct.writePairs codec (i == 0)) (fun i => writeKey codec (i == 0))
      (fun _ => Direct.write codec) (fun _ => rfl) (fun _ _ _ _ => writePairs_cons) (fun i k => ?_) ih 0
    exact .before (requireText_performs codec k) (.after (performs_fold _) (performs_put _))

/-- A fold as a step on its own. -/
theorem performs_event (e : Event) : Performs codec id (Folding.event e) (Folding.event e) where
  ok hok := hok
  error herror := .inr ⟨_, herror⟩

theorem checkItems_performs {items : List Tree}
    (h : ∀ t ∈ items, Performs codec id (check codec t) (Folding.tree t)) :
    Performs codec id (checkItems codec items) (Folding.trees items) :=
  .items (fun _ => checkItems codec) (fun _ => check codec) (fun _ => rfl) (fun _ _ _ => rfl)
    (fun _ t ht => h t ht) 0

theorem checkPairs_performs {pairs : List (Bytes × Tree)}
    (h : ∀ kv ∈ pairs, Performs codec id (check codec kv.2) (Folding.tree kv.2))
    (seen : Std.HashSet Bytes) :
    Performs codec id (checkPairs codec seen pairs) (Folding.members pairs) := by
  induction pairs generalizing seen with
  | nil => exact .pure ()
  | cons pair pairs ih =>
    obtain ⟨k, value⟩ := pair
    rw [List.forall_mem_cons] at h
    refine .before (requireText_performs codec k) (.bind (performs_event _) fun _ => ?_)
    refine .bind h.1 fun _ => ?_
    split
    · -- a key that occurs again is refused after its value has been folded
      refine .before (.silent (fun hok => by cases hok) fun herror => ?_) (ih h.2 _)
      cases herror
      exact ⟨_, rfl⟩
    · exact ih h.2 _

/-- **So does the check before the building writer.** -/
theorem check_performs (t : Tree) : Performs codec id (check codec t) (Folding.tree t) := by
  induction t using Tree.induct with
  | scalar t hscalar =>
    cases t with
    | list items => exact Bool.noConfusion hscalar
    | map pairs => exact Bool.noConfusion hscalar
    | double bits => exact .before (requireFinite_performs codec bits) (performs_event _)
    | text octets => exact .before (requireText_performs codec octets) (performs_event _)
    | null => exact performs_event .null
    | bool b => exact performs_event (.bool b)
    | int i => exact performs_event (.int i)
    | uint u => exact performs_event (.uint u)
  | list items ih =>
    refine .bind ⟨fun hok => hok, fun herror => .inr ⟨_, herror⟩⟩ fun count => ?_
    exact .bind (performs_event _) fun _ => .bind (checkItems_performs ih) fun _ => performs_event _
  | map pairs ih =>
    refine .bind ⟨fun hok => hok, fun herror => .inr ⟨_, herror⟩⟩ fun count => ?_
    exact .bind (performs_event _) fun _ => .bind (checkPairs_performs ih ∅) fun _ => performs_event _

theorem encodeTree_written {t : Tree} (ht : t.Countable) (o : FoldOptions) :
    Written codec o.depthLimit (encodeTree codec t o) := by
  have hchecks : Performs codec id (check codec t) (Folding.tree t) := check_performs t
  obtain ⟨hok, herror⟩ := hchecks.finish ht (rfl : id (Folder.start .encode o) = .start .encode o)
  cases hcheck : check codec t (.start .encode o) with
  | ok _ f =>
    obtain ⟨digest, hfinish⟩ := hok hcheck
    rw [id] at hfinish
    rw [encodeTree_of_check hcheck, hfinish]
    exact .encoded _
  | error e f =>
    rw [encodeTree_of_check_error hcheck]
    rcases herror hcheck with hrefusal | rfl
    · exact hrefusal.written
    · exact .deep

/-- **About every tree every JSON codec answers with its encoding or for its content.** -/
theorem encode_written {codec : Codec} (h : codec ∈ Codec.ofFormat .json) {t : Tree}
    (ht : t.Countable) (o : FoldOptions) : Written codec.name o.depthLimit (codec.encode t o) := by
  rw [codecs_eq] at h
  rcases List.mem_cons.mp h with rfl | h
  · have hencode : stream.encode t o = _ := encodeStream_eq stream.name t o
    rw [hencode]
    exact (write_performs t).run ht
  · rw [List.mem_singleton.mp h]
    exact encodeTree_written ht o

end Writing

end TreeDigest.Json
