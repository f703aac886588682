import TreeDigest.Check.Matrix
import TreeDigest.Proofs.Check.Carries

/-!
# What a check reports

A check of codecs with different names has one entry for each of them, and each entry
one pair for each size, in the order in which both were given. With the codecs there
are, no pair has a failure: what is generated is portable, and every codec carries it.
-/

namespace TreeDigest

/-! ## Pairs -/

namespace Sample

variable {sample : Sample} {codecs : List Codec} {o : FoldOptions} {codec : Codec} {d : Digest}
  {bytes : Bytes}

theorem codec_check : (sample.check codecs o codec).codec = codec.name := by
  rw [check]
  split
  · rfl
  · split <;> rfl

theorem size_check : (sample.check codecs o codec).size = sample.size := by
  rw [check]
  split
  · rfl
  · split <;> rfl

/-- A pair has no failure if every stage of it reaches the digest. -/
theorem failures_check (href : sample.reference = .ok d)
    (hencode : codec.encode sample.tree o = .ok ⟨bytes, d⟩)
    (hdecode : ∀ reader ∈ codecs, reader.format = codec.format → reader.decode bytes o = .ok d) :
    (sample.check codecs o codec).failures = [] := by
  have hstage : ∀ (stage : Stage) (name : String), stage.failure? name d (.ok d) = none :=
    fun _ _ => if_pos rfl
  have hread : (codecs.filter fun reader => reader.format == codec.format).filterMap
      (readFailure? codec bytes d o) = [] := by
    refine List.filterMap_eq_nil_iff.mpr fun reader hreader => ?_
    obtain ⟨hmem, hformat⟩ := List.mem_filter.mp hreader
    rw [readFailure?, hdecode reader hmem (eq_of_beq hformat)]
    exact hstage _ _
  rw [check, href]
  dsimp only
  rw [hencode]
  dsimp only
  rw [hstage, hread]
  rfl

end Sample

/-! ## Entries -/

theorem eraseDups_eq_self {xs : List String} (h : xs.Nodup) : xs.eraseDups = xs := by
  induction xs with
  | nil => rfl
  | cons x xs ih =>
    rw [List.nodup_cons] at h
    have hkeep : (xs.filter fun y => !y == x) = xs := by
      refine List.filter_eq_self.mpr fun y hy => ?_
      have hne : y ≠ x := fun heq => h.1 (heq ▸ hy)
      rw [beq_false_of_ne hne]
      rfl
    rw [List.eraseDups_cons, hkeep, ih h.2]

/-- Of entries in turn, those with the name of one are its own. -/
theorem flatMap_of_name {α : Type} {codecs : List Codec} (h : (codecs.map Codec.name).Nodup)
    {codec : Codec} (hmem : codec ∈ codecs) (entries : Codec → List α) :
    (codecs.flatMap fun c => if c.name = codec.name then entries c else []) = entries codec := by
  induction codecs with
  | nil => cases hmem
  | cons c codecs ih =>
    rw [List.map_cons, List.nodup_cons] at h
    rw [List.flatMap_cons]
    rcases List.mem_cons.mp hmem with rfl | hmem
    · have hothers : (codecs.flatMap fun c => if c.name = codec.name then entries c else []) = [] := by
        refine List.flatMap_eq_nil_iff.mpr fun c hc => if_neg fun hname => h.1 ?_
        exact hname ▸ List.mem_map_of_mem hc
      rw [if_pos rfl, hothers, List.append_nil]
    · have hname : c.name ≠ codec.name := fun hname => h.1 (hname ▸ List.mem_map_of_mem hmem)
      rw [if_neg hname, List.nil_append, ih h.2 hmem]

namespace Plan

variable {plan : Plan} {codecs : List Codec}

/-- The pairs of one codec go by its name. -/
theorem filter_checks (c : Codec) (name : String) :
    ((plan.samples.map fun sample => sample.check codecs plan.fold c).filter
      fun pair => pair.codec == name) =
      if c.name = name then plan.samples.map fun sample => sample.check codecs plan.fold c else [] := by
  split
  · rename_i hname
    refine List.filter_eq_self.mpr fun pair hpair => ?_
    obtain ⟨sample, -, rfl⟩ := List.mem_map.mp hpair
    rw [Sample.codec_check, hname]
    exact beq_self_eq_true name
  · rename_i hname
    refine List.filter_eq_nil_iff.mpr fun pair hpair => ?_
    obtain ⟨sample, -, rfl⟩ := List.mem_map.mp hpair
    rw [Sample.codec_check, beq_false_of_ne hname]
    exact Bool.false_ne_true

/-- **A check of codecs with different names has one entry for each codec, with its pairs.** -/
theorem runWith_codecs (plan : Plan) (h : (codecs.map Codec.name).Nodup) :
    (plan.runWith codecs).codecs = codecs.map fun codec =>
      (codec.name, plan.samples.map fun sample => sample.check codecs plan.fold codec) := by
  rw [runWith]
  dsimp only
  rw [eraseDups_eq_self h, List.map_map]
  refine List.map_congr_left fun codec hmem => congrArg (Prod.mk codec.name) ?_
  rw [List.filter_flatMap]
  simp only [filter_checks]
  exact flatMap_of_name h hmem _

theorem selected_subset : plan.selected ⊆ Codec.all := List.filter_sublist.subset

theorem selected_names : (plan.selected.map Codec.name).Nodup :=
  List.Nodup.sublist (List.filter_sublist.map _) (by decide)

/-! ## Plans with the codecs there are -/

/-- The lengths in the documents of a plan are such that they can be written: those of strings, keys
and containers in 32 bits and, if BSON takes part, that of a whole BSON document in 31. -/
structure Fits (plan : Plan) : Prop where
  lengths : ∀ size ∈ plan.sizes, (Generator.generate size plan.seed).Short
  documents : ∀ size ∈ plan.sizes, ∀ codec ∈ plan.selected, codec.format = .bson →
    (Bson.form (Generator.generate size plan.seed)).length < 0x80000000

/-- The sizes that are checked by default, and all below the greatest of them, fit. -/
theorem fits_of_sizes (h : ∀ size ∈ plan.sizes, size ≤ 10000) : plan.Fits := by
  -- A document has as many nodes as its size says, and these bound all that is long in it.
  have hgenerate : ∀ size ∈ plan.sizes,
      (Generator.generate size plan.seed).All (Tree.LengthsBelow 60034) ∧
        (Generator.generate size plan.seed).nodes ≤ 10000 := by
    intro size hsize
    obtain ⟨pairs, htree, hportable, -, hnodes⟩ := Generator.generate_eq size plan.seed
    have hle : (Tree.map pairs).nodes ≤ 10000 :=
      hnodes ▸ Nat.max_le.mpr ⟨h size hsize, by decide⟩
    exact htree ▸ ⟨hportable.lengthsBelow hle, hle⟩
  constructor
  · intro size hsize
    exact Tree.All.mono (fun _ => Tree.LengthsBelow.mono (by decide)) (hgenerate size hsize).1
  · intro size hsize codec _ _
    obtain ⟨hlengths, hnodes⟩ := hgenerate size hsize
    calc (Bson.form (Generator.generate size plan.seed)).length
        ≤ (Generator.generate size plan.seed).nodes * (2 * 60034 + 10) := Bson.length_form_le hlengths
      _ ≤ 10000 * (2 * 60034 + 10) := Nat.mul_le_mul_right _ hnodes
      _ < 0x80000000 := by decide

theorem mem_samples {sample : Sample} (h : sample ∈ plan.samples) :
    ∃ size ∈ plan.sizes, sample = ⟨size, Generator.generate size plan.seed,
      foldTree (Generator.generate size plan.seed) plan.fold⟩ := by
  obtain ⟨size, hsize, rfl⟩ := List.mem_map.mp h
  exact ⟨size, hsize, rfl⟩

/-- No stage fails on a document that fits. -/
theorem failures_of_fits (hdepth : 7 ≤ plan.fold.maxDepth) (hfits : plan.Fits) {sample : Sample}
    (hsample : sample ∈ plan.samples) {codec : Codec} (hcodec : codec ∈ plan.selected) :
    (sample.check plan.selected plan.fold codec).failures = [] := by
  obtain ⟨size, hsize, rfl⟩ := mem_samples hsample
  have hshort := hfits.lengths size hsize
  have hlen := fun codec hcodec => hfits.documents size hsize codec hcodec
  obtain ⟨pairs, htree, hportable, hnesting, -⟩ := Generator.generate_eq size plan.seed
  rw [htree] at hshort hlen ⊢
  have hlimit : (Tree.map pairs).depth ≤ plan.fold.depthLimit :=
    Nat.le_trans hnesting (Nat.le_min.mpr ⟨hdepth, by decide⟩)
  have hcarries := Codec.carries (selected_subset hcodec) hportable
    (.of_short hshort (hlen codec hcodec)) hlimit
  obtain ⟨bytes, hencode, hdecode⟩ := hcarries.exchange
  refine Sample.failures_check (foldTreeOn_eq hlimit hshort.countable) hencode ?_
  intro reader hreader hformat
  exact hdecode reader (List.mem_filter.mpr ⟨selected_subset hreader, beq_iff_eq.mpr hformat⟩)

/-- **A check never reports a failure that is none.** -/
theorem run_passes (plan : Plan) (hdepth : 7 ≤ plan.fold.maxDepth) (hfits : plan.Fits) :
    (plan.run.codecs.map fun entry => (entry.1, entry.2.map fun pair => (pair.codec, pair.size))) =
        (plan.selected.map fun codec =>
          (codec.name, plan.sizes.map fun size => (codec.name, size))) ∧
      (∀ pair ∈ plan.run.pairs, pair.failures = []) ∧ plan.run.passed = true := by
  have hcodecs := runWith_codecs plan plan.selected_names
  have hfailures : ∀ pair ∈ plan.run.pairs, pair.failures = [] := by
    intro pair hpair
    obtain ⟨entry, hentry, hpair⟩ := List.mem_flatMap.mp hpair
    rw [run, hcodecs] at hentry
    obtain ⟨codec, hcodec, rfl⟩ := List.mem_map.mp hentry
    obtain ⟨sample, hsample, rfl⟩ := List.mem_map.mp hpair
    exact failures_of_fits hdepth hfits hsample hcodec
  refine ⟨?_, hfailures, ?_⟩
  · rw [run, hcodecs, List.map_map]
    refine List.map_congr_left fun codec _ => congrArg (Prod.mk codec.name) ?_
    rw [List.map_map, samples, List.map_map]
    refine List.map_congr_left fun size _ => ?_
    exact Prod.ext Sample.codec_check Sample.size_check
  · refine List.all_eq_true.mpr fun pair hpair => ?_
    rw [Pair.passed, hfailures pair hpair]
    rfl

/-- The plan that is carried out without any settings passes. -/
theorem run_passes_default :
    7 ≤ ({} : Plan).fold.maxDepth ∧ ({} : Plan).Fits ∧
      (∀ pair ∈ ({} : Plan).run.pairs, pair.failures = []) ∧ ({} : Plan).run.passed = true := by
  have hfits : ({} : Plan).Fits := fits_of_sizes (by decide)
  have hdepth : 7 ≤ ({} : Plan).fold.maxDepth := by decide
  exact ⟨hdepth, hfits, (run_passes {} hdepth hfits).2⟩

end Plan

end TreeDigest
