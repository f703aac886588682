import Mathlib.Data.List.Forall2
import TreeDigest.Proofs.Check.Matrix

/-!
# A report says what failed, and nothing else

Codecs may do whatever they like here: fail, write what is not the document, answer
another digest, or read only what they wrote themselves. The relations below say which
failures a pair has to have then, stage by stage, from what the codecs answer. They know
nothing of names, of how pairs are grouped or of how a check goes on after a failure.

A report of codecs with different names has the pairs that are asked for, each with the
failures that it has to have. So a check passes just if every codec reaches every digest
and is read by all codecs of its format, and the pairs of a codec are settled by the
codecs of its format.
-/

namespace TreeDigest

/-! ## What a pair has to say -/

/-- The failures of a stage that had to reach a digest. -/
inductive StageFailures (stage : Stage) (codec : String) (expected : Digest) :
    Except Error Digest → List Failure → Prop
  | reached : StageFailures stage codec expected (.ok expected) []
  | missed {actual : Digest} : actual ≠ expected →
      StageFailures stage codec expected (.ok actual) [⟨stage, codec, .mismatch expected actual⟩]
  | failed (e : Error) :
      StageFailures stage codec expected (.error e) [⟨stage, codec, .error e⟩]

/-- The failures of codecs in turn, each reading what another codec of its format wrote. -/
inductive ReadFailures (writer : Codec) (bytes : Bytes) (expected : Digest) (o : FoldOptions) :
    List Codec → List Failure → Prop
  | nil : ReadFailures writer bytes expected o [] []
  | own {readers : List Codec} {fs gs : List Failure} :
      StageFailures .decode writer.name expected (writer.decode bytes o) fs →
      ReadFailures writer bytes expected o readers gs →
      ReadFailures writer bytes expected o (writer :: readers) (fs ++ gs)
  | cross {reader : Codec} {readers : List Codec} {fs gs : List Failure} :
      reader ≠ writer → reader.format = writer.format →
      StageFailures .crossDecode reader.name expected (reader.decode bytes o) fs →
      ReadFailures writer bytes expected o readers gs →
      ReadFailures writer bytes expected o (reader :: readers) (fs ++ gs)
  | foreign {reader : Codec} {readers : List Codec} {gs : List Failure} :
      reader.format ≠ writer.format → ReadFailures writer bytes expected o readers gs →
      ReadFailures writer bytes expected o (reader :: readers) gs

/-- What comes of a codec and a document: the digest to reach, how many octets were written,
and what failed. -/
inductive Outcome (codecs : List Codec) (o : FoldOptions) (t : Tree) (codec : Codec) :
    Option Digest → Option Nat → List Failure → Prop
  | unfolded {e : Error} : foldTree t o = .error e →
      Outcome codecs o t codec none none [⟨.reference, codec.name, .error e⟩]
  | unwritten {r : Digest} {e : Error} : foldTree t o = .ok r → codec.encode t o = .error e →
      Outcome codecs o t codec (some r) none [⟨.encode, codec.name, .error e⟩]
  | written {r : Digest} {encoded : Encoded} {fs gs : List Failure} : foldTree t o = .ok r →
      codec.encode t o = .ok encoded →
      StageFailures .encode codec.name r (.ok encoded.digest) fs →
      ReadFailures codec encoded.bytes r o codecs gs →
      Outcome codecs o t codec (some r) (some encoded.bytes.length) (fs ++ gs)

/-- A pair says what comes of a codec and a size. -/
structure PairFor (plan : Plan) (codecs : List Codec) (codec : Codec) (size : Nat) (pair : Pair) :
    Prop where
  codec_eq : pair.codec = codec.name
  size_eq : pair.size = size
  nodes_eq : pair.nodes = (Generator.generate size plan.seed).nodes
  outcome : Outcome codecs plan.fold (Generator.generate size plan.seed) codec pair.reference
    pair.length pair.failures

/-- A codec writes a document, and all codecs of its format read what it wrote. -/
def Agrees (codecs : List Codec) (o : FoldOptions) (t : Tree) (codec : Codec) : Prop :=
  ∃ r encoded, foldTree t o = .ok r ∧ codec.encode t o = .ok encoded ∧ encoded.digest = r ∧
    ∀ reader ∈ codecs, reader.format = codec.format → reader.decode encoded.bytes o = .ok r

/-! ## What it says of a pair that it has no failures -/

section Passing

variable {stage : Stage} {name : String} {expected : Digest} {result : Except Error Digest}
  {writer codec : Codec} {codecs readers : List Codec} {bytes : Bytes} {o : FoldOptions} {t : Tree}
  {reference : Option Digest} {length : Option Nat} {fs : List Failure}

theorem StageFailures.eq_nil_iff (h : StageFailures stage name expected result fs) :
    fs = [] ↔ result = .ok expected := by
  cases h with
  | reached => exact iff_of_true rfl rfl
  | missed hne => exact iff_of_false (List.cons_ne_nil _ _) fun heq => hne (Except.ok.inj heq)
  | failed e => exact iff_of_false (List.cons_ne_nil _ _) nofun

theorem ReadFailures.eq_nil_iff (h : ReadFailures writer bytes expected o readers fs) :
    fs = [] ↔ ∀ reader ∈ readers, reader.format = writer.format →
      reader.decode bytes o = .ok expected := by
  induction h with
  | nil => exact iff_of_true rfl nofun
  | own hstage _ ih =>
    rw [List.append_eq_nil_iff, hstage.eq_nil_iff, ih, List.forall_mem_cons]
    exact and_congr_left fun _ => ⟨fun hdecode _ => hdecode, fun h => h rfl⟩
  | cross _ hformat hstage _ ih =>
    rw [List.append_eq_nil_iff, hstage.eq_nil_iff, ih, List.forall_mem_cons]
    exact and_congr_left fun _ => ⟨fun hdecode _ => hdecode, fun h => h hformat⟩
  | foreign hformat _ ih =>
    rw [ih, List.forall_mem_cons]
    exact ⟨fun h => ⟨fun heq => absurd heq hformat, h⟩, And.right⟩

/-- **A pair has no failures just if its codec agrees with all of its format.** -/
theorem Outcome.eq_nil_iff (h : Outcome codecs o t codec reference length fs) :
    fs = [] ↔ Agrees codecs o t codec := by
  cases h with
  | unfolded hfold =>
    refine iff_of_false (List.cons_ne_nil _ _) ?_
    rintro ⟨r, encoded, hok, -⟩
    cases hfold.symm.trans hok
  | unwritten hfold hencode =>
    refine iff_of_false (List.cons_ne_nil _ _) ?_
    rintro ⟨r, encoded, -, hok, -⟩
    cases hencode.symm.trans hok
  | written hfold hencode hstage hread =>
    rw [List.append_eq_nil_iff, hstage.eq_nil_iff, hread.eq_nil_iff]
    constructor
    · rintro ⟨hdigest, hdecode⟩
      exact ⟨_, _, hfold, hencode, Except.ok.inj hdigest, hdecode⟩
    · rintro ⟨r, encoded, hok, hok', hdigest, hdecode⟩
      cases hfold.symm.trans hok
      cases hencode.symm.trans hok'
      exact ⟨congrArg _ hdigest, hdecode⟩

end Passing

/-! ## What a check does -/

section Checking

variable {writer codec : Codec} {codecs codecs' readers : List Codec} {bytes : Bytes}
  {o : FoldOptions} {expected : Digest} {plan : Plan}

theorem stageFailures_failure? (stage : Stage) (name : String) (expected : Digest)
    (result : Except Error Digest) :
    StageFailures stage name expected result (stage.failure? name expected result).toList := by
  cases result with
  | error e => exact .failed e
  | ok actual =>
    rw [Stage.failure?]
    split
    · rename_i heq
      exact heq ▸ .reached
    · rename_i hne
      exact .missed hne

/-- All readers that take part are asked in turn, if none but the writer has its name. -/
theorem readFailures_filterMap
    (hname : ∀ reader ∈ readers, reader.name = writer.name → reader = writer) :
    ReadFailures writer bytes expected o readers
      ((readers.filter fun reader => reader.format == writer.format).filterMap
        (readFailure? writer bytes expected o)) := by
  rw [List.filterMap_eq_flatMap_toList]
  induction readers with
  | nil => exact .nil
  | cons reader readers ih =>
    rw [List.forall_mem_cons] at hname
    by_cases hformat : reader.format = writer.format
    · rw [List.filter_cons, if_pos (beq_iff_eq.mpr hformat), List.flatMap_cons, readFailure?]
      by_cases hwriter : reader = writer
      · subst hwriter
        rw [if_pos rfl]
        exact .own (stageFailures_failure? _ _ _ _) (ih hname.2)
      · rw [if_neg fun heq => hwriter (hname.1 heq)]
        exact .cross hwriter hformat (stageFailures_failure? _ _ _ _) (ih hname.2)
    · rw [List.filter_cons, if_neg fun heq => hformat (beq_iff_eq.mp heq)]
      exact .foreign hformat (ih hname.2)

/-- Different names tell codecs apart. -/
theorem eq_of_name (h : (codecs.map Codec.name).Nodup) (hwriter : writer ∈ codecs)
    (hcodec : codec ∈ codecs) (hname : codec.name = writer.name) : codec = writer :=
  List.inj_on_of_nodup_map h hcodec hwriter hname

theorem Sample.nodes_check {sample : Sample} :
    (sample.check codecs o codec).nodes = sample.tree.nodes := by
  rw [check]
  split
  · rfl
  · split <;> rfl

/-- **A pair says what comes of its codec and its size.** -/
theorem pairFor_check (h : (codecs.map Codec.name).Nodup) (hcodec : codec ∈ codecs) (size : Nat) :
    PairFor plan codecs codec size (Sample.check ⟨size, Generator.generate size plan.seed,
      foldTree (Generator.generate size plan.seed) plan.fold⟩ codecs plan.fold codec) := by
  refine ⟨Sample.codec_check, Sample.size_check, Sample.nodes_check, ?_⟩
  rw [Sample.check]
  dsimp only
  cases hfold : foldTree (Generator.generate size plan.seed) plan.fold with
  | error e => exact .unfolded hfold
  | ok r =>
    dsimp only
    cases hencode : codec.encode (Generator.generate size plan.seed) plan.fold with
    | error e => exact .unwritten hfold hencode
    | ok encoded =>
      exact .written hfold hencode (stageFailures_failure? _ _ _ _)
        (readFailures_filterMap fun reader hreader => eq_of_name h hcodec hreader)

/-- A pair is settled by the codecs of its format. -/
theorem check_congr {sample : Sample}
    (h : (codecs.filter fun reader => reader.format == codec.format) =
      codecs'.filter fun reader => reader.format == codec.format) :
    sample.check codecs o codec = sample.check codecs' o codec := by
  rw [Sample.check, Sample.check, h]

theorem filter_set {p : Codec → Bool} {j : Nat} {x x' : Codec} (hx : codecs[j]? = some x)
    (hp : p x = false) (hp' : p x' = false) : (codecs.set j x').filter p = codecs.filter p := by
  induction codecs generalizing j with
  | nil => rfl
  | cons c codecs ih =>
    cases j with
    | zero =>
      cases hx
      rw [List.set_cons_zero, List.filter_cons_of_neg (by simp [hp']),
        List.filter_cons_of_neg (by simp [hp])]
    | succ j => rw [List.set_cons_succ, List.filter_cons, List.filter_cons, ih hx]

/-- A check has an entry for each codec, with a pair for each size that says what comes of it. -/
theorem entries_check (plan : Plan) (h : (codecs.map Codec.name).Nodup) :
    List.Forall₂ (fun codec entry => entry.1 = codec.name ∧
      List.Forall₂ (PairFor plan codecs codec) plan.sizes entry.2) codecs
      (plan.runWith codecs).codecs := by
  rw [Plan.runWith_codecs plan h, List.forall₂_map_right_iff, List.forall₂_same]
  refine fun codec hcodec => ⟨rfl, ?_⟩
  rw [Plan.samples, List.map_map, List.forall₂_map_right_iff, List.forall₂_same]
  exact fun size _ => pairFor_check h hcodec size

/-- **A check passes just if all codecs agree on all documents.** -/
theorem passed_iff (plan : Plan) (h : (codecs.map Codec.name).Nodup) :
    (plan.runWith codecs).passed = true ↔ ∀ codec ∈ codecs, ∀ size ∈ plan.sizes,
      Agrees codecs plan.fold (Generator.generate size plan.seed) codec := by
  have hpair : ∀ codec ∈ codecs, ∀ size : Nat,
      (Sample.check ⟨size, Generator.generate size plan.seed,
          foldTree (Generator.generate size plan.seed) plan.fold⟩ codecs plan.fold codec).passed =
            true ↔
        Agrees codecs plan.fold (Generator.generate size plan.seed) codec := by
    intro codec hcodec size
    rw [Pair.passed, List.isEmpty_iff]
    exact (pairFor_check h hcodec size).outcome.eq_nil_iff
  rw [Report.passed, Report.pairs, Plan.runWith_codecs plan h, List.all_eq_true]
  simp only [Plan.samples, List.mem_flatMap, List.mem_map]
  constructor
  · intro hall codec hcodec size hsize
    refine (hpair codec hcodec size).mp (hall _ ⟨_, ⟨codec, hcodec, rfl⟩, ?_⟩)
    exact List.mem_map_of_mem (List.mem_map_of_mem hsize)
  · rintro hall pair ⟨_, ⟨codec, hcodec, rfl⟩, hmem⟩
    obtain ⟨_, hsample, rfl⟩ := List.mem_map.mp hmem
    obtain ⟨size, hsize, rfl⟩ := List.mem_map.mp hsample
    exact (hpair codec hcodec size).mpr (hall codec hcodec size hsize)

end Checking

/--
**A report is complete, in order, and says of each pair what failed in it.** A check passes
just if every codec agrees with all of its format on every document. And another codec in
the place of one of another format changes nothing in the entry of a codec.
-/
theorem report_says_what_failed (plan : Plan) {codecs : List Codec}
    (h : (codecs.map Codec.name).Nodup) :
    List.Forall₂ (fun codec entry => entry.1 = codec.name ∧
      List.Forall₂ (PairFor plan codecs codec) plan.sizes entry.2) codecs
      (plan.runWith codecs).codecs ∧
    ((plan.runWith codecs).passed = true ↔ ∀ codec ∈ codecs, ∀ size ∈ plan.sizes,
      Agrees codecs plan.fold (Generator.generate size plan.seed) codec) ∧
    ∀ (j : Nat) (x x' : Codec), codecs[j]? = some x → x'.format = x.format →
      ((codecs.set j x').map Codec.name).Nodup →
        ∀ (i : Nat) (codec : Codec), codecs[i]? = some codec → codec.format ≠ x.format →
          (plan.runWith (codecs.set j x')).codecs[i]? = (plan.runWith codecs).codecs[i]? := by
  refine ⟨entries_check plan h, passed_iff plan h, ?_⟩
  intro j x x' hx hformat h' i codec hcodec hother
  have hij : j ≠ i := by
    rintro rfl
    rw [hx] at hcodec
    exact hother (congrArg Codec.format (Option.some.inj hcodec)).symm
  have hreaders : ∀ y : Codec, y.format = x.format → (y.format == codec.format) = false :=
    fun y hy => beq_false_of_ne fun heq => hother (heq.symm.trans hy)
  have hcheck : ∀ sample : Sample, sample.check (codecs.set j x') plan.fold codec =
      sample.check codecs plan.fold codec := fun sample =>
    check_congr (filter_set hx (hreaders x rfl) (hreaders x' hformat))
  rw [Plan.runWith_codecs plan h, Plan.runWith_codecs plan h', List.getElem?_map,
    List.getElem?_map, List.getElem?_set_ne hij, hcodec, Option.map_some, Option.map_some]
  simp only [hcheck]

/-- A codec that writes as another and reads nothing. -/
def Codec.deaf (codec : Codec) : Codec :=
  { codec with decode := fun bytes _ => .error (.decode (.trailingBytes bytes.length)) }

/-- A size that occurs twice, beside a codec of another format that becomes deaf. -/
theorem report_says_what_failed_beside :
    ([MessagePack.compact, Bson.stream].map Codec.name).Nodup ∧
    (∃ pairs more, (Plan.runWith { sizes := [3, 3] } [MessagePack.compact, Bson.stream]).codecs =
        ("msgpack", pairs) :: more ∧
      List.Forall₂ (PairFor { sizes := [3, 3] } [MessagePack.compact, Bson.stream]
        MessagePack.compact) [3, 3] pairs) ∧
    (Plan.runWith { sizes := [3, 3] }
        ([MessagePack.compact, Bson.stream].set 1 Bson.stream.deaf)).codecs[0]? =
      (Plan.runWith { sizes := [3, 3] } [MessagePack.compact, Bson.stream]).codecs[0]? := by
  have hnames : ([MessagePack.compact, Bson.stream].map Codec.name).Nodup := by decide
  have hnames' : (([MessagePack.compact, Bson.stream].set 1 Bson.stream.deaf).map
    Codec.name).Nodup := by decide
  have hzero : [MessagePack.compact, Bson.stream][0]? = some MessagePack.compact := rfl
  have hone : [MessagePack.compact, Bson.stream][1]? = some Bson.stream := rfl
  obtain ⟨hentries, -, halone⟩ := report_says_what_failed { sizes := [3, 3] } hnames
  obtain ⟨entry, more, ⟨hname, hpairs⟩, -, hcodecs⟩ := List.forall₂_cons_left_iff.mp hentries
  refine ⟨hnames, ⟨entry.2, more, ?_, hpairs⟩, ?_⟩
  · rw [hcodecs]
    exact congrArg (· :: more) (Prod.ext hname rfl)
  · exact halone 1 Bson.stream Bson.stream.deaf hone rfl hnames' 0 MessagePack.compact hzero
      (by decide)

end TreeDigest
