import TreeDigest.Proofs.Check.Matrix
import TreeDigest.Proofs.CommandLine.Running
import TreeDigest.Proofs.Settings.Front

/-!
# A check runs what was asked for

What a check is asked for comes from three layers: options, a file, and defaults. Each part of
the plan is taken from the first layer that says anything of it, and no part depends on what is
said of another. The whole is validated at the end, so that no name of a codec is passed over
when the codecs are selected.
-/

namespace TreeDigest.CommandLine

open Settings

variable {α : Type} {c : CheckCommand} {disk disk' : Disk} {base plan : Plan}

/-! ## Layers -/

/-- A part of a plan is what its option says, else what is given in a file, else the default. -/
def IsChosen (option : Option α) (given : Option Tree) (means : Tree → α → Prop)
    (default chosen : α) : Prop :=
  match option with
  | some value => chosen = value
  | none => IsPart given means default chosen

theorem isChosen_getD {option : Option α} {given : Option Tree} {means : Tree → α → Prop}
    {default part : α} (h : IsPart given means default part) :
    IsChosen option given means default (option.getD part) := by
  cases option with
  | none => exact h
  | some value => rfl

/-- The document that a check takes its plan from: that at the front of a file, or none. -/
inductive Consults (disk : Disk) : Option String → Option Tree → Prop
  | nothing : Consults disk none none
  | file {path : String} {front rest : Bytes} {t : Tree} {base : Plan} :
      disk.load path = .ok (front ++ rest) → Json.content front = .ok t →
        Front Plan.ofBytes Plan.Means front base → Consults disk (some path) (some t)

/-- A plan is in each part what options, a document and the defaults say, and can be carried out. -/
structure CheckCommand.Asks (c : CheckCommand) (document : Option Tree) (plan : Plan) : Prop where
  sizes : IsChosen c.sizes (document.bind (partOf 0 "sizes")) (IsList (IsNatural UInt64.size))
    ({} : Plan).sizes plan.sizes
  seed : IsChosen c.seed (document.bind (partOf 1 "seed"))
    (fun t seed => IsNatural UInt64.size t seed.toNat) ({} : Plan).seed plan.seed
  codecs : IsChosen (if c.codecs.isEmpty then none else some c.codecs)
    (document.bind (partOf 2 "codecs")) (IsList Plan.IsName) ({} : Plan).codecs plan.codecs
  foldSeed : IsChosen c.fold.seed ((document.bind (partOf 3 "fold")).bind (partOf 0 "seed"))
    (fun t seed => IsNatural UInt32.size t seed.toNat) ({} : FoldOptions).seed plan.fold.seed
  keyOrder : IsChosen c.fold.keyOrder
    ((document.bind (partOf 3 "fold")).bind (partOf 1 "key_order"))
    (IsChoice FoldOptions.keyOrders) ({} : FoldOptions).keyOrder plan.fold.keyOrder
  maxDepth : IsChosen c.fold.maxDepth
    ((document.bind (partOf 3 "fold")).bind (partOf 2 "max_depth"))
    (IsNatural UInt64.size) ({} : FoldOptions).maxDepth plan.fold.maxDepth
  /-- No fold is asked to let more containers nest than any can. -/
  depth_le : plan.fold.maxDepth ≤ 126
  /-- Every codec that is named exists. -/
  known : ∀ name ∈ plan.codecs, name ∈ Codec.names

/-! ## Parts of what is given -/

/-- What is missing as a whole has none of its parts. -/
theorem isPart_bind {β : Type} {given : Option Tree} {whole before : α} {means : Tree → α → Prop}
    {part : Tree → Option Tree} {meansPart : Tree → β → Prop} (get : α → β)
    (h : IsPart given means before whole)
    (hpart : ∀ t, means t whole → IsPart (part t) meansPart (get before) (get whole)) :
    IsPart (given.bind part) meansPart (get before) (get whole) := by
  cases given with
  | none => exact congrArg get h
  | some t => exact hpart t h

theorem known_of_validate (h : plan.validate = .ok ()) :
    ∀ name ∈ plan.codecs, name ∈ Codec.names := by
  unfold Plan.validate at h
  split at h
  · cases h
  · rename_i hfind
    intro name hname
    have hsome := List.find?_eq_none.mp hfind name hname
    cases hcodec : Codec.ofName? name with
    | none => exact absurd (hcodec ▸ rfl) hsome
    | some codec =>
      have hname := List.find?_some hcodec
      exact List.mem_map.mpr ⟨codec, List.mem_of_find?_eq_some hcodec, eq_of_beq hname⟩

/-- **What replaces parts of a plan that a document means asks for the plan that comes out.** -/
theorem asks_of_apply {document : Option Tree} (hbase : IsPart document Plan.Means {} base)
    (h : c.apply base = .ok plan) : c.Asks document plan := by
  obtain ⟨fold, hfold, h⟩ := exists_of_bind_ok h
  obtain ⟨_, hvalid, h⟩ := exists_of_bind_ok h
  cases h
  obtain ⟨hdepth, rfl⟩ := FoldChoices.apply_ok_iff.mp hfold
  have hgiven : IsPart (document.bind (partOf 3 "fold")) FoldOptions.Means ({} : Plan).fold
      base.fold :=
    isPart_bind Plan.fold hbase fun _ ht => ht.fold
  exact
    { sizes := isChosen_getD (isPart_bind Plan.sizes hbase fun _ ht => ht.sizes)
      seed := isChosen_getD (isPart_bind Plan.seed hbase fun _ ht => ht.seed)
      codecs := by
        have hcodecs := isPart_bind Plan.codecs hbase fun _ ht => ht.codecs
        dsimp only
        split
        · exact hcodecs
        · rfl
      foldSeed := isChosen_getD (isPart_bind FoldOptions.seed hgiven fun _ ht => ht.seed)
      keyOrder := isChosen_getD (isPart_bind FoldOptions.keyOrder hgiven fun _ ht => ht.keyOrder)
      maxDepth := isChosen_getD (isPart_bind FoldOptions.maxDepth hgiven fun _ ht => ht.maxDepth)
      depth_le := hdepth
      known := known_of_validate hvalid }


/-! ## Plans -/

theorem readPlan_gives {path : String} (h : Gives (readPlan path) disk base disk') :
    disk' = disk ∧ ∃ t, Consults disk (some path) (some t) ∧ Plan.Means t base := by
  obtain ⟨read, disk₁, hread, h⟩ := Gives.bind_iff.mp h
  obtain ⟨hload, rfl⟩ := Gives.readFile_iff.mp hread
  cases read with
  | error fault => exact absurd h Gives.not_throw
  | ok octets =>
    obtain ⟨plan, disk₂, hparse, h⟩ := Gives.bind_iff.mp h
    obtain ⟨_, disk₃, hvalid, h⟩ := Gives.bind_iff.mp h
    obtain ⟨rfl, rfl⟩ := Gives.pure_iff.mp h
    obtain ⟨hplan, rfl⟩ := Gives.orStop_iff.mp hparse
    obtain ⟨-, rfl⟩ := Gives.orStop_iff.mp hvalid
    obtain ⟨front, rest, rfl, hfront⟩ := Plan.exists_front hplan
    obtain ⟨t, hcontent, hmeans⟩ := hfront.document
    exact ⟨rfl, t, .file hload hcontent hfront, hmeans⟩

/-- A check reads at most one file, and leaves everything as it was. -/
theorem plan_gives (h : Gives c.plan disk plan disk') :
    disk' = disk ∧ ∃ document, Consults disk c.config document ∧ c.Asks document plan := by
  rw [CheckCommand.plan] at h
  split at h
  · rename_i path hconfig
    obtain ⟨base, disk₁, hread, h⟩ := Gives.bind_iff.mp h
    obtain ⟨happly, rfl⟩ := Gives.orStop_iff.mp h
    obtain ⟨rfl, t, hconsults, hmeans⟩ := readPlan_gives hread
    exact ⟨rfl, some t, hconfig ▸ hconsults, asks_of_apply hmeans happly⟩
  · rename_i hconfig
    obtain ⟨happly, rfl⟩ := Gives.orStop_iff.mp h
    exact ⟨rfl, none, hconfig ▸ .nothing, asks_of_apply rfl happly⟩

/-! ## Reports -/

/-- The codecs of a report are those that a plan names, and all if it names none. -/
structure Covers (plan : Plan) (names : List String) : Prop where
  /-- Each stands once. -/
  nodup : names.Nodup
  /-- They stand in the order of all codecs. -/
  ordered : names.Sublist Codec.names
  all : plan.codecs = [] → names = Codec.names
  named : plan.codecs ≠ [] → ∀ name, name ∈ names ↔ name ∈ plan.codecs

theorem run_covers (h : ∀ name ∈ plan.codecs, name ∈ Codec.names) :
    Covers plan (plan.run.codecs.map Prod.fst) := by
  have hnames : plan.run.codecs.map Prod.fst = plan.selected.map Codec.name := by
    rw [Plan.run, Plan.runWith_codecs plan plan.selected_names, List.map_map]
    rfl
  rw [hnames]
  have hselected : ∀ name, name ∈ plan.selected.map Codec.name ↔
      name ∈ Codec.names ∧ (plan.codecs = [] ∨ name ∈ plan.codecs) := by
    intro name
    rw [List.mem_map]
    constructor
    · rintro ⟨codec, hcodec, rfl⟩
      obtain ⟨hall, hnamed⟩ := List.mem_filter.mp hcodec
      rw [Bool.or_eq_true, List.isEmpty_iff, List.contains_iff_mem] at hnamed
      exact ⟨List.mem_map_of_mem hall, hnamed⟩
    · rintro ⟨hall, hnamed⟩
      obtain ⟨codec, hcodec, rfl⟩ := List.mem_map.mp hall
      refine ⟨codec, List.mem_filter.mpr ⟨hcodec, ?_⟩, rfl⟩
      rwa [Bool.or_eq_true, List.isEmpty_iff, List.contains_iff_mem]
  exact
    { nodup := plan.selected_names
      ordered := List.filter_sublist.map _
      all := fun hnone => by
        rw [Plan.selected, hnone]
        exact congrArg (List.map Codec.name) (List.filter_eq_self.mpr fun _ _ => rfl)
      named := fun hsome name => (hselected name).trans
        ⟨fun hname => hname.2.resolve_left hsome, fun hname => ⟨h name hname, .inr hname⟩⟩ }

/-- What a check does once it has its plan: it carries it out and prints the report. -/
theorem report_gives {passed : Bool} (h : Gives (do
      let startedAt ← Machine.now
      printText (reportLines plan.run)
      match c.report with
      | some path => writeOut path (Json.pretty (plan.run.toTree startedAt))
      | none => pure ()
      return plan.run.passed) disk passed disk') :
    passed = plan.run.passed ∧
      disk'.printed = Utf8.ofText (reportLines plan.run) :: disk.printed := by
  obtain ⟨startedAt, disk₁, hnow, h⟩ := Gives.bind_iff.mp h
  obtain ⟨-, rfl⟩ := Gives.pure_iff.mp hnow
  obtain ⟨_, disk₂, hprint, h⟩ := Gives.bind_iff.mp h
  obtain rfl := Gives.print_iff.mp hprint
  dsimp only at h
  split at h
  · obtain ⟨_, disk₃, hwrite, h⟩ := Gives.bind_iff.mp h
    obtain ⟨rfl, rfl⟩ := Gives.pure_iff.mp h
    obtain ⟨_, -, rfl⟩ := Gives.writeOut_ok hwrite
    exact ⟨rfl, rfl⟩
  · obtain ⟨rfl, rfl⟩ := Gives.pure_iff.mp h
    exact ⟨rfl, rfl⟩

/--
**A check runs exactly what was asked for.** If it comes to a plan, each part is what its option
says, else what the file says, else the default, and all of it can be carried out. The codecs of
the report are the named ones, each once and in the order of all codecs, and all of them if none
was named. And the check that is carried out is that of this plan.
-/
theorem check_runs_what_was_asked (c : CheckCommand) (disk : Disk) :
    (∀ plan disk', Gives c.plan disk plan disk' →
      disk' = disk ∧ (∃ document, Consults disk c.config document ∧ c.Asks document plan) ∧
        Covers plan (plan.run.codecs.map Prod.fst)) ∧
    ∀ passed disk', Gives c.run disk passed disk' →
      ∃ plan, Gives c.plan disk plan disk ∧ passed = plan.run.passed ∧
        disk'.printed = Utf8.ofText (reportLines plan.run) :: disk.printed := by
  refine ⟨fun plan disk' h => ?_, fun passed disk' h => ?_⟩
  · obtain ⟨hdisk, document, hconsults, hasks⟩ := plan_gives h
    exact ⟨hdisk, ⟨document, hconsults, hasks⟩, run_covers hasks.known⟩
  · obtain ⟨plan, disk₁, hplan, hrest⟩ := Gives.bind_iff.mp h
    obtain ⟨rfl, -⟩ := plan_gives hplan
    exact ⟨plan, hplan, report_gives hrest⟩

section Case

/-- A disk with a plan of one size, a seed, and a codec that is named twice. -/
def planDisk : Disk := .ofFiles [("plan.json", Bytes.ofAscii "[[1],7,[\"msgpack\",\"msgpack\"]]")]

/-- A check that takes its seed from an option and the rest from the file and the defaults. -/
def seededCheck : CheckCommand := { config := some "plan.json", seed := some 5 }

def seededPlan : Plan := { sizes := [1], seed := 5, codecs := ["msgpack", "msgpack"] }

/-- The codec that is named twice is checked once, with the seed of the option. -/
theorem check_runs_what_was_asked_seeded :
    ((∃ document, Consults planDisk (some "plan.json") document ∧
        seededCheck.Asks document seededPlan) ∧
      Covers seededPlan (seededPlan.run.codecs.map Prod.fst)) ∧
    ∃ disk', Gives seededCheck.run planDisk true disk' ∧
      ∃ plan, Gives seededCheck.plan planDisk plan planDisk ∧ true = plan.run.passed ∧
        disk'.printed = Utf8.ofText (reportLines plan.run) :: planDisk.printed := by
  have hplan : ∃ disk', Gives seededCheck.plan planDisk seededPlan disk' :=
    ⟨_, .of_toOption (by decide +kernel)⟩
  have hrun : ∃ disk', Gives seededCheck.run planDisk true disk' :=
    ⟨_, .of_toOption (by decide +kernel)⟩
  obtain ⟨disk', hplan⟩ := hplan
  obtain ⟨disk'', hrun⟩ := hrun
  exact ⟨((check_runs_what_was_asked seededCheck planDisk).1 seededPlan disk' hplan).2,
    disk'', hrun, (check_runs_what_was_asked seededCheck planDisk).2 true disk'' hrun⟩

end Case

end TreeDigest.CommandLine
