import Mathlib.Data.List.Basic
import TreeDigest.Proofs.CommandLine.Running

/-!
# Digests of files

What a file comes to is told by its octets alone: a digest, or why there is none. Going through
some files prints a line for each of the first kind and complains of each of the second, in the
order of the files. Nothing that is printed on the way changes what the files to come come to.
-/

namespace TreeDigest.CommandLine

variable {c : HashCommand} {codec : Codec} {o : FoldOptions} {disk disk' : Disk} {path : String}
  {paths : List String}

/-! ## One file -/

/-- What a file comes to. -/
def answer (codec : Codec) (o : FoldOptions) (disk : Disk) (path : String) :
    Except FileError Digest :=
  match disk.load path with
  | .error fault => .error (.unread path fault)
  | .ok octets =>
    match codec.decode octets o with
    | .ok digest => .ok digest
    | .error e => .error (.undecoded e)

/-- The line that is printed for a file with a digest. -/
def digestLine (codec : Codec) (o : FoldOptions) (disk : Disk) (path : String) : Option Bytes :=
  match answer codec o disk path with
  | .ok digest => some (Utf8.ofText (digest.toHex ++ "  " ++ path ++ "\n"))
  | .error _ => none

/-- The complaint about a file that has none. -/
def complaint (codec : Codec) (o : FoldOptions) (disk : Disk) (path : String) : Option String :=
  match answer codec o disk path with
  | .ok _ => none
  | .error e => some ("FAIL " ++ path ++ ": " ++ e.chain ++ "\n")

theorem answer_ok_iff {digest : Digest} : answer codec o disk path = .ok digest ↔
    ∃ octets, disk.load path = .ok octets ∧ codec.decode octets o = .ok digest := by
  constructor
  · intro h
    unfold answer at h
    split at h
    · cases h
    · rename_i octets hload
      split at h
      · rename_i hdecode
        cases h
        exact ⟨octets, hload, hdecode⟩
      · cases h
  · rintro ⟨octets, hload, hdecode⟩
    simp only [answer, hload, hdecode]

theorem digestLine_of_ok {digest : Digest} (h : answer codec o disk path = .ok digest) :
    digestLine codec o disk path =
      some (Utf8.ofText (digest.toHex ++ "  " ++ path ++ "\n")) := by
  rw [digestLine, h]

theorem complaint_of_ok {digest : Digest} (h : answer codec o disk path = .ok digest) :
    complaint codec o disk path = none := by
  rw [complaint, h]

/-! What a file comes to is told by what is read of it. -/

theorem answer_congr (h : disk'.load path = disk.load path) :
    answer codec o disk' path = answer codec o disk path := by
  rw [answer, answer, h]

theorem digestLine_congr (h : disk'.load path = disk.load path) :
    digestLine codec o disk' path = digestLine codec o disk path := by
  rw [digestLine, digestLine, answer_congr h]

theorem complaint_congr (h : disk'.load path = disk.load path) :
    complaint codec o disk' path = complaint codec o disk path := by
  rw [complaint, complaint, answer_congr h]

theorem digestOf_gives (codec : Codec) (o : FoldOptions) (disk : Disk) (path : String) :
    Gives (digestOf codec o path) disk (answer codec o disk path) disk := by
  refine .bind (Gives.readFile_iff.mpr ⟨rfl, rfl⟩) ?_
  unfold answer
  cases disk.load path with
  | error fault => exact .pure
  | ok octets =>
    dsimp only
    cases codec.decode octets o with
    | error e => exact .pure
    | ok digest => exact .pure

/-! ## Some files -/

/-- What was printed and reported on the way from one disk to another, in order. -/
structure Tells (printed : List Bytes) (reported : List String) (disk disk' : Disk) : Prop where
  printed_eq : disk'.printed = printed.reverse ++ disk.printed
  reported_eq : disk'.reported = reported.reverse ++ disk.reported
  files_eq : disk'.toFiles = disk.toFiles

theorem Tells.trans {disk'' : Disk} {printed printed' : List Bytes}
    {reported reported' : List String}
    (h : Tells printed reported disk disk') (h' : Tells printed' reported' disk' disk'') :
    Tells (printed ++ printed') (reported ++ reported') disk disk'' where
  printed_eq := by
    rw [h'.printed_eq, h.printed_eq, List.reverse_append, List.append_assoc]
  reported_eq := by
    rw [h'.reported_eq, h.reported_eq, List.reverse_append, List.append_assoc]
  files_eq := h'.files_eq.trans h.files_eq

/-- Of one file it is either the line that is printed or the complaint that is made, and then come
the files after it. -/
theorem printDigests_step (codec : Codec) (o : FoldOptions) (failed : Nat) (path : String)
    (paths : List String) (disk : Disk) : ∃ disk₁,
    Tells (digestLine codec o disk path).toList (complaint codec o disk path).toList disk disk₁ ∧
    ∀ {total disk'},
      Gives (printDigests codec o (failed + (complaint codec o disk path).toList.length) paths)
        disk₁ total disk' →
      Gives (printDigests codec o failed (path :: paths)) disk total disk' := by
  have hanswer := digestOf_gives codec o disk path
  unfold digestLine complaint
  cases hcase : answer codec o disk path with
  | ok digest =>
    rw [hcase] at hanswer
    refine ⟨{ disk with
      printed := Utf8.ofText (digest.toHex ++ "  " ++ path ++ "\n") :: disk.printed },
      ⟨rfl, rfl, rfl⟩, fun hrest => .bind hanswer ?_⟩
    exact .bind (Gives.print_iff.mpr rfl) hrest
  | error e =>
    rw [hcase] at hanswer
    refine ⟨{ disk with
      reported := ("FAIL " ++ path ++ ": " ++ e.chain ++ "\n") :: disk.reported },
      ⟨rfl, rfl, rfl⟩, fun hrest => .bind hanswer ?_⟩
    exact .bind (Gives.report_iff.mpr rfl) hrest

/-- **Going through some files gives a line for each that has a digest and a complaint about each
that has none**, and counts the latter. -/
theorem printDigests_gives (codec : Codec) (o : FoldOptions) (failed : Nat) (paths : List String)
    (disk : Disk) : ∃ disk',
    Gives (printDigests codec o failed paths) disk
      (failed + (paths.filterMap (complaint codec o disk)).length) disk' ∧
    Tells (paths.filterMap (digestLine codec o disk)) (paths.filterMap (complaint codec o disk))
      disk disk' := by
  induction paths generalizing failed disk with
  | nil => exact ⟨disk, .pure, rfl, rfl, rfl⟩
  | cons path paths ih =>
    obtain ⟨disk₁, hfirst, hstep⟩ := printDigests_step codec o failed path paths disk
    obtain ⟨disk', hruns, hrest⟩ := ih (failed + (complaint codec o disk path).toList.length) disk₁
    -- what was printed does not change what the other files come to
    have hload (path : String) : disk₁.load path = disk.load path :=
      congrArg (Files.load · path) hfirst.files_eq
    rw [show complaint codec o disk₁ = complaint codec o disk from
      funext fun path => complaint_congr (hload path)] at hruns hrest
    rw [show digestLine codec o disk₁ = digestLine codec o disk from
      funext fun path => digestLine_congr (hload path)] at hrest
    simp only [List.filterMap_eq_flatMap_toList] at hruns hrest ⊢
    rw [List.flatMap_cons, List.flatMap_cons, List.length_append, ← Nat.add_assoc]
    exact ⟨disk', hstep hruns, hfirst.trans hrest⟩

/-! ## The command -/

/-- There is nothing to complain of just if every file is read and decoded. -/
theorem complaints_eq_nil_iff : paths.filterMap (complaint codec o disk) = [] ↔
    ∀ path ∈ paths, ∃ octets digest,
      disk.load path = .ok octets ∧ codec.decode octets o = .ok digest := by
  rw [List.filterMap_eq_nil_iff]
  refine forall₂_congr fun path _ => ?_
  rw [exists_comm]
  simp only [← answer_ok_iff]
  unfold complaint
  cases answer codec o disk path with
  | ok digest => exact iff_of_true rfl ⟨digest, rfl⟩
  | error e => exact iff_of_false nofun nofun

/-- Texts that are no patterns are the files that are meant. -/
theorem expand_literal {inputs : List String} (h : ∀ input ∈ inputs, isPattern input = false) :
    (expand inputs : Search (StateM Disk)).run = pure (.ok inputs) := by
  induction inputs with
  | nil => rfl
  | cons input inputs ih =>
    rw [List.forall_mem_cons] at h
    simp only [expand, h.1, Bool.false_eq_true, if_false, pure_bind, List.isEmpty_cons]
    rw [ExceptT.run_bind, ih h.2]
    rfl

/-- What is said at the end: how many files have no digest, if there are any. -/
def summary (failed total : Nat) : List String :=
  if failed = 0 then [] else [s!"{failed} of {total} file(s) failed\n"]

/-- The end of a command that has gone through its files. -/
theorem conclude_gives (failed total : Nat) (disk : Disk) : ∃ disk',
    Gives (do
      if failed = 0 then return true
      else
        Machine.report s!"{failed} of {total} file(s) failed\n"
        return false) disk (decide (failed = 0)) disk' ∧
    Tells [] (summary failed total) disk disk' := by
  unfold summary
  split
  · rename_i hnone
    rw [decide_eq_true hnone]
    exact ⟨disk, .pure, rfl, rfl, rfl⟩
  · rename_i hsome
    rw [decide_eq_false hsome]
    exact ⟨_, .bind (Gives.report_iff.mpr rfl) .pure, rfl, rfl, rfl⟩

/-- Every file is answered for. -/
structure Answers (codec : Codec) (o : FoldOptions) (inputs : List String) (disk : Disk)
    (passed : Bool) (disk' : Disk) : Prop where
  /-- There is a line for each file that is read and decoded, in their order, and nothing else is
  printed. Of every other file is complained. -/
  tells : Tells (inputs.filterMap (digestLine codec o disk))
    (inputs.filterMap (complaint codec o disk) ++
      summary (inputs.filterMap (complaint codec o disk)).length inputs.length) disk disk'
  /-- It is a success just if every file is read and decoded. -/
  passed_iff : passed = true ↔ ∀ path ∈ inputs, ∃ octets digest,
    disk.load path = .ok octets ∧ codec.decode octets o = .ok digest
  /-- The line of a file is the same on every disk with this file, whatever the others are. -/
  apart : ∀ path ∈ inputs, ∀ other : Disk, other.load path = disk.load path →
    digestLine codec o other path = digestLine codec o disk path

/-- **Every file is answered for, whatever becomes of the others.** -/
theorem hash_gives (hcodec : Codec.ofName? c.codec = some codec) (hfold : c.fold.apply {} = .ok o)
    (hinputs : ∀ input ∈ c.inputs, isPattern input = false) (disk : Disk) :
    ∃ passed disk', Gives c.run disk passed disk' ∧ Answers codec o c.inputs disk passed disk' := by
  have hexpand : Gives (ExceptT.lift (expand c.inputs : Search (StateM Disk)).run) disk
      (.ok c.inputs) disk :=
    Gives.lift_iff.mpr (by rw [expand_literal hinputs]; rfl)
  obtain ⟨disk₁, hprint, htells⟩ := printDigests_gives codec o 0 c.inputs disk
  rw [Nat.zero_add] at hprint
  obtain ⟨disk', hconclude, hsummary⟩ := conclude_gives
    (c.inputs.filterMap (complaint codec o disk)).length c.inputs.length disk₁
  have htold := htells.trans hsummary
  rw [List.append_nil] at htold
  refine ⟨decide ((c.inputs.filterMap (complaint codec o disk)).length = 0), disk', ?_, htold, ?_,
    fun path _ other => digestLine_congr⟩
  · exact .bind (Gives.orStop_iff.mpr ⟨codecOf_ok_iff.mpr hcodec, rfl⟩) <|
      .bind (Gives.orStop_iff.mpr ⟨hfold, rfl⟩) <|
        .bind hexpand <| .bind (Gives.orStop_iff.mpr ⟨rfl, rfl⟩) <| .bind hprint hconclude
  · rw [decide_eq_true_iff, List.length_eq_zero_iff, complaints_eq_nil_iff]

end TreeDigest.CommandLine
