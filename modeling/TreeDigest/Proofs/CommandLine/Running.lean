import TreeDigest.CommandLine.Run
import TreeDigest.Proofs.CommandLine.Disk

/-!
# Commands on a disk

A command that is run on a disk either gives a result or stops at an error, and leaves another
disk. `Gives` is the first of these, with a rule for each step that commands are made of: the
rules for sequences take a run apart again, and those for files say what becomes of the disk.
-/

namespace TreeDigest.CommandLine

variable {α β ε : Type} {step : Running (StateM Disk) α} {next : α → Running (StateM Disk) β}
  {disk disk' disk'' : Disk} {a a' : α} {b : β} {path : String} {octets : Bytes}

/-- Run on a disk, a step gives a result and leaves a disk. -/
def Gives (step : Running (StateM Disk) α) (disk : Disk) (a : α) (disk' : Disk) : Prop :=
  step.run.run disk = (.ok a, disk')

namespace Gives

/-! ## Sequences -/

theorem pure_iff : Gives (pure a) disk a' disk' ↔ a = a' ∧ disk = disk' := by
  constructor
  · intro h
    injection h with ha hdisk
    injection ha with ha
    exact ⟨ha, hdisk⟩
  · rintro ⟨rfl, rfl⟩
    rfl

theorem pure : Gives (pure a) disk a disk := rfl

theorem not_throw {e : CommandError} : ¬ Gives (throw e) disk a disk' := by
  intro h
  injection h with ha
  cases ha

theorem bind_iff : Gives (step >>= next) disk b disk'' ↔
    ∃ a disk', Gives step disk a disk' ∧ Gives (next a) disk' b disk'' := by
  simp only [Gives, ExceptT.run_bind, StateT.run_bind]
  obtain ⟨result, disk'⟩ := step.run.run disk
  cases result with
  | ok a =>
    constructor
    · exact fun h => ⟨a, disk', rfl, h⟩
    · rintro ⟨_, _, ⟨⟩, h⟩
      exact h
  | error e =>
    constructor
    · intro h
      injection h with hb
      cases hb
    · rintro ⟨_, _, h, -⟩
      injection h with ha
      cases ha

theorem bind (h : Gives step disk a disk') (hnext : Gives (next a) disk' b disk'') :
    Gives (step >>= next) disk b disk'' := bind_iff.mpr ⟨a, disk', h, hnext⟩

theorem orStop_iff {wrap : ε → CommandError} {result : Except ε α} :
    Gives (orStop wrap result) disk a disk' ↔ result = .ok a ∧ disk = disk' := by
  cases result with
  | ok a =>
    refine pure_iff.trans ?_
    rw [Except.ok.injEq]
  | error e => exact ⟨fun h => absurd h not_throw, nofun⟩

/-- What is decided of a result, where the errors cannot be compared. -/
theorem of_toOption (h : (step.run.run disk).1.toOption = some a) :
    Gives step disk a (step.run.run disk).2 := by
  generalize hrun : step.run.run disk = outcome at h
  obtain ⟨result, disk'⟩ := outcome
  cases result with
  | ok a' => cases h; exact hrun
  | error e => cases h

/-! ## What a machine does -/

theorem lift_iff {x : StateM Disk α} :
    Gives (ExceptT.lift x) disk a disk' ↔ x.run disk = (a, disk') := by
  rw [Gives, ExceptT.run_lift, StateT.run_map]
  generalize x.run disk = outcome
  obtain ⟨result, disk₁⟩ := outcome
  constructor
  · intro h
    injection h with ha hdisk
    injection ha with ha
    exact Prod.ext ha hdisk
  · intro h
    cases h
    rfl

theorem readFile_iff {result : Except DeviceFault Bytes} :
    Gives (Machine.readFile path) disk result disk' ↔ disk.load path = result ∧ disk = disk' :=
  pure_iff

theorem print_iff : Gives (Machine.print octets) disk () disk' ↔
    disk' = { disk with printed := octets :: disk.printed } :=
  lift_iff.trans ⟨fun h => (congrArg Prod.snd h).symm, fun h => h ▸ rfl⟩

theorem report_iff {text : String} : Gives (Machine.report text) disk () disk' ↔
    disk' = { disk with reported := text :: disk.reported } :=
  lift_iff.trans ⟨fun h => (congrArg Prod.snd h).symm, fun h => h ▸ rfl⟩

/-- What is changed are the files: nothing is printed. -/
theorem change_ok {attempt : Files → Except DeviceFault Files}
    (h : Gives (ExceptT.lift (Disk.change attempt)) disk (.ok ()) disk') :
    ∃ files, attempt disk.toFiles = .ok files ∧ disk' = { disk with toFiles := files } := by
  have hchange : Disk.change attempt disk = (.ok (), disk') := lift_iff.mp h
  unfold Disk.change at hchange
  split at hchange
  · rename_i files hattempt
    injection hchange with _ hdisk
    exact ⟨files, hattempt, hdisk.symm⟩
  · injection hchange with hresult
    cases hresult

/-- A change of the files that is not allowed to fail. -/
theorem change_orStop {attempt : Files → Except DeviceFault Files}
    {wrap : DeviceFault → CommandError} {done : Unit}
    (h : Gives (ExceptT.lift (Disk.change attempt) >>= orStop wrap) disk done disk') :
    ∃ files, attempt disk.toFiles = .ok files ∧ disk' = { disk with toFiles := files } := by
  obtain ⟨result, disk₁, hchange, h⟩ := bind_iff.mp h
  obtain ⟨rfl, rfl⟩ := orStop_iff.mp h
  exact change_ok hchange

/-- **A file that was written out holds what was written**, and nothing was printed. -/
theorem writeOut_ok {done : Unit} (h : Gives (writeOut path octets) disk done disk') :
    ∃ files, files.load path = .ok octets ∧ disk' = { disk with toFiles := files } := by
  have hwrite : ∀ {disk}, Gives (do orStop (.fileNotWritten path) (← Machine.writeFile path octets))
      disk done disk' →
      ∃ files, files.load path = .ok octets ∧ disk' = { disk with toFiles := files } := by
    intro disk h
    obtain ⟨files, hsave, hdisk⟩ := change_orStop h
    exact ⟨files, Files.load_save hsave, hdisk⟩
  rw [writeOut] at h
  split at h
  · rename_i folder _
    obtain ⟨made, disk₁, hmake, h⟩ := bind_iff.mp h
    obtain ⟨_, disk₂, hstop, h⟩ := bind_iff.mp h
    obtain ⟨rfl, rfl⟩ := orStop_iff.mp hstop
    obtain ⟨_, -, rfl⟩ := change_ok hmake
    obtain ⟨files, hload, rfl⟩ := hwrite h
    exact ⟨files, hload, rfl⟩
  · exact hwrite h

end Gives

/-! ## Parameters -/

theorem FoldChoices.apply_ok_iff {choices : FoldChoices} {o o' : FoldOptions} :
    choices.apply o = .ok o' ↔
      (choices.over o).maxDepth ≤ FoldOptions.depthCeiling ∧ choices.over o = o' := by
  unfold FoldChoices.apply FoldOptions.validate
  dsimp only
  split
  · rename_i hdepth
    exact ⟨nofun, fun h => absurd h.1 (Nat.not_le_of_lt hdepth)⟩
  · rename_i hdepth
    exact ⟨fun h => ⟨Nat.le_of_not_lt hdepth, Except.ok.inj h⟩, fun h => congrArg Except.ok h.2⟩

theorem codecOf_ok_iff {name : String} {codec : Codec} :
    codecOf name = .ok codec ↔ Codec.ofName? name = some codec := by
  unfold codecOf
  split
  · rename_i hname
    rw [hname, Except.ok.injEq, Option.some.injEq]
  · rename_i hname
    rw [hname]
    exact ⟨nofun, nofun⟩

end TreeDigest.CommandLine
