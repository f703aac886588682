import TreeDigest.Proofs.Input.Tells
import TreeDigest.Proofs.MessagePack.Spends

/-!
# Recording the MessagePack decoder

An element has paid for its event with the octet of its tag, and a key for its own with the
octet of its own. So the credit that an element begins with is the one it ends with.
-/

namespace TreeDigest.MessagePack

open Recorder (Tells)
open Recording (Keeps)

/-- Records a key and then does a step for its value. -/
def recordPair (value : Recorder Unit) : Recorder Unit := do
  Recorder.fold (.key (← Recorder.read key))
  value

/-- Records the folding of one element. -/
def record (levels : Nat) : Recorder Unit := Recorder.element do
  match ← Recorder.read tag with
  | .null => Recorder.fold .null
  | .bool b => Recorder.fold (.bool b)
  | .int i => Recorder.fold (.int i)
  | .uint u => Recorder.fold (.uint u)
  | .single bits => Recorder.fold (.single bits)
  | .double bits => Recorder.fold (.double bits)
  | .text octets => Recorder.fold (.text octets)
  | .array count => do
    Recorder.fold (.beginList (some count))
    match levels with
    | 0 => pure ()
    | levels + 1 => do
      Recorder.read (claim count 1)
      Loop.times (record levels) count.toNat
      Recorder.fold .endList
  | .map count => do
    Recorder.fold (.beginMap (some count))
    match levels with
    | 0 => pure ()
    | levels + 1 => do
      Recorder.read (claim count 2)
      Loop.times (recordPair (record levels)) count.toNat
      Recorder.fold .endMap

/-- The decoding of an input with its notes, with some levels more than the options grant. -/
def recorded (slack : Nat) (input : Bytes) (o : FoldOptions) :
    EStateM.Result Error Recording Digest :=
  Recorder.run (record (slack + o.depthLimit)) input o

variable {terms : Terms} {depth credit levels slack : Nat}

theorem recordPair_tells (hhands : ∀ e, terms.Hands e) (hdepth : depth ≤ terms.limit)
    {value : Recorder Unit} {model : Decoder Cursor Unit} {nesting : Nat}
    (h : Tells terms (Keeps terms depth nesting credit) value model
      fun _ => Keeps terms depth nesting credit) :
    Tells terms (Keeps terms depth nesting credit) (recordPair value) (foldPair model)
      fun _ => Keeps terms depth nesting credit :=
  .read_bind spends_key fun _ => .bind (.key (hhands _) hdepth) fun _ => h

/-- **The recorder records the decoder, and leaves its credit as it was.** -/
theorem record_tells (hhands : ∀ e, terms.Hands e) (hlimit : terms.limit = depth + levels) :
    Tells terms (Keeps terms depth depth credit) (record (slack + levels)) (fold levels)
      fun _ => Keeps terms depth depth credit := by
  induction levels generalizing depth with
  | zero =>
    have hdepth : depth ≤ terms.limit := by omega
    have hfull : ∀ {r : Recording}, ¬ r.Keeps terms (depth + 1) (depth + 1) credit := fun hr =>
      absurd hr.depth_le (by omega)
    rw [record, fold]
    refine .element hdepth (.read_bind spends_tag fun {tag} _ _ _ => ?_)
    cases tag with
    | array count => exact .bind (.beginList (hhands _)) fun _ => .absurd hfull
    | map count => exact .bind (.beginMap (hhands _)) fun _ => .absurd hfull
    | _ => exact .scalar rfl rfl (hhands _) hdepth
  | succ levels ih =>
    have hdepth : depth ≤ terms.limit := by omega
    have hinside : depth + 1 ≤ terms.limit := by omega
    have hentry : Tells terms (Keeps terms (depth + 1) (depth + 1) credit)
        (record (slack + levels)) (fold levels)
        fun _ => Keeps terms (depth + 1) (depth + 1) credit := ih (by omega)
    rw [← Nat.add_assoc, record, fold]
    refine .element hdepth (.read_bind spends_tag fun {tag} _ _ _ => ?_)
    cases tag with
    | array count =>
      refine .bind (.beginList (hhands _)) fun _ => .read_bind Reader.spends_need fun _ => ?_
      exact .bind (.times hentry _) fun _ => .endList (hhands _) hdepth
    | map count =>
      refine .bind (.beginMap (hhands _)) fun _ => .read_bind Reader.spends_need fun _ => ?_
      exact .bind (.times (recordPair_tells hhands hinside hentry) _) fun _ =>
        .endMap (hhands _) hdepth
    | _ => exact .scalar rfl rfl (hhands _) hdepth

/-- **Whole inputs, with any number of levels more.** -/
theorem recorded_records (slack : Nat) (input : Bytes) (o : FoldOptions) :
    Recorder.Records (.ofInput (fun _ => True) (fun _ => True) input o) (recorded slack input o)
      (fold o.depthLimit) input :=
  Recorder.run_records (record_tells (fun _ => trivial) (Nat.zero_add _).symm)

end TreeDigest.MessagePack
