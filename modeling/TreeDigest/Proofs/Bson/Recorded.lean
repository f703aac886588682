import TreeDigest.Proofs.Bson.Persists
import TreeDigest.Proofs.Input.Tells

/-!
# Recording the BSON decoder

A document is begun before anything of it is read, so it needs a credit to begin with. Its
length gives back more than that, and every element of it takes the octet of its type and the
one that ends its key, which pay for a key and a value. So a document, and every round of its
elements, ends with the credit that it began with.

There is no count of elements, and what ends the rounds is that each that goes on takes an
octet.
-/

namespace TreeDigest.Bson

open Recorder (Tells)
open Recording (Keeps)
open Steps (Spends)

/-- Records the key of an element. That of an array element is only checked. -/
def recordKey (isArray : Bool) (header : Header) (index : Nat) : Recorder Unit :=
  if isArray then Recorder.read (checkIndex header index) else Recorder.fold (.key header.key)

/-- Records the folding of a payload, by a step for documents. -/
def recordPayload (document : (isArray : Bool) → Recorder Unit) : Payload → Recorder Unit
  | .null => Recorder.fold .null
  | .bool b => Recorder.fold (.bool b)
  | .int i => Recorder.fold (.int i)
  | .double bits => Recorder.fold (.double bits)
  | .text octets => Recorder.fold (.text octets)
  | .document => document false
  | .array => document true

/-- Records the next element of a document that ends at `finish`, if there is one. -/
def recordElement (document : (isArray : Bool) → Recorder Unit) (isArray : Bool)
    (finish index : Nat) : Recorder Bool := do
  match ← Recorder.read (nextElement finish) with
  | none => return false
  | some header => do
    recordKey isArray header index
    Recorder.element do recordPayload document (← Recorder.read (payload header))
    return true

/-- Records the folding of one document, with more room for its elements than it needs. -/
def record (slack levels : Nat) (isArray : Bool) : Recorder Unit := do
  Recorder.fold (if isArray then .beginList none else .beginMap none)
  match levels with
  | 0 => pure ()
  | levels + 1 => do
    let finish ← Recorder.read openDocument
    Loop.rounds (recordElement (record slack levels) isArray finish) 0 (← Recorder.room slack)
    Recorder.fold (if isArray then .endList else .endMap)

/-- The decoding of an input with its notes, with some levels and rounds more than there are. -/
def recorded (slack : Nat) (input : Bytes) (o : FoldOptions) :
    EStateM.Result Error Recording Digest :=
  Recorder.run (Recorder.element (record slack (slack + o.depthLimit) (rootIsArray input))) input o

variable {terms : Terms} {depth nesting credit levels finish index : Nat} {isArray : Bool}
  {header : Header}

/-! ## What elements take -/

/-- How many octets the head of an element takes at least. -/
def leastHeader : Option Header → Nat
  | none => 0
  | some _ => 2

theorem spends_openDocument : Spends Reader.left (fun _ => 1) openDocument where
  spent hok := by
    obtain ⟨length, -, -, -, htaken⟩ := openDocument_ok hok
    have hleft := Reader.left_of_takes htaken
    rw [Bytes.length_little] at hleft
    omega

theorem spends_nextElement : Spends Reader.left leastHeader (nextElement finish) where
  spent {c header c'} hok := by
    cases header with
    | none =>
      have hleft := Reader.left_of_takes (nextElement_none hok).1
      exact hleft ▸ Nat.le_add_right _ _
    | some header =>
      obtain ⟨-, -, htaken⟩ := nextElement_some hok
      have hleft := Reader.left_of_takes htaken
      rw [List.length_cons, List.length_append, List.length_singleton] at hleft
      rw [leastHeader]
      omega

theorem spends_checkIndex : Spends Reader.left (fun _ => 0) (checkIndex header index) := by
  unfold checkIndex
  split
  · exact .pure _
  · exact (Reader.Persists.malformed _ _).spends

section Documents

variable {document : Bool → Decoder Cursor Unit}

theorem spends_foldPayload (h : ∀ b, Spends Decoder.left (fun _ => 0) (document b)) (p : Payload) :
    Spends Decoder.left (fun _ => 0) (foldPayload document p) := by
  cases p with
  | document => exact h false
  | array => exact h true
  | _ => exact Decoder.spends_fold _

/-- What comes after the head of an element takes nothing back. -/
theorem spends_afterHeader (h : ∀ b, Spends Decoder.left (fun _ => 0) (document b)) :
    Spends Decoder.left (fun _ => 0) (do
      foldKey isArray header index
      foldPayload document (← Decoder.read (payload header))
      return true) := by
  have hkey : Spends Decoder.left (fun _ => 0) (foldKey isArray header index) := by
    unfold foldKey
    split
    · exact Decoder.spends_read spends_checkIndex
    · exact Decoder.spends_fold _
  refine .bind_first hkey fun _ => ?_
  refine .bind_first (Decoder.spends_read (payload_persists header).spends) fun p => ?_
  exact .bind_last (spends_foldPayload h p) fun _ => .pure true

/-- An element that there is takes an octet. -/
theorem foldElement_shorter (h : ∀ b, Spends Decoder.left (fun _ => 0) (document b))
    {d d' : Decoding Cursor} (hok : foldElement document isArray finish index d = .ok true d') :
    Decoder.left d' < Decoder.left d := by
  obtain ⟨header, d₁, hnext, hok⟩ := Steps.bind_eq_ok_iff.mp hok
  have hfirst := (Decoder.spends_read spends_nextElement).spent hnext
  cases header with
  | none => cases hok
  | some header =>
    have hrest := (spends_afterHeader h).spent hok
    rw [leastHeader] at hfirst
    omega

theorem spends_foldElement (h : ∀ b, Spends Decoder.left (fun _ => 0) (document b)) :
    Spends Decoder.left (fun _ => 0) (foldElement document isArray finish index) := by
  refine .bind_first ((Decoder.spends_read spends_nextElement).mono fun _ => Nat.zero_le _)
    fun header => ?_
  cases header with
  | none => exact .pure _
  | some header => exact spends_afterHeader h

end Documents

theorem spends_fold : Spends Decoder.left (fun _ => 0) (fold levels isArray) := by
  induction levels generalizing isArray with
  | zero => exact .bind_first (Decoder.spends_fold _) fun _ => .pure _
  | succ levels ih =>
    have hentries : ∀ finish room, Spends Decoder.left (fun _ => 0)
        (Loop.rounds (foldElement (fold levels) isArray finish) 0 (room : Bytes)) :=
      fun finish room => .rounds (fun index => spends_foldElement fun _ => ih) 0 room
    have hopen : Spends Decoder.left (fun _ => 0) (Decoder.read openDocument) :=
      (Decoder.spends_read spends_openDocument).mono fun _ => Nat.zero_le _
    rw [fold]
    refine .bind_first (Decoder.spends_fold _) fun _ => .bind_first hopen fun finish => ?_
    refine ⟨fun {d u d'} hok => ?_⟩
    obtain ⟨room, d₁, hroom, hok⟩ := Steps.bind_eq_ok_iff.mp hok
    cases hroom
    exact ((hentries finish _).bind_first fun _ => Decoder.spends_fold _).spent hok

/-! ## Recording documents -/

section Elements

variable {step : Bool → Recorder Unit} {document : Bool → Decoder Cursor Unit}

theorem recordPayload_tells (hhands : ∀ e, terms.Hands e) (hdepth : depth ≤ terms.limit)
    (h : ∀ b, Tells terms (Keeps terms depth nesting (credit + 1)) (step b) (document b)
      fun _ => Keeps terms depth nesting (credit + 1)) (p : Payload) :
    Tells terms (Keeps terms depth nesting (credit + 1)) (recordPayload step p)
      (foldPayload document p) fun _ => Keeps terms depth nesting credit := by
  have hless : ∀ {r : Recording}, r.Keeps terms depth nesting (credit + 1) →
      r.Keeps terms depth nesting credit := fun hr => hr.less (Nat.le_succ _)
  cases p with
  | document => exact (h false).mono id hless
  | array => exact (h true).mono id hless
  | _ => exact .scalar rfl rfl (hhands _) hdepth

theorem recordKey_tells (hhands : ∀ e, terms.Hands e) (hdepth : depth ≤ terms.limit) :
    Tells terms (Keeps terms depth nesting (credit + 1)) (recordKey isArray header index)
      (foldKey isArray header index) fun _ => Keeps terms depth nesting credit := by
  cases isArray with
  | true => exact (Tells.read spends_checkIndex).mono id fun hr => hr.1.less (Nat.le_succ _)
  | false => exact .key (hhands _) hdepth

theorem recordElement_tells (hhands : ∀ e, terms.Hands e) (hdepth : depth ≤ terms.limit)
    (h : ∀ b credit, Tells terms (Keeps terms depth (depth + 1) (credit + 1)) (step b) (document b)
      fun _ => Keeps terms depth (depth + 1) (credit + 1)) :
    Tells terms (Keeps terms depth depth credit) (recordElement step isArray finish index)
      (foldElement document isArray finish index) fun more =>
        if more then Keeps terms depth depth credit else Keeps terms depth depth credit := by
  refine .read_bind spends_nextElement fun {header} _ _ _ => ?_
  cases header with
  | none => exact .pure _ id
  | some header =>
    -- the payload with its value is one element
    have hvalue : Tells terms (Keeps terms depth depth (credit + 1))
        (Recorder.element do recordPayload step (← Recorder.read (payload header)))
        (do foldPayload document (← Decoder.read (payload header)))
        fun _ => Keeps terms depth depth credit :=
      .element hdepth (.read_bind (payload_persists header).spends fun {p} _ _ _ =>
        recordPayload_tells hhands hdepth (fun b => h b credit) p)
    have hmodel : (do foldPayload document (← Decoder.read (payload header)); return true) = (do
        (do foldPayload document (← Decoder.read (payload header)) : Decoder Cursor Unit)
        return true) := (bind_assoc ..).symm
    refine .bind (recordKey_tells hhands hdepth) fun _ => ?_
    rw [hmodel]
    exact .bind hvalue fun _ => .pure _ id

end Elements

theorem begin_tells (hhands : ∀ e, terms.Hands e) :
    Tells terms (Keeps terms depth nesting (credit + 1))
      (Recorder.fold (if isArray then .beginList none else .beginMap none)) (foldBegin isArray)
      fun _ => Keeps terms (depth + 1) nesting credit := by
  cases isArray with
  | true => exact .beginList (hhands _)
  | false => exact .beginMap (hhands _)

theorem end_tells (hhands : ∀ e, terms.Hands e) (hdepth : depth ≤ terms.limit) :
    Tells terms (Keeps terms (depth + 1) nesting credit)
      (Recorder.fold (if isArray then .endList else .endMap)) (foldEnd isArray)
      fun _ => Keeps terms depth nesting credit := by
  cases isArray with
  | true => exact .endList (hhands _) hdepth
  | false => exact .endMap (hhands _) hdepth

/-- **The recorder records the decoder**, given a credit that it gives back. -/
theorem record_tells {slack : Nat} (hhands : ∀ e, terms.Hands e)
    (hlimit : terms.limit = depth + levels) :
    Tells terms (Keeps terms depth (depth + 1) (credit + 1)) (record slack (slack + levels) isArray)
      (fold levels isArray) fun _ => Keeps terms depth (depth + 1) (credit + 1) := by
  induction levels generalizing depth credit isArray with
  | zero =>
    rw [record.eq_def, fold]
    exact .bind (begin_tells hhands) fun _ => .absurd fun hr => absurd hr.depth_le (by omega)
  | succ levels ih =>
    have hdepth : depth ≤ terms.limit := by omega
    have hinside : depth + 1 ≤ terms.limit := by omega
    rw [← Nat.add_assoc, record, fold]
    refine .bind (begin_tells hhands) fun _ =>
      .read_bind spends_openDocument fun {finish} _ _ _ => ?_
    refine .rounds_bind (fun index => ?_) (foldElement_shorter fun _ => spends_fold) slack
      (end_tells hhands hdepth)
    exact recordElement_tells hhands hinside fun b credit => ih (by omega)

/-- **Whole inputs, with any number of levels and rounds more.** -/
theorem recorded_records (slack : Nat) (input : Bytes) (o : FoldOptions) :
    Recorder.Records (.ofInput (fun _ => True) (fun _ => True) input o) (recorded slack input o)
      (fold o.depthLimit (rootIsArray input)) input :=
  Recorder.run_records (.element (Nat.zero_le _)
    (record_tells (fun _ => trivial) (Nat.zero_add _).symm))

end TreeDigest.Bson
