import TreeDigest.Proofs.Input.Tells
import TreeDigest.Proofs.Ubjson.Accepts

/-!
# Recording the UBJSON decoder

A value that stands without its marker has not paid for itself when it is begun. It is begun
with a credit, and where its marker could be declared it has a payload, which takes an octet
at least: so the credit is there again when it ends, and the next value can be begun with it. A
container gives it back with the marker that closes it, or with the head that counts its
entries.

What is handed over and what is declared is narrowed down on the way. That an octet can be
declared is decided by the head. Whether it is a marker is found out with the first value, and
so it can stay open where there is none.
-/

namespace TreeDigest.Ubjson

open Recorder (Tells)
open Recording (Keeps)
open Steps (Spends)

/-- Records a step for what a marker announces, with the marker and the place of the element. -/
def recordMarked (payload : UInt8 → Nat → Recorder Unit) : Recorder Unit := do
  let offset ← Recorder.read Reader.offset
  payload (← Recorder.read marker) offset

/-- Records the key of an entry, if its container has keys, and then does a step. -/
def recordEntry (shape : Shape) (value : Recorder Unit) : Recorder Unit :=
  match shape with
  | .list => value
  | .map => do
    Recorder.fold (.key (← Recorder.read text))
    value

/-- Records one round of reading entries up to the marker that closes their container. -/
def recordRound (shape : Shape) (payload : UInt8 → Nat → Recorder Unit) (_ : Nat) :
    Recorder Bool := do
  if (← Recorder.read peekMarker) = endOctet shape then
    Recorder.read Reader.skip
    return false
  else
    recordEntry shape (recordMarked payload)
    return true

/-- Records the entries of a container, with more room for rounds than it needs. -/
def recordEntries (slack : Nat) (shape : Shape) (heading : Heading)
    (payload : UInt8 → Nat → Recorder Unit) : Recorder Unit := do
  match heading.count with
  | some count => do
    Recorder.read (Reader.need (count.toNat * leastEntry shape))
    match heading.shared with
    | some shared =>
      Loop.times (recordEntry shape do payload shared (← Recorder.read Reader.offset)) count.toNat
    | none => Loop.times (recordEntry shape (recordMarked payload)) count.toNat
  | none => do Loop.rounds (recordRound shape payload) 0 (← Recorder.room slack)

/-- Records what a marker announces, by a step for containers. -/
def recordElement (container : Shape → Recorder Unit) (marker : UInt8) (offset : Nat) :
    Recorder Unit :=
  Recorder.element <| match Marker.ofOctet? marker with
    | some .null => Recorder.fold .null
    | some .yes => Recorder.fold (.bool true)
    | some .no => Recorder.fold (.bool false)
    | some (.integer form) => do
      Recorder.fold (.int (Int64.ofInt (← Recorder.read (integerOf form))))
    | some .single => do Recorder.fold (.single (← Recorder.read (Reader.big 4)).toUInt32)
    | some .double => do Recorder.fold (.double (← Recorder.read (Reader.big 8)).toUInt64)
    | some .character => do Recorder.fold (.text (← Recorder.read (Reader.take 1)))
    | some .text => do Recorder.fold (.text (← Recorder.read text))
    | some .listStart => container .list
    | some .mapStart => container .map
    | _ => throw (.decode (.unsupportedType offset marker))

/-- Records a container, after its opening marker. What it declares is noted at its end. -/
def recordContainer (slack levels : Nat) (shape : Shape) : Recorder Unit := do
  let heading ← Recorder.read heading
  Recorder.fold (beginEvent shape heading.count)
  match levels with
  | 0 => pure ()
  | levels + 1 => do
    recordEntries slack shape heading (recordElement (recordContainer slack levels))
    Recorder.declare heading.shared heading.count
    Recorder.fold (endEvent shape)

/-- The decoding of an input with its notes, with some levels and rounds more than there are. -/
def recorded (slack : Nat) (input : Bytes) (o : FoldOptions) :
    EStateM.Result Error Recording Digest :=
  Recorder.run (recordMarked (recordElement (recordContainer slack (slack + o.depthLimit)))) input o

/-! ## What notes are held to -/

/-- What can be handed over: keys and texts are UTF-8, but for characters, and integers are signed. -/
def CanHand : Event → Prop
  | .uint _ => False
  | .key octets => Sayable octets
  | .text octets => Sayable octets ∨ ∃ b, octets = [b]
  | _ => True

/-- What can be declared: a marker that has a payload, or else there are no values to have it. -/
def CanDeclare : UInt8 × Option UInt32 → Prop
  | (_, none) => False
  | (b, some count) =>
    (∃ m : Marker, m.octet = b ∧ m.isShareable = true) ∨ (Marker.ofOctet? b = none ∧ count = 0)

variable {terms : Terms} {depth nesting credit levels limit : Nat} {shape : Shape} {b : UInt8}
  {offset : Nat} {c c' : Cursor}

/-! ## What values take -/

theorem spends_marker : Spends Reader.left (fun _ => 1) marker where
  spent hok := by
    obtain ⟨k, htaken⟩ := marker_ok hok
    have hleft := Reader.left_of_takes htaken
    rw [List.length_append, List.length_singleton] at hleft
    omega

theorem spends_peekMarker : Spends Reader.left (fun _ => 0) peekMarker := peekMarker_persists.spends

theorem spends_integerOf (form : IntegerForm) : Spends Reader.left (fun _ => 1) (integerOf form) where
  spent hok := by
    obtain ⟨i, -, -, htaken⟩ := integerOf_ok hok
    have hpos := form.length_octets_pos i
    have hleft := Reader.left_of_takes htaken
    omega

theorem spends_big {width : Nat} (hwidth : 1 ≤ width) :
    Spends Reader.left (fun _ => 1) (Reader.big width) where
  spent hok := by
    obtain ⟨-, htaken⟩ := Reader.big_ok hok
    have hleft := Reader.left_of_takes htaken
    rw [Bytes.length_big] at hleft
    omega

theorem spends_character : Spends Reader.left (fun _ => 1) (Reader.take 1) where
  spent hok := by
    obtain ⟨hlength, htaken⟩ := Reader.take_ok hok
    have hleft := Reader.left_of_takes htaken
    omega

theorem spends_text : Spends Reader.left (fun _ => 2) text where
  spent hok := by
    obtain ⟨bytes, hspells, htaken⟩ := text_ok hok
    have htwo := hspells.two_le
    have hleft := Reader.left_of_takes htaken
    omega

/-- How many octets a head takes at least. -/
def Heading.least (heading : Heading) : Nat :=
  match heading.count with
  | some _ => 1
  | none => 0

theorem spends_heading : Spends Reader.left Heading.least heading where
  spent {c heading c'} hok := by
    rcases heading_ok hok with ⟨rfl, k, htaken⟩ | ⟨n, bytes, hcount, hspells, -, htaken⟩
    · have hleft := Reader.left_of_takes htaken
      dsimp only [Heading.least]
      omega
    · have hpos := hspells.pos
      have hleft := Reader.left_of_takes htaken
      rw [Heading.least, hcount]
      dsimp only
      omega

/-- A marker that has been seen is an octet to move past. -/
theorem left_of_skip {u : Unit} (hpeek : peekMarker c = .ok b c')
    {c'' : Cursor} (hskip : Reader.skip c' = .ok u c'') : Reader.left c'' + 1 ≤ Reader.left c' := by
  obtain ⟨_, rest, -, hrest, -⟩ := peekMarker_ok hpeek
  exact Nat.le_of_eq (Reader.left_of_takes (skip_ok hrest hskip))

/-- How much of a credit a payload gives back: all, if its marker can be declared. -/
def back (marker : UInt8) : Nat := if isDeclarable marker then 1 else 0

theorem back_octet (m : Marker) : back m.octet = if m.isShareable then 1 else 0 := by
  rw [back, isDeclarable, Marker.ofOctet?_octet]
  rfl

/-! ## Texts -/

/-- A length that was read fits an integer. -/
theorem SpellsLength.lt {n : Nat} {bytes : Bytes} (h : SpellsLength n bytes) :
    n < 0x8000000000000000 := by
  obtain @⟨form, i, idle, -, hvalue⟩ := h
  have hlt := i.toInt_lt
  omega

theorem SpellsText.sayable {octets bytes : Bytes} (h : SpellsText octets bytes) :
    Sayable octets := by
  obtain ⟨hvalid, hlength⟩ := h
  exact ⟨hvalid, hlength.lt⟩

theorem text_sayable {octets : Bytes} (h : text c = .ok octets c') : Sayable octets := by
  obtain ⟨_, hspells, -⟩ := text_ok h
  exact hspells.sayable

/-! ## Recording values -/

section Values

variable {value : Recorder Unit} {model : Decoder Cursor Unit}
  {step : UInt8 → Nat → Recorder Unit} {payload : UInt8 → Nat → Decoder Cursor Unit}

/-- A value is read in so far as it gives back what it can of a credit. -/
abbrev Repays (terms : Terms) (depth : Nat) (step : UInt8 → Nat → Recorder Unit)
    (payload : UInt8 → Nat → Decoder Cursor Unit) : Prop :=
  ∀ credit marker offset, Tells terms (Keeps terms depth depth (credit + 1)) (step marker offset)
    (payload marker offset) fun _ => Keeps terms depth depth (credit + back marker)

theorem recordMarked_tells (h : Repays terms depth step payload) :
    Tells terms (Keeps terms depth depth credit) (recordMarked step) (marked payload)
      fun _ => Keeps terms depth depth credit :=
  .read_bind Reader.Persists.offset.spends fun {offset} _ _ _ =>
    .read_bind spends_marker fun {marker} _ _ _ =>
      (h credit marker offset).mono id fun hr => hr.less (Nat.le_add_right _ _)

/-- Behind a marker that was declared, a credit is given back. -/
theorem recordShared_tells (h : Repays terms depth step payload) (hb : isDeclarable b = true) :
    Tells terms (Keeps terms depth depth (credit + 1)) (do step b (← Recorder.read Reader.offset))
      (do payload b (← Decoder.read Reader.offset))
      fun _ => Keeps terms depth depth (credit + 1) := by
  have hback : back b = 1 := if_pos hb
  exact .read_bind Reader.Persists.offset.spends fun {offset} _ _ _ => hback ▸ h credit b offset

theorem recordEntry_tells (hhands : ∀ e, CanHand e → terms.Hands e) (hdepth : depth ≤ terms.limit)
    (h : Tells terms (Keeps terms depth nesting credit) value model
      fun _ => Keeps terms depth nesting credit) :
    Tells terms (Keeps terms depth nesting credit) (recordEntry shape value) (entry shape model)
      fun _ => Keeps terms depth nesting credit := by
  cases shape with
  | list => exact h
  | map =>
    refine .read_bind spends_text fun {key} _ _ hread => ?_
    have hkey : terms.Hands (.key key) := hhands _ (text_sayable hread)
    exact .bind (.key hkey hdepth) fun _ => h.mono (fun hr => hr.less (Nat.le_succ _)) id

theorem recordRound_tells (hhands : ∀ e, CanHand e → terms.Hands e) (hdepth : depth ≤ terms.limit)
    (h : Repays terms depth step payload) (round : Nat) :
    Tells terms (Keeps terms depth depth credit) (recordRound shape step round)
      (closedRound shape payload round) fun more =>
        if more then Keeps terms depth depth credit else Keeps terms depth depth (credit + 1) := by
  refine .read_bind_at spends_peekMarker fun {b c c'} hpeek => ?_
  split
  · have hskip : ∀ {c₁ u c₂}, c₁ = c' → Reader.skip c₁ = .ok u c₂ →
        Reader.left c₂ + 1 ≤ Reader.left c₁ := by
      rintro c₁ u c₂ rfl hok
      exact left_of_skip hpeek hok
    exact .bind (.read_at hskip) fun _ => .pure _ And.left
  · exact .bind ((recordEntry_tells hhands hdepth (recordMarked_tells h)).mono And.left id)
      fun _ => .pure _ id

/-- Entries that are counted have a credit to begin with, and others find one at their end. -/
theorem recordEntries_tells (hhands : ∀ e, CanHand e → terms.Hands e) (hdepth : depth ≤ terms.limit)
    {slack : Nat} {heading : Heading} (hpayload : ∀ marker offset, (payload marker offset).Persists)
    (hdeclared : ∀ b ∈ heading.shared, isDeclarable b = true)
    (h : Repays terms depth step payload) :
    Tells terms (Keeps terms depth depth (credit + heading.least))
      (recordEntries slack shape heading step) (entries shape heading payload)
      fun _ => Keeps terms depth depth (credit + 1) := by
  obtain ⟨shared, count⟩ := heading
  cases count with
  | some count =>
    refine .read_bind Reader.spends_need fun _ => ?_
    cases shared with
    | some b =>
      exact .times (recordEntry_tells hhands hdepth (recordShared_tells h (hdeclared b rfl))) _
    | none => exact .times (recordEntry_tells hhands hdepth (recordMarked_tells h)) _
  | none =>
    exact .rounds (recordRound_tells hhands hdepth h) (closedRound_shorter hpayload _) slack

/-- A payload of an octet at least pays for its value. -/
theorem payload_tells {α : Type} {reader : Reader α} {e : α → Event} {p : α → Primitive}
    (hspends : Spends Reader.left (fun _ => 1) reader)
    (hscalar : ∀ a, Folding.event (e a) = Folding.scalar (p a))
    (hcloses : ∀ a, (e a).closes = false)
    (hhands : ∀ {a c c'}, reader c = .ok a c' → terms.Hands (e a)) (hdepth : depth ≤ terms.limit) :
    Tells terms (Keeps terms depth nesting (credit + 1))
      (do Recorder.fold (e (← Recorder.read reader))) (do Decoder.fold (e (← Decoder.read reader)))
      fun _ => Keeps terms depth nesting (credit + 1) :=
  .read_bind hspends fun {a} _ _ hread => .scalar (hscalar a) (hcloses a) (hhands hread) hdepth

/-- What a marker announces repays its credit if containers do. -/
theorem recordElement_repays (hhands : ∀ e, CanHand e → terms.Hands e)
    (hdepth : depth ≤ terms.limit) {container : Shape → Recorder Unit}
    (h : ∀ credit shape, Tells terms (Keeps terms depth (depth + 1) (credit + 1)) (container shape)
      (Ubjson.container levels shape) fun _ => Keeps terms depth (depth + 1) (credit + 1)) :
    Repays terms depth (recordElement container) (foldMarked levels) := by
  intro credit marker offset
  refine .element hdepth ?_
  cases hmarker : Marker.ofOctet? marker with
  | none =>
    rw [foldMarked.eq_def, hmarker]
    exact .throw _ Keeps.within
  | some m =>
    obtain rfl := Marker.octet_of_ofOctet? hmarker
    rw [back_octet]
    cases m with
    | listStart =>
      rw [foldMarked_list]
      exact h credit .list
    | mapStart =>
      rw [foldMarked_map]
      exact h credit .map
    | null | yes | no =>
      rw [foldMarked.eq_def, hmarker]
      exact .scalar rfl rfl (hhands _ trivial) hdepth
    | integer form =>
      rw [foldMarked.eq_def, hmarker]
      exact payload_tells (e := fun n : Int => .int (Int64.ofInt n)) (spends_integerOf form)
        (fun _ => rfl) (fun _ => rfl) (fun _ => hhands _ trivial) hdepth
    | single =>
      rw [foldMarked.eq_def, hmarker]
      exact payload_tells (e := fun n : Nat => .single n.toUInt32) (spends_big (by decide))
        (fun _ => rfl) (fun _ => rfl) (fun _ => hhands _ trivial) hdepth
    | double =>
      rw [foldMarked.eq_def, hmarker]
      exact payload_tells (e := fun n : Nat => .double n.toUInt64) (spends_big (by decide))
        (fun _ => rfl) (fun _ => rfl) (fun _ => hhands _ trivial) hdepth
    | character =>
      rw [foldMarked.eq_def, hmarker]
      refine payload_tells spends_character (fun _ => rfl) (fun _ => rfl) (fun hread => ?_) hdepth
      exact hhands _ (.inr (List.length_eq_one_iff.mp (Reader.take_ok hread).1))
    | text =>
      rw [foldMarked.eq_def, hmarker]
      refine payload_tells (spends_text.mono fun _ => Nat.le_succ 1) (fun _ => rfl) (fun _ => rfl)
        (fun hread => ?_) hdepth
      exact hhands _ (.inl (text_sayable hread))
    | _ =>
      rw [foldMarked.eq_def, hmarker]
      exact .throw _ Keeps.within

end Values

/-! ## Recording containers -/

/-- The event that begins a container is paid for by the credit, and so the head is left over. -/
theorem begin_tells (hhands : ∀ e, CanHand e → terms.Hands e) (heading : Heading) :
    Tells terms (Keeps terms depth nesting (credit + 1 + heading.least))
      (Recorder.fold (beginEvent shape heading.count))
      (Decoder.fold (beginEvent shape heading.count))
      fun _ => Keeps terms (depth + 1) nesting (credit + heading.least) := by
  rw [Nat.add_right_comm]
  cases shape with
  | list => exact .beginList (hhands _ trivial)
  | map => exact .beginMap (hhands _ trivial)

theorem end_tells (hhands : ∀ e, CanHand e → terms.Hands e) (hdepth : depth ≤ terms.limit) :
    Tells terms (Keeps terms (depth + 1) nesting credit) (Recorder.fold (endEvent shape))
      (Decoder.fold (endEvent shape)) fun _ => Keeps terms depth nesting credit := by
  cases shape with
  | list => exact .endList (hhands _ trivial) hdepth
  | map => exact .endMap (hhands _ trivial) hdepth

/-- What a head has declared is borne out by the entries. -/
theorem Understands.canDeclare {payload : UInt8 → Nat → Decoder Cursor Unit} {heading : Heading}
    {d d' : Decoding Cursor} (h : Understands limit depth payload)
    (hd : d.folder.Stands limit depth)
    (hheading : ∀ b ∈ heading.shared, isDeclarable b = true ∧ heading.count.isSome = true)
    (hok : Ubjson.entries shape heading payload d = .ok () d') :
    ∀ b ∈ heading.shared, CanDeclare (b, heading.count) := by
  obtain ⟨shared, count⟩ := heading
  rintro b rfl
  obtain ⟨hdeclarable, hcount⟩ := hheading b rfl
  obtain ⟨count, rfl⟩ := Option.isSome_iff_exists.mp hcount
  cases hmarker : Marker.ofOctet? b with
  | some m =>
    rw [isDeclarable, hmarker] at hdeclarable
    exact .inl ⟨m, Marker.octet_of_ofOctet? hmarker, hdeclarable⟩
  | none =>
    obtain ⟨_, d₁, hneed, hok⟩ := Steps.bind_eq_ok_iff.mp hok
    obtain ⟨c₁, -, rfl⟩ := Decoder.reading_eq_ok_iff.mp hneed
    have hnone : count.toNat = 0 := h.idle (d := ⟨c₁, d.folder⟩) hd hmarker hok
    exact .inr ⟨hmarker, UInt32.toNat_inj.mp hnone⟩

theorem heading_shared {heading : Heading} (h : Ubjson.heading c = .ok heading c') :
    ∀ b ∈ heading.shared, isDeclarable b = true ∧ heading.count.isSome = true := by
  rcases heading_ok h with ⟨rfl, -⟩ | ⟨n, _, hcount, -, hdeclared, -⟩
  · exact nofun
  · exact fun b hb => ⟨hdeclared b hb, hcount ▸ rfl⟩

/-- A container gives back the credit that it is begun with. -/
theorem recordContainer_tells (hhands : ∀ e, CanHand e → terms.Hands e)
    (hdeclares : ∀ b, CanDeclare b → terms.Declares b) {slack : Nat}
    (hlimit : terms.limit = depth + levels) (shape : Shape) :
    Tells terms (Keeps terms depth (depth + 1) (credit + 1))
      (recordContainer slack (slack + levels) shape) (container levels shape)
      fun _ => Keeps terms depth (depth + 1) (credit + 1) := by
  induction levels generalizing depth credit shape with
  | zero =>
    rw [recordContainer.eq_def, container]
    refine .read_bind spends_heading fun {heading} _ _ _ => ?_
    exact .bind (begin_tells hhands heading) fun _ => .absurd fun hr =>
      absurd hr.depth_le (by omega)
  | succ levels ih =>
    have hdepth : depth ≤ terms.limit := by omega
    have hinside : depth + 1 ≤ terms.limit := by omega
    have hunderstands := foldMarked_understands (show terms.limit = depth + 1 + levels by omega)
    have hrepays := recordElement_repays hhands hinside fun credit shape => ih (by omega) shape
    rw [← Nat.add_assoc, recordContainer, container]
    refine .read_bind spends_heading fun {heading} _ _ hread => ?_
    have hshared := heading_shared hread
    refine .bind (begin_tells hhands heading) fun _ => ?_
    have hentries : Tells terms (Keeps terms (depth + 1) (depth + 1) (credit + heading.least))
        (recordEntries slack shape heading (recordElement (recordContainer slack (slack + levels))))
        (entries shape heading (foldMarked levels))
        fun _ => Keeps terms (depth + 1) (depth + 1) (credit + 1) :=
      recordEntries_tells hhands hinside foldMarked_persists (fun b hb => (hshared b hb).1) hrepays
    have hborne : ∀ {r : Recording} {u d},
        r.Keeps terms (depth + 1) (depth + 1) (credit + heading.least) →
        entries shape heading (foldMarked levels) r.toDecoding = .ok u d →
        ∀ b ∈ heading.shared, CanDeclare (b, heading.count) := fun hr hok =>
      hunderstands.canDeclare hr.stands hshared hok
    exact .bind (hentries.learn hborne) fun _ => .given fun hdeclared =>
      .declare_bind (fun b hb => hdeclares _ (hdeclared b hb)) (end_tells hhands hdepth)

/-- **Whole inputs, with any number of levels and rounds more.** -/
theorem recorded_records (slack : Nat) (input : Bytes) (o : FoldOptions) :
    Recorder.Records (.ofInput CanHand CanDeclare input o) (recorded slack input o)
      (fold o.depthLimit) input := by
  have hlimit : (Terms.ofInput CanHand CanDeclare input o).limit = 0 + o.depthLimit :=
    (Nat.zero_add _).symm
  refine Recorder.run_records (recordMarked_tells ?_)
  exact recordElement_repays (fun _ => id) (Nat.zero_le _) fun credit shape =>
    recordContainer_tells (fun _ => id) (fun _ => id) hlimit shape

end TreeDigest.Ubjson
