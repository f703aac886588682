import TreeDigest.Proofs.Input.Orderly
import TreeDigest.Proofs.Output.Performs
import TreeDigest.Proofs.Ubjson.Persists

/-!
# What goes wrong in UBJSON

No reader of UBJSON fails with a wrong count, and its events are in order. A container
with a count is handed exactly as many entries, and one without a count as many as stand
before its end. So the only thing that can go wrong beyond the input is that there are
more of these than 32 bits can count, and that takes an input of as many octets.

A writer refuses some texts, keys and integers, and otherwise does what a walk over its
tree does.
-/

namespace TreeDigest.Ubjson

open Steps (FailsWith)
open Folder (Stops)
open Folding (Turns)
open Decoder (Orderly Shortens)
open Decoding (At)

variable {levels size n : Nat} {crowded : Prop} {shape : Shape} {declared : Option UInt32}
  {seen : UInt32} {g : Folder}

/-! ## Containers -/

/-- A container has been opened and some of its entries counted, and another may stand next. -/
def inShape (g : Folder) (declared : Option UInt32) (seen : UInt32) : Shape → Folder
  | .list => g.inList declared seen
  | .map => g.inMap declared seen false none

theorem begin_turns (h : g.Ready crowded) :
    Turns (Stops crowded) (Folding.event (beginEvent shape declared)) g
      (inShape g declared 0 shape) := by
  cases shape with
  | list => exact Folding.beginList_turns declared h
  | map => exact Folding.beginMap_turns declared h

/-- Where no level is left, the container is refused. -/
theorem begin_turns_full (h : g.Ready crowded) (hlimit : g.limit = g.depth) {g' : Folder} :
    Turns (Stops crowded) (Folding.event (beginEvent shape declared)) g g' where
  error := (begin_turns h).error
  ok {f u f'} hf hok := by
    have hopen : f.depth < f.limit := by
      cases shape with
      | list => exact (Folding.beginList_eq_ok_iff.mp hok).2.1
      | map => exact (Folding.beginMap_eq_ok_iff.mp hok).2.1
    rw [hf.depth, hf.limit, hlimit] at hopen
    exact absurd hopen (Nat.lt_irrefl _)

theorem end_turns (h : g.Ready crowded) (hcount : Folder.mismatch? declared seen = none) :
    Turns (Stops crowded) (Folding.event (endEvent shape)) (inShape g declared seen shape)
      g.counted := by
  cases shape with
  | list => exact Folding.endList_turns h hcount
  | map => exact Folding.endMap_turns h hcount

/-! ## Values -/

/-- At most so many octets are left. -/
def Left (n : Nat) (c : Cursor) : Prop := c.rest.length ≤ n

theorem read_orderly {α : Type} {reader : Reader α} (h : reader.Persists) :
    Orderly crowded (At (Left n) g) (Decoder.read reader) fun _ => At (Left n) g :=
  .reading (fun herror => ⟨_, rfl, h.uncounting.error herror⟩) fun hleft hok =>
    Nat.le_trans (h.reaches hok).rest_le hleft

/-- From every folder that is ready for a value, a step counts one or fails for a reason. -/
structure Counting (size levels : Nat) (step : Decoder Cursor Unit) : Prop where
  orderly : ∀ {n g}, n ≤ size → g.Ready (0x100000000 ≤ size) → g.limit = g.depth + levels →
    Orderly (0x100000000 ≤ size) (At (Left n) g) step fun _ => At (Left n) g.counted

/-- Inside a container a value is waited for, of a level less. -/
theorem Counting.entry {value : Decoder Cursor Unit} (h : Counting size levels value) (hn : n ≤ size)
    (hg : g.Ready (0x100000000 ≤ size)) (hlimit : g.limit = g.depth + (levels + 1))
    (hseen : (seen = Folder.greatestCount → 0x100000000 ≤ size) ∧
      Folder.surplus? declared (seen + 1) = none) :
    Orderly (0x100000000 ≤ size) (At (Left n) (inShape g declared seen shape)) (entry shape value)
      fun _ => At (Left n) (inShape g declared (seen + 1) shape) := by
  have hlevel : ∀ frame, ({ g with frames := frame :: g.frames } : Folder).limit =
      ({ g with frames := frame :: g.frames } : Folder).depth + levels := by
    intro frame
    show g.limit = g.depth + 1 + levels
    omega
  cases shape with
  | list => exact h.orderly hn (hg.inList hseen) (hlevel _)
  | map =>
    refine .bind (read_orderly text_persists) fun k => ?_
    refine .bind (.fold (Folding.key_turns k)) fun _ => ?_
    exact h.orderly hn (hg.inMap hseen) (hlevel _)

theorem Counting.marked {payload : UInt8 → Nat → Decoder Cursor Unit}
    (h : ∀ marker offset, Counting size levels (payload marker offset)) :
    Counting size levels (marked payload) := ⟨fun hn hg hlimit =>
  .bind (read_orderly .offset) fun offset =>
    .bind (read_orderly marker_persists) fun marker =>
      (h marker offset).orderly hn hg hlimit⟩

/-- As many entries as were declared. -/
theorem times_orderly {step : Decoder Cursor Unit} {count : UInt32} (h : Counting size levels step)
    (hn : n ≤ size) (hg : g.Ready (0x100000000 ≤ size)) (hlimit : g.limit = g.depth + (levels + 1)) :
    Orderly (0x100000000 ≤ size) (At (Left n) (inShape g (some count) 0 shape))
      (Loop.times (entry shape step) count.toNat)
      fun _ => At (Left n) (inShape g (some count) count shape) := by
  have hcount : count.toNat < 0x100000000 := count.toNat_lt
  have htimes : Orderly (0x100000000 ≤ size) (At (Left n) (inShape g (some count) 0 shape))
      (Loop.times (entry shape step) count.toNat)
      fun _ => At (Left n) (inShape g (some count) count.toNat.toUInt32 shape) := by
    refine .times (fun seen => At (Left n) (inShape g (some count) seen.toUInt32 shape))
      fun seen hseen => ?_
    have hroom : Folder.RoomAfter (some count) seen := .of_lt hcount (by rintro d ⟨⟩; rfl) hseen
    rw [← Folder.succ_toUInt32]
    exact h.entry hn hg hlimit ⟨fun hfull => absurd hfull hroom.hasRoom.1, hroom.hasRoom.2⟩
  rwa [show count.toNat.toUInt32 = count from UInt32.ofNat_toNat] at htimes

/-- What is left before an entry is more than what is left behind it. -/
theorem shortened {step : Decoder Cursor Unit} {before after : Folder} (h : step.Shortens)
    (hstep : Orderly crowded (At (Left (n + 1)) before) step fun _ => At (Left (n + 1)) after) :
    Orderly crowded (At (Left (n + 1)) before) step fun _ => At (Left n) after where
  ok {d u d'} hd hok := by
    have hshorter := h.shorter hok
    have hleft : d.input.rest.length ≤ n + 1 := hd.2
    refine ⟨(hstep.ok hd hok).1, ?_⟩
    show d'.input.rest.length ≤ n
    omega
  error := hstep.error

/-- What is left and what was counted are no more than there was. -/
def Spent (n seen : Nat) (c : Cursor) : Prop := c.rest.length + seen ≤ n

/-- An entry up to the end of a container takes an octet, or there is none. -/
theorem next_orderly {step : Decoder Cursor Unit} {seen : Nat} (h : Counting size levels step)
    (hshortens : step.Shortens) (hn : n ≤ size) (hg : g.Ready (0x100000000 ≤ size))
    (hlimit : g.limit = g.depth + (levels + 1)) :
    Orderly (0x100000000 ≤ size)
      (At (fun c => c.rest ≠ [] ∧ Spent n seen c) (inShape g none seen.toUInt32 shape))
      (entry shape step)
      fun _ => At (Spent n (seen + 1)) (inShape g none (seen + 1).toUInt32 shape) := by
  refine .of_before fun d hd => ?_
  obtain ⟨left, hleft⟩ : ∃ left, n = left + 1 + seen := by
    have hpos := List.length_pos_iff.mpr hd.2.1
    have hspent : d.input.rest.length + seen ≤ n := hd.2.2
    exact ⟨n - seen - 1, by omega⟩
  have hseen : (seen.toUInt32 = Folder.greatestCount → 0x100000000 ≤ size) ∧
      Folder.surplus? none (seen.toUInt32 + 1) = none := by
    refine ⟨fun hfull => ?_, rfl⟩
    by_contra hsize
    have hroom : Folder.RoomAfter none seen := .undeclared (by omega)
    exact hroom.hasRoom.1 hfull
  have hentry : Orderly (0x100000000 ≤ size)
      (At (Left (left + 1)) (inShape g none seen.toUInt32 shape)) (entry shape step)
      fun _ => At (Left left) (inShape g none (seen.toUInt32 + 1) shape) :=
    shortened (entry_shortens hshortens) (h.entry (by omega) hg hlimit hseen)
  rw [Folder.succ_toUInt32] at hentry
  refine hentry.mono (fun d hd => ⟨hd.1, ?_⟩) fun _ d hd => ⟨hd.1, ?_⟩
  · have hspent : d.input.rest.length + seen ≤ n := hd.2.2
    show d.input.rest.length ≤ left + 1
    omega
  · have hleft : d.input.rest.length ≤ left := hd.2
    show d.input.rest.length + (seen + 1) ≤ n
    omega

/-- Entries up to the end of the container. -/
theorem rounds_orderly {step : Decoder Cursor Unit} {room : Bytes} (h : Counting size levels step)
    (hshortens : step.Shortens) (hn : n ≤ size) (hg : g.Ready (0x100000000 ≤ size))
    (hlimit : g.limit = g.depth + (levels + 1)) :
    Orderly (0x100000000 ≤ size) (At (Left n) (inShape g none 0 shape))
      (Loop.rounds (fun _ => do
        if (← Decoder.read peekMarker) = endOctet shape then
          Decoder.read Reader.skip
          return false
        else
          entry shape step
          return true) 0 room)
      fun _ d => ∃ seen, At (Left n) (inShape g none seen shape) d := by
  refine (Orderly.rounds (fun seen => At (Spent n seen) (inShape g none seen.toUInt32 shape))
    (fun seen => ?_) 0 room).mono (fun d hd => hd) fun _ d ⟨seen, hd⟩ =>
      ⟨seen.toUInt32, hd.1, Nat.le_trans (Nat.le_add_right _ _) hd.2⟩
  have hpeek : Orderly (0x100000000 ≤ size) (At (Spent n seen) (inShape g none seen.toUInt32 shape))
      (Decoder.read peekMarker)
      fun _ => At (fun c => c.rest ≠ [] ∧ Spent n seen c) (inShape g none seen.toUInt32 shape) := by
    refine .reading (fun herror => ⟨_, rfl, peekMarker_persists.uncounting.error herror⟩) fun hspent hok => ?_
    have hrest := (peekMarker_persists.reaches hok).rest_le
    exact ⟨rest_of_peekMarker hok, Nat.le_trans (Nat.add_le_add_right hrest seen) hspent⟩
  refine .bind hpeek fun b => ?_
  split
  · refine .bind (.reading (fun herror => by cases herror) fun {c u c'} hspent hok => ?_) fun _ =>
      .pure fun _ hd => hd
    have hskip : Steps.Outlasts (.octets []) Reader.skip Reader.skip c :=
      Reader.outlasts_skip hspent.1
    have hreaches : c.Reaches c' := (hskip.ok hok).2
    exact Nat.le_trans (Nat.add_le_add_right hreaches.rest_le seen) hspent.2
  · exact .bind (next_orderly h hshortens hn hg hlimit) fun _ => .pure fun _ hd => hd

/-- The entries of a container, of which there are as many as it declared. -/
theorem entries_orderly {heading : Heading} {payload : UInt8 → Nat → Decoder Cursor Unit}
    (h : ∀ marker offset, Counting size levels (payload marker offset))
    (hpersists : ∀ marker offset, (payload marker offset).Persists) (hn : n ≤ size)
    (hg : g.Ready (0x100000000 ≤ size)) (hlimit : g.limit = g.depth + (levels + 1)) :
    Orderly (0x100000000 ≤ size) (At (Left n) (inShape g heading.count 0 shape))
      (entries shape heading payload) fun _ d => ∃ seen,
        Folder.mismatch? heading.count seen = none ∧
          At (Left n) (inShape g heading.count seen shape) d := by
  obtain ⟨shared, count⟩ := heading
  cases count with
  | some count =>
    refine .bind (read_orderly (.need _)) fun _ => ?_
    have htimes : ∀ {step : Decoder Cursor Unit}, Counting size levels step →
        Orderly (0x100000000 ≤ size) (At (Left n) (inShape g (some count) 0 shape))
          (Loop.times (entry shape step) count.toNat) fun _ d => ∃ seen,
            Folder.mismatch? (some count) seen = none ∧
              At (Left n) (inShape g (some count) seen shape) d := fun hstep =>
      (times_orderly hstep hn hg hlimit).mono (fun _ hd => hd)
        fun _ d hd => ⟨count, if_pos rfl, hd⟩
    cases shared with
    | some shared =>
      exact htimes ⟨fun hn hg hlimit => .bind (read_orderly .offset) fun offset =>
        (h shared offset).orderly hn hg hlimit⟩
    | none => exact htimes (.marked h)
  | none =>
    refine .bind .rest fun room => ?_
    exact (rounds_orderly (.marked h) (marked_shortens hpersists) hn hg hlimit).mono
      (fun _ hd => hd) fun _ d ⟨seen, hd⟩ => ⟨seen, rfl, hd⟩

/-- A container counts as one value. -/
theorem container_counting (shape : Shape)
    (h : ∀ {fewer}, levels = fewer + 1 →
      ∀ marker offset, Counting size fewer (foldMarked fewer marker offset)) :
    Counting size levels (container levels shape) := by
  refine ⟨fun {n g} hn hg hlimit => ?_⟩
  refine .bind (read_orderly heading_persists) fun heading => ?_
  cases levels with
  | zero => exact .bind (.fold (begin_turns_full hg hlimit)) fun _ => .pure fun _ hd => hd
  | succ levels =>
    refine .bind (.fold (begin_turns hg)) fun _ => ?_
    refine .bind (entries_orderly (h rfl) foldMarked_persists hn hg hlimit) fun _ => ?_
    refine .of_exists fun seen => .of_before fun d hd => ?_
    exact (Orderly.fold (end_turns hg hd.1)).mono (fun _ hd => hd.2) fun _ _ hd => hd

theorem scalar_counting {e : Event} {p : Primitive} (h : Folding.event e = Folding.scalar p) :
    Counting size levels (Decoder.fold e) :=
  ⟨fun _ hg _ => .fold (h ▸ Folding.scalar_turns p hg)⟩

theorem payload_counting {α : Type} {reader : Reader α} {e : α → Event} {p : α → Primitive}
    (hpersists : reader.Persists) (h : ∀ a, Folding.event (e a) = Folding.scalar (p a)) :
    Counting size levels (do Decoder.fold (e (← Decoder.read reader))) :=
  ⟨fun hn hg hlimit => .bind (read_orderly hpersists) fun a =>
    (scalar_counting (h a)).orderly hn hg hlimit⟩

/-- **What a marker announces counts as one value, or fails for a reason.** -/
theorem foldMarked_counting (marker : UInt8) (offset : Nat) :
    Counting size levels (foldMarked levels marker offset) := by
  induction levels using Nat.strong_induction_on generalizing marker offset with
  | _ levels ih =>
    have hcontainer : ∀ shape, Counting size levels (container levels shape) := fun shape =>
      container_counting shape fun hfewer => ih _ (by omega)
    rw [foldMarked.eq_def]
    dsimp only
    split
    · exact scalar_counting rfl
    · exact scalar_counting rfl
    · exact scalar_counting rfl
    · exact payload_counting (integerOf_persists _) fun _ => rfl
    · exact payload_counting (.big 4) fun _ => rfl
    · exact payload_counting (.big 8) fun _ => rfl
    · exact payload_counting (.take 1) fun _ => rfl
    · exact payload_counting text_persists fun _ => rfl
    · cases levels <;> exact hcontainer .list
    · cases levels <;> exact hcontainer .map
    · exact ⟨fun _ _ _ => .throw nofun⟩

/-! ## Whole inputs -/

/-- **About every input the answer is a digest or for a reason of the input.** -/
theorem decode_answered (input : Bytes) (o : FoldOptions) :
    Answered (0x100000000 ≤ input.length ∧
      Decoder.Overflows (Decoder.whole (fold o.depthLimit)) (Cursor.start input) o)
      (decode input o) := by
  have hlimit : (Folder.start .decode o).limit = (Folder.start .decode o).depth + o.depthLimit :=
    (Nat.zero_add _).symm
  have hfold : Counting input.length o.depthLimit (fold o.depthLimit) := .marked foldMarked_counting
  refine (hfold.orderly (Nat.le_refl _) (Folder.ready_start o) hlimit).run (r := fun _ => True)
    (.reading (fun herror => ⟨_, rfl, Reader.Uncounting.finished.error herror⟩) fun _ _ => trivial) ?_
  exact Nat.le_refl input.length

/-! ## Writing -/

section Writing

open Encoder (performs_fold performs_count performs_write)
open Steps (FailsWith)

variable {codec : String} {framing : Framing} {typed : Bool}

theorem putMarker_refuses (typed : Bool) (m : Marker) :
    FailsWith (EncodeError.Refusal codec) (putMarker typed m) := by
  unfold putMarker
  split
  · exact .pure _
  · exact .modify _

theorem putInt_refuses (typed : Bool) (i : Int64) :
    FailsWith (EncodeError.Refusal codec) (putInt typed i) :=
  .bind (putMarker_refuses _ _) fun _ => .modify _

theorem putUInt_refuses (typed : Bool) (u : UInt64) :
    FailsWith (EncodeError.Refusal codec) (putUInt codec typed u) := by
  unfold putUInt
  split
  · exact putInt_refuses _ _
  · exact .throw ⟨_, rfl⟩

theorem putSized_refuses (octets : Bytes) (notUtf8 : Obstacle) (long : Nat → Obstacle) :
    FailsWith (EncodeError.Refusal codec) (putSized codec octets notUtf8 long) := by
  have hput : FailsWith (EncodeError.Refusal codec) (do
      if 0x8000000000000000 ≤ octets.length then Writer.refuse codec (long octets.length)
      putInt false (Int64.ofNat octets.length)
      Writer.put octets) := by
    split
    · exact .bind (.throw ⟨_, rfl⟩) fun _ => .bind (putInt_refuses _ _) fun _ => .modify _
    · exact .bind (putInt_refuses _ _) fun _ => .modify _
  unfold putSized
  by_cases hvalid : (!Utf8.isValid octets) = true
  · rw [if_pos hvalid]
    exact .bind (.throw ⟨_, rfl⟩) fun _ => hput
  · rw [if_neg hvalid]
    exact hput

theorem putHeading_refuses (count : UInt32) (shared : Option Marker) :
    FailsWith (EncodeError.Refusal codec) (putHeading framing count shared) := by
  have hcount : FailsWith (EncodeError.Refusal codec) (do
      putMarker false .count
      putInt false (Int64.ofNat count.toNat)) :=
    .bind (putMarker_refuses _ _) fun _ => putInt_refuses _ _
  cases framing with
  | closed => exact .pure _
  | counted =>
    cases shared with
    | none => exact hcount
    | some m => exact .bind (.modify _) fun _ => hcount

theorem putEnd_refuses (m : Marker) :
    FailsWith (EncodeError.Refusal codec) (putEnd framing m) := by
  cases framing with
  | closed => exact putMarker_refuses _ _
  | counted => exact .pure _

/-- **To its folder a writer does what a walk over the tree does.** -/
theorem write_performs (t : Tree) :
    Encoder.Performs codec (write codec framing typed t) (Folding.tree t) := by
  induction t using Tree.induct generalizing typed with
  | scalar t hscalar =>
    cases t with
    | list items => exact Bool.noConfusion hscalar
    | map pairs => exact Bool.noConfusion hscalar
    | null => exact .after (performs_fold _) (performs_write (putMarker_refuses _ _))
    | bool b => exact .after (performs_fold _) (performs_write (putMarker_refuses _ _))
    | int i => exact .after (performs_fold _) (performs_write (putInt_refuses _ _))
    | uint u => exact .before (performs_write (putUInt_refuses _ _)) (performs_fold _)
    | double bits =>
      exact .after (performs_fold _)
        (performs_write (.bind (putMarker_refuses _ _) fun _ => .modify _))
    | text octets =>
      refine .before (performs_write (.bind (putMarker_refuses _ _) fun _ => ?_)) (performs_fold _)
      exact putSized_refuses _ _ _
  | list items ih =>
    refine .bind (performs_count _) fun count => .bind (performs_fold _) fun _ => ?_
    refine .before (performs_write (putMarker_refuses _ _)) ?_
    refine .before (performs_write (putHeading_refuses _ _)) (.bind ?_ fun _ => ?_)
    · exact .items (fun _ => writeItems codec framing (sharedIn framing items).isSome)
        (fun _ => write codec framing (sharedIn framing items).isSome) (fun _ => rfl)
        (fun _ _ _ => rfl) (fun _ t ht => ih t ht) 0
    · exact .before (performs_write (putEnd_refuses _)) (performs_fold _)
  | map pairs ih =>
    refine .bind (performs_count _) fun count => .bind (performs_fold _) fun _ => ?_
    refine .before (performs_write (putMarker_refuses _ _)) ?_
    refine .before (performs_write (putHeading_refuses _ _)) (.bind ?_ fun _ => ?_)
    · refine .pairs (fun _ => writePairs codec framing (sharedIn framing (pairs.map (·.2))).isSome)
        (fun _ => writeKey codec)
        (fun _ => write codec framing (sharedIn framing (pairs.map (·.2))).isSome) (fun _ => rfl)
        (fun _ _ _ _ => writePairs_cons) (fun _ k => ?_) (fun kv hkv => ih kv hkv) 0
      exact .after (performs_fold _) (performs_write (putSized_refuses _ _ _))
    · exact .before (performs_write (putEnd_refuses _)) (performs_fold _)

/-- **About every tree every UBJSON codec answers with its encoding or for its content.** -/
theorem encode_written {codec : Codec} (h : codec ∈ Codec.ofFormat .ubjson) {t : Tree}
    (ht : t.Countable) (o : FoldOptions) : Written codec.name o.depthLimit (codec.encode t o) := by
  rw [codecs_eq] at h
  rcases List.mem_cons.mp h with rfl | h
  · exact (write_performs t).run ht
  · rw [List.mem_singleton.mp h]
    exact (write_performs t).run ht

end Writing

end TreeDigest.Ubjson
