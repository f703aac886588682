import TreeDigest.Proofs.Fold.Arrival
import TreeDigest.Proofs.Input.Drives
import TreeDigest.Proofs.Ubjson.Form

/-!
# Reading UBJSON forms

The reader hands the form of a tree to its folder as the tree, except that all integers
come back signed and that only a framing with counts brings these. It reads what either
framing wrote, since each head says what is to come.

Where a container has no count, the reader has to look at the next marker to know
that it is not the end, and it looks behind no-ops. No value and no key begins with
either, which is what `Begins` is about.
-/

namespace TreeDigest.Ubjson

open Cursor (Before)
open Decoder (Drives)
open Reader (Reads)
open Folder

variable {framing : Framing} {typed : Bool} {limit levels : Nat} {f : Folder} {rest : Bytes}

/-! ## Markers -/

/-- Octets that begin with a marker other than a no-op. -/
def Begins (m : Marker) (bytes : Bytes) : Prop :=
  m ≠ .noop ∧ ∃ rest, bytes = m.octet :: rest

/-- A marker that a value or a length can begin with. -/
def Opens : Marker → Prop
  | .noop | .listEnd | .mapEnd | .sharedType | .count => False
  | _ => True

theorem octet_inj {m n : Marker} (h : m.octet = n.octet) : m = n := by
  have hread := congrArg Marker.ofOctet? h
  rw [Marker.ofOctet?_octet, Marker.ofOctet?_octet] at hread
  exact Option.some.inj hread

theorem Begins.append {m : Marker} {bytes : Bytes} (h : Begins m bytes) (more : Bytes) :
    Begins m (bytes ++ more) := by
  obtain ⟨hm, rest, rfl⟩ := h
  exact ⟨hm, rest ++ more, rfl⟩

theorem skipNoops_eq {m : Marker} {bytes : Bytes} (h : Begins m bytes) (offset : Nat) :
    skipNoops ⟨offset, bytes⟩ = .ok () ⟨offset, bytes⟩ := by
  -- no-ops are skipped while there are any, and here there is none
  obtain ⟨hm, rest, rfl⟩ := h
  have hoctet : ¬ m.octet = Marker.noop.octet := fun h => hm (octet_inj h)
  show EStateM.Result.ok () (afterNoops offset (m.octet :: rest)) = _
  rw [afterNoops, if_neg hoctet]

theorem peekMarker_eq {m : Marker} {bytes : Bytes} (h : Begins m bytes) (offset : Nat) :
    peekMarker ⟨offset, bytes⟩ = .ok m.octet ⟨offset, bytes⟩ := by
  rw [peekMarker, Steps.bind_ok (skipNoops_eq h offset)]
  obtain ⟨-, rest, rfl⟩ := h
  rfl

theorem marker_reads {m : Marker} (h : m ≠ .noop) : marker.Reads [m.octet] m.octet where
  apply offset rest := by
    have hskip : skipNoops ⟨offset, [m.octet] ++ rest⟩ = .ok () ⟨offset, [m.octet] ++ rest⟩ :=
      skipNoops_eq ⟨h, rest, rfl⟩ offset
    rw [marker, Steps.bind_ok hskip]
    rfl

/-! ## Integers and texts -/

theorem integerOf_signed {form : IntegerForm} {i : Int64} (hform : form ≠ .uint8)
    (hfits : Bytes.FitsSigned form.width i) :
    (integerOf form).Reads (Bytes.big form.width i.toUInt64.toNat) i.toInt := by
  have hvalue : form.value = Bytes.signed form.width := by
    cases form with
    | uint8 => exact absurd rfl hform
    | _ => rfl
  rw [integerOf, hvalue]
  exact .signedBig hfits

theorem integerOf_uint8 {i : Int64} (h : 0 ≤ i.toInt ∧ i.toInt < 0x100) :
    (integerOf .uint8).Reads (Bytes.big 1 i.toUInt64.toNat) i.toInt := by
  -- the only form that is read unsigned, so its pattern is the integer itself
  have hpattern := Bytes.toNat_toUInt64 i
  rw [if_pos h.1] at hpattern
  have hcapacity : Bytes.capacity 1 = 0x100 := rfl
  have hread := (Reads.big (by omega : i.toUInt64.toNat < Bytes.capacity 1)).map
    (g := IntegerForm.uint8.value)
  rwa [show IntegerForm.uint8.value i.toUInt64.toNat = i.toInt from hpattern] at hread

theorem integerOf_reads (i : Int64) :
    (integerOf (IntegerForm.narrowest i)).Reads (intForm i) i.toInt := by
  rw [intForm, IntegerForm.narrowest]
  split
  · rename_i h
    exact integerOf_signed (by decide) (.one h)
  split
  · rename_i h
    exact integerOf_uint8 h
  split
  · rename_i h
    exact integerOf_signed (by decide) (.two h)
  split
  · rename_i h
    exact integerOf_signed (by decide) (.four h)
  exact integerOf_signed (by decide) (.eight i)

theorem lengthForm_begins (n : Nat) :
    Begins (.integer (IntegerForm.narrowest (Int64.ofNat n))) (lengthForm n) :=
  ⟨Marker.noConfusion, _, rfl⟩

theorem length_reads {n : Nat} (h : n < 0x8000000000000000) : length.Reads (lengthForm n) n := by
  have hvalue : (Int64.ofNat n).toInt = n := Int64.toInt_ofNat_of_lt h
  have hpositive : ¬ (n : Int) < 0 := by omega
  refine .offset_bind fun _ => ?_
  rw [lengthForm]
  refine (Reads.bind (marker_reads Marker.noConfusion) ?_)
  rw [integer, Marker.ofOctet?_octet]
  have hread := integerOf_reads (Int64.ofNat n)
  rw [hvalue] at hread
  refine .bind_last hread ?_
  rw [if_neg hpositive]
  exact .pure

theorem text_reads {octets : Bytes} (h : Sayable octets) : text.Reads (sizedForm octets) octets := by
  have hvalid : Utf8.fault? octets = none := Option.isNone_iff_eq_none.mp h.isValid
  refine .offset_bind fun _ => .bind (length_reads h.length_lt) (.bind_last (.take octets) ?_)
  rw [hvalid]
  exact .pure

/-! ## Heads of containers -/

/-- What a head that is written says. -/
def headingOf (framing : Framing) (n : Nat) (shared : Option Marker) : Heading :=
  match framing with
  | .closed => ⟨none, none⟩
  | .counted => ⟨shared.map Marker.octet, some n.toUInt32⟩

variable {m : Marker} {bytes : Bytes} {offset n : Nat}

theorem sharedMarker_none (h : Begins m bytes) (hm : m ≠ .sharedType) :
    sharedMarker ⟨offset, bytes⟩ = .ok none ⟨offset, bytes⟩ := by
  have hoctet : ¬ m.octet = Marker.sharedType.octet := fun h => hm (octet_inj h)
  rw [sharedMarker, Steps.bind_ok (peekMarker_eq h offset), if_neg hoctet]
  rfl

theorem sharedMarker_some (hm : m.isShareable = true) (h : Begins .count bytes) :
    sharedMarker ⟨offset, Marker.sharedType.octet :: m.octet :: bytes⟩ =
      .ok (some m.octet) ⟨offset + 2, bytes⟩ := by
  have hbegins : Begins .sharedType (Marker.sharedType.octet :: m.octet :: bytes) :=
    ⟨Marker.noConfusion, _, rfl⟩
  have hskip : Reader.skip ⟨offset, Marker.sharedType.octet :: m.octet :: bytes⟩ =
      .ok () ⟨offset + 1, m.octet :: bytes⟩ := rfl
  have hdeclarable : isDeclarable m.octet = true := by
    rw [isDeclarable, Marker.ofOctet?_octet]
    exact hm
  rw [sharedMarker, Steps.bind_ok (peekMarker_eq hbegins offset), if_pos rfl, Steps.bind_ok hskip,
    Steps.bind_ok (Reader.offset_apply _), Steps.bind_ok (Reader.octet_cons ..), hdeclarable,
    if_pos rfl, Steps.bind_ok (peekMarker_eq h _), if_pos rfl]
  rfl

theorem entryCount_none (h : Begins m bytes) (hm : m ≠ .count) :
    entryCount ⟨offset, bytes⟩ = .ok none ⟨offset, bytes⟩ := by
  have hoctet : ¬ m.octet = Marker.count.octet := fun h => hm (octet_inj h)
  rw [entryCount, Steps.bind_ok (peekMarker_eq h offset), if_neg hoctet]
  rfl

theorem entryCount_some (hn : n < 0x100000000) :
    entryCount.Reads (Marker.count.octet :: lengthForm n) (some n.toUInt32) where
  apply offset rest := by
    have hbegins : Begins .count (Marker.count.octet :: lengthForm n ++ rest) :=
      ⟨Marker.noConfusion, _, rfl⟩
    have hskip : Reader.skip ⟨offset, Marker.count.octet :: lengthForm n ++ rest⟩ =
        .ok () ⟨offset + 1, lengthForm n ++ rest⟩ := rfl
    have hend : offset + (Marker.count.octet :: lengthForm n).length =
        offset + 1 + (lengthForm n).length := by
      rw [List.length_cons]
      omega
    rw [entryCount, Steps.bind_ok (peekMarker_eq hbegins offset), if_pos rfl, Steps.bind_ok hskip,
      Steps.bind_ok (Reader.offset_apply _), Steps.bind_ok ((length_reads (by omega)).apply _ _),
      if_pos hn, hend]
    rfl

/-- Where the entries of a container come without a head, the head says nothing. -/
theorem heading_closed (h : Begins m bytes) (hshared : m ≠ .sharedType) (hcount : m ≠ .count) :
    heading ⟨offset, bytes⟩ = .ok ⟨none, none⟩ ⟨offset, bytes⟩ := by
  rw [heading, Steps.bind_ok (sharedMarker_none h hshared), Steps.bind_ok (entryCount_none h hcount)]
  rfl

theorem heading_counted {shared : Option Marker} (hn : n < 0x100000000)
    (hshared : ∀ m ∈ shared, m.isShareable = true) :
    heading.Reads (headingForm .counted n shared) (headingOf .counted n shared) where
  apply offset rest := by
    have hbegins : Begins .count (Marker.count.octet :: lengthForm n ++ rest) :=
      ⟨Marker.noConfusion, _, rfl⟩
    cases shared with
    | none =>
      have hnone : sharedMarker ⟨offset, _⟩ = _ := sharedMarker_none hbegins Marker.noConfusion
      have hcount := (entryCount_some hn).apply offset rest
      show heading ⟨offset, Marker.count.octet :: lengthForm n ++ rest⟩ = _
      rw [heading, Steps.bind_ok hnone, Steps.bind_ok hcount]
      rfl
    | some m =>
      have hsome : sharedMarker ⟨offset, _⟩ = _ := sharedMarker_some (hshared m rfl) hbegins
      have hcount := (entryCount_some hn).apply (offset + 2) rest
      have hend : offset + (headingForm .counted n (some m)).length =
          offset + 2 + (Marker.count.octet :: lengthForm n).length := by
        rw [headingForm, sharedForm, List.length_append, ← Nat.add_assoc]
        rfl
      show heading ⟨offset, Marker.sharedType.octet :: m.octet ::
        (Marker.count.octet :: lengthForm n ++ rest)⟩ = _
      rw [heading, Steps.bind_ok hsome, Steps.bind_ok hcount, hend]
      rfl

/-! ## Values -/

theorem markerOf_opens (t : Tree) : Opens (markerOf t) ∧ markerOf t ≠ .noop := by
  cases t with
  | bool b => cases b <;> exact ⟨trivial, Marker.noConfusion⟩
  | _ => exact ⟨trivial, Marker.noConfusion⟩

/-! ## What values share -/

theorem markerOf_eq {t : Tree} {m : Marker} (h : markerOf? t = some m) : markerOf t = m := by
  cases t with
  | uint u =>
    rw [markerOf?] at h
    split at h
    · exact Option.some.inj h
    · cases h
  | _ => exact Option.some.inj h

theorem shared?_eq_some {values : List Tree} {m : Marker} (h : shared? values = some m) :
    m.isShareable = true ∧ ∀ t ∈ values, markerOf t = m := by
  match values with
  | [] => cases h
  | [_] => cases h
  | first :: second :: rest =>
    rw [shared?] at h
    cases hfirst : markerOf? first with
    | none => rw [hfirst] at h; cases h
    | some n =>
      rw [hfirst] at h
      -- the marker of the first is shared if it can be declared and all others have it
      dsimp only at h
      split at h
      · rename_i hall
        cases h
        rw [Bool.and_eq_true, List.all_eq_true] at hall
        refine ⟨hall.1, List.forall_mem_cons.mpr ⟨markerOf_eq hfirst, fun t ht => ?_⟩⟩
        exact markerOf_eq (of_decide_eq_true (hall.2 t ht))
      · cases h

theorem sharedIn_eq_some {values : List Tree} {m : Marker}
    (h : sharedIn framing values = some m) :
    framing = .counted ∧ m.isShareable = true ∧ ∀ t ∈ values, markerOf t = m := by
  cases framing with
  | closed => cases h
  | counted => exact ⟨rfl, shared?_eq_some h⟩

theorem intForm_pos (i : Int64) : 1 ≤ (intForm i).length := by
  rw [intForm, Bytes.length_big]
  cases IntegerForm.narrowest i <;> decide

theorem lengthForm_pos (n : Nat) : 2 ≤ (lengthForm n).length :=
  Nat.succ_le_succ (intForm_pos _)

theorem sizedForm_pos (octets : Bytes) : 2 ≤ (sizedForm octets).length := by
  have hlength := lengthForm_pos octets.length
  rw [sizedForm, List.length_append]
  omega

/-- A value whose marker can be declared takes an octet besides. -/
theorem payloadForm_pos {t : Tree} (h : (markerOf t).isShareable = true) :
    1 ≤ (payloadForm .counted t).length := by
  have hheading : ∀ n shared more, 1 ≤ (headingForm .counted n shared ++ more).length := by
    intro n shared more
    rw [headingForm, List.length_append, List.length_append, List.length_cons]
    omega
  cases t with
  | null => cases h
  | bool b => cases b <;> cases h
  | int i => exact intForm_pos i
  | uint u => exact intForm_pos _
  | double bits =>
    rw [payloadForm, Bytes.length_big]
    decide
  | text octets => exact Nat.le_trans (by decide) (sizedForm_pos octets)
  | list items => exact hheading _ _ _
  | map pairs => exact hheading _ _ _

theorem form_pos {values : List Tree} {t : Tree} (ht : t ∈ values) :
    1 ≤ (form framing (sharedIn framing values).isSome t).length := by
  cases hshared : sharedIn framing values with
  | none => exact Nat.succ_pos _
  | some m =>
    obtain ⟨rfl, hm, hall⟩ := sharedIn_eq_some hshared
    exact payloadForm_pos (by rw [hall t ht]; exact hm)

/-! ## Entries -/

/-- The marker that closes a container. -/
def endMarker : Shape → Marker
  | .list => .listEnd
  | .map => .mapEnd

theorem octet_endMarker (shape : Shape) : (endMarker shape).octet = endOctet shape := by
  cases shape <;> rfl

/-- What is known of the forms of entries, apart from how they are read. -/
structure Entries {γ : Type} (framing : Framing) (shape : Shape) (shared : Option Marker)
    (xs : List γ) (form : γ → Bytes) : Prop where
  length_lt : xs.length < 0x100000000
  shareable : ∀ m ∈ shared, m.isShareable = true
  closed : framing = .closed → shared = none
  least : ∀ x ∈ xs, leastEntry shape ≤ (form x).length
  begins : shared = none → ∀ x ∈ xs, ∃ m, Begins m (form x) ∧ Opens m

theorem sharedIn_closed {values : List Tree} (h : framing = .closed) :
    sharedIn framing values = none := by
  subst h
  rfl

theorem list_entries {items : List Tree} (hn : items.length < 0x100000000) :
    Entries framing .list (sharedIn framing items) items
      (form framing (sharedIn framing items).isSome) where
  length_lt := hn
  shareable m hm := (sharedIn_eq_some hm).2.1
  closed := sharedIn_closed
  least t ht := form_pos ht
  begins hnone t _ := by
    rw [hnone]
    exact ⟨markerOf t, ⟨(markerOf_opens t).2, _, rfl⟩, (markerOf_opens t).1⟩

theorem map_entries {pairs : List (Bytes × Tree)} (hn : pairs.length < 0x100000000) :
    Entries framing .map (sharedIn framing (pairs.map (·.2))) pairs
      (fun kv => sizedForm kv.1 ++ form framing (sharedIn framing (pairs.map (·.2))).isSome kv.2) where
  length_lt := hn
  shareable m hm := (sharedIn_eq_some hm).2.1
  closed := sharedIn_closed
  -- a key has a length besides its own octets, and the value comes on top of that
  least kv _ := by
    rw [List.length_append]
    exact Nat.le_trans (sizedForm_pos kv.1) (Nat.le_add_right _ _)
  -- whatever the value is, its entry begins with the length of the key
  begins _ kv _ := ⟨_, (lengthForm_begins kv.1.length).append _ |>.append _, trivial⟩

/-- The step for a value, whose marker may have been declared. -/
def valueStep (payload : UInt8 → Nat → Decoder Cursor Unit) : Option Marker → Decoder Cursor Unit
  | some m => do payload m.octet (← Decoder.read Reader.offset)
  | none => marked payload

namespace Entries

variable {γ : Type} {shape : Shape} {shared : Option Marker} {xs : List γ} {form : γ → Bytes}

/-- The head of a container is read in front of its entries. -/
theorem heading_drives (h : Entries framing shape shared xs form) :
    (Decoder.read heading).Drives
      (Before (headingForm framing xs.length shared ++
        (xs.flatMap form ++ endForm framing (endMarker shape)) ++ rest)) f []
      (headingOf framing xs.length shared)
      (Before (xs.flatMap form ++ endForm framing (endMarker shape) ++ rest)) := by
  cases framing with
  | counted =>
    rw [List.append_assoc]
    exact .read (heading_counted h.length_lt h.shareable)
  | closed =>
    -- What comes after the opening marker is the first entry, or else the end.
    refine .look fun offset => ?_
    cases xs with
    | nil =>
      have hbegins : Begins (endMarker shape) ([] ++ [(endMarker shape).octet] ++ rest) := by
        cases shape <;> exact ⟨Marker.noConfusion, rest, rfl⟩
      cases shape <;> exact heading_closed hbegins Marker.noConfusion Marker.noConfusion
    | cons x xs =>
      obtain ⟨m, hbegins, hm⟩ := h.begins (h.closed rfl) x (List.mem_cons_self ..)
      have hentries := ((hbegins.append (xs.flatMap form)).append
        (endForm .closed (endMarker shape))).append rest
      rw [List.flatMap_cons]
      refine heading_closed hentries ?_ ?_
      · rintro rfl
        exact hm
      · rintro rfl
        exact hm

section Drives

variable {payload : UInt8 → Nat → Decoder Cursor Unit} {events : γ → List Event}
  (folder : List γ → Folder)
  (hentry : ∀ seen x left, xs = seen ++ x :: left → ∀ rest,
    (entry shape (valueStep payload shared)).Drives (Before (form x ++ rest)) (folder seen)
      (events x) () (Before rest))
  (hkeeps : ∀ seen x left, xs = seen ++ x :: left → ∀ f f', f = folder seen →
    Folding.events (events x) f = .ok () f' → f' = folder (seen ++ [x]))

include hentry hkeeps

/-- As many entries as the head says. -/
theorem counted_drives (h : Entries .counted shape shared xs form) :
    (entries shape (headingOf .counted xs.length shared) payload).Drives
      (Before (xs.flatMap form ++ rest)) (folder []) (xs.flatMap events) () (Before rest) := by
  have hleast := Bytes.length_entries h.least
  rw [entries.eq_def, headingOf]
  dsimp only
  rw [toNat_length h.length_lt]
  have hneed : ∀ offset, Reader.need (xs.length * leastEntry shape) ⟨offset, xs.flatMap form ++ rest⟩ =
      .ok () ⟨offset, xs.flatMap form ++ rest⟩ := by
    refine fun offset => Reader.need_eq_ok_iff.mpr ⟨?_, rfl⟩
    rw [List.length_append]
    omega
  -- in either case a round is one entry, with its marker or without
  have htimes : Drives (Loop.times (entry shape (valueStep payload shared)) xs.length)
      (Before (xs.flatMap form ++ rest)) (folder []) (xs.flatMap events) () (Before rest) := by
    refine .times (fun _ left => Before (left.flatMap form ++ rest)) (fun seen f => f = folder seen)
      (fun seen x left hxs f hf => ?_) hkeeps rfl
    rw [hf, List.flatMap_cons, List.append_assoc]
    exact hentry seen x left hxs _
  cases shared with
  | none => exact .bind_nil (.look hneed) htimes
  | some m => exact .bind_nil (.look hneed) htimes

/-- Entries up to the closing marker. -/
theorem closed_drives (h : Entries .closed shape shared xs form) :
    (entries shape ⟨none, none⟩ payload).Drives
      (Before (xs.flatMap form ++ [(endMarker shape).octet] ++ rest)) (folder [])
      (xs.flatMap events) () (Before rest) := by
  obtain rfl := h.closed rfl
  have hleast := Bytes.length_entries h.least
  have hroom : xs.length ≤ (xs.flatMap form ++ [(endMarker shape).octet] ++ rest).length := by
    have hone : 1 ≤ leastEntry shape := by cases shape <;> decide
    have hle := Nat.le_mul_of_pos_right xs.length hone
    rw [List.length_append, List.length_append]
    omega
  rw [entries.eq_def]
  refine .bind_nil .left (.rounds
    (fun _ left => Before (left.flatMap form ++ [(endMarker shape).octet] ++ rest))
    (fun seen f => f = folder seen) (fun seen x left hxs f hf => ?_) hkeeps (fun f => ?_) hroom rfl)
  · obtain ⟨m, hbegins, hm⟩ := h.begins rfl x (by rw [hxs]; simp)
    have hoctet : ¬ m.octet = endOctet shape := by
      intro h
      rw [octet_inj (h.trans (octet_endMarker shape).symm)] at hm
      cases shape <;> exact hm
    rw [hf, List.flatMap_cons, List.append_assoc, List.append_assoc, ← List.append_assoc _ _ rest]
    refine .bind_nil (.look (peekMarker_eq (hbegins.append _))) ?_
    rw [if_neg hoctet]
    exact .bind_last (hentry seen x left hxs _) fun _ => .pure
  · have hend : Begins (endMarker shape) ([] ++ [(endMarker shape).octet] ++ rest) := by
      cases shape <;> exact ⟨Marker.noConfusion, rest, rfl⟩
    refine .bind_nil (.look (peekMarker_eq hend)) ?_
    rw [if_pos (octet_endMarker shape)]
    exact .bind_nil (.read (.skip _)) .pure

/-- **The entries of a container are handed over one after the other.** -/
theorem entries_drives (h : Entries framing shape shared xs form) :
    (entries shape (headingOf framing xs.length shared) payload).Drives
      (Before (xs.flatMap form ++ endForm framing (endMarker shape) ++ rest)) (folder [])
      (xs.flatMap events) () (Before rest) := by
  cases framing with
  | closed => exact closed_drives folder hentry hkeeps h
  | counted =>
    rw [endForm, List.append_nil]
    exact counted_drives folder hentry hkeeps h

end Drives

end Entries

/-! ## Trees -/

/-- Every integer signed, as all of them are read. -/
abbrev signed (t : Tree) : Tree := t.mapIntegers Integer.toSigned

/-- Whether a framing counts entries. -/
def Framing.counts : Framing → Bool
  | .closed => false
  | .counted => true

/-- The events of a tree as they come from its form. -/
def arrival (framing : Framing) (t : Tree) : List Event :=
  t.arrival Integer.toSigned framing.counts

theorem headingOf_count {n : Nat} (shared : Option Marker) :
    (headingOf framing n shared).count = if framing.counts then some n.toUInt32 else none := by
  cases framing <;> rfl

theorem headingOf_declared {n : Nat} (hn : n < 0x100000000) {shared : Option Marker} :
    ∀ d ∈ (headingOf framing n shared).count, d.toNat = n := by
  cases framing with
  | closed => exact fun d hd => nomatch hd
  | counted => exact declared_eq hn

/-- After its marker, a tree is handed to every folder in step with what a marker announces. -/
def Handed (framing : Framing) (limit levels : Nat) (payload : UInt8 → Nat → Decoder Cursor Unit)
    (t : Tree) : Prop :=
  ∀ {f : Folder} (offset : Nat) (rest : Bytes), f.InStep limit levels →
    (payload (markerOf t).octet offset).Drives (Before (payloadForm framing t ++ rest)) f
      (arrival framing t) () (Before rest)

section Payloads

variable {payload : UInt8 → Nat → Decoder Cursor Unit} {t : Tree}

/-- A value with its marker. -/
theorem marked_drives (h : Handed framing limit levels payload t) (hf : f.InStep limit levels) :
    (marked payload).Drives (Before (form framing false t ++ rest)) f (arrival framing t) ()
      (Before rest) := by
  refine .offset_bind fun offset => ?_
  rw [form, markerForm, List.append_assoc]
  exact .bind_nil (.read (marker_reads (markerOf_opens t).2)) (h offset rest hf)

/-- A value, with its marker or without it as its container has it. -/
theorem value_drives {shared : Option Marker} (hshared : ∀ m ∈ shared, markerOf t = m)
    (h : Handed framing limit levels payload t) (hf : f.InStep limit levels) :
    (valueStep payload shared).Drives (Before (form framing shared.isSome t ++ rest)) f
      (arrival framing t) () (Before rest) := by
  cases shared with
  | none => exact marked_drives h hf
  | some m =>
    rw [valueStep, ← hshared m rfl]
    exact .offset_bind fun offset => h offset rest hf

end Payloads

/-- A folder in step takes what comes of a tree as the value of the tree. -/
theorem arrival_ok {t : Tree} {f' : Folder} (hcount : t.Countable) (h : f.InStep limit levels)
    (hok : Folding.events (arrival framing t) f = .ok () f') : f' = f.foldedTree (signed t) :=
  h.events_ok (Tree.countable_mapIntegers.mpr hcount) (Tree.traversal_arrival hcount) hok

section Inside

variable {payload : UInt8 → Nat → Decoder Cursor Unit}

/-- The items of a list are handed over, each of them inside the list. -/
theorem items_drives {items : List Tree} (hf : f.InStep limit (levels + 1))
    (hn : items.length < 0x100000000) (hcounts : ∀ t ∈ items, t.Countable)
    (hitems : ∀ t ∈ items, Handed framing limit levels payload t) :
    (entries .list (headingOf framing items.length (sharedIn framing items)) payload).Drives
      (Before (items.flatMap (form framing (sharedIn framing items).isSome) ++
        endForm framing .listEnd ++ rest))
      (f.listOver (headingOf framing items.length (sharedIn framing items)).count [])
      (items.flatMap (arrival framing)) () (Before rest) := by
  have hinside : ∀ seen t left, items = seen ++ t :: left → t ∈ items ∧ Folder.InStep (f.listOver
      (headingOf framing items.length (sharedIn framing items)).count (seen.map signed))
      limit levels := by
    intro seen t left hsplit
    have hroom : (seen.map signed).length < items.length := by
      rw [hsplit, List.length_map, List.length_append, List.length_cons]
      omega
    exact ⟨by rw [hsplit]; simp, hf.listOver (.of_lt hn (headingOf_declared hn) hroom)⟩
  refine (list_entries hn).entries_drives (fun seen => f.listOver _ (seen.map signed))
    (fun seen t left hsplit rest => ?_) fun seen t left hsplit g g' hg hok => ?_
  · obtain ⟨hmem, hstep⟩ := hinside seen t left hsplit
    exact value_drives (fun m hm => (sharedIn_eq_some hm).2.2 t hmem) (hitems t hmem) hstep
  · obtain ⟨hmem, hstep⟩ := hinside seen t left hsplit
    rw [hg] at hok
    rw [arrival_ok (hcounts t hmem) hstep hok, listOver_foldedTree, List.map_append,
      List.map_singleton]

/-- A key, and its value inside the map. -/
theorem entry_drives {declared : Option UInt32} {seen : List (Bytes × Tree)} {kv : Bytes × Tree}
    {shared : Option Marker} (hk : Sayable kv.1) (hshared : ∀ m ∈ shared, markerOf kv.2 = m)
    (h : Handed framing limit levels payload kv.2)
    (hstep : (f.keyOver declared seen kv.1).InStep limit levels) :
    (entry .map (valueStep payload shared)).Drives
      (Before (sizedForm kv.1 ++ form framing shared.isSome kv.2 ++ rest))
      (f.mapOver declared seen) (.key kv.1 :: arrival framing kv.2) () (Before rest) := by
  rw [entry, List.append_assoc]
  refine .bind_nil (.read (text_reads hk)) (.fold_bind fun g hkey => ?_)
  cases key_tree.symm.trans hkey
  exact value_drives hshared h hstep

/-- The pairs of a map are handed over, each value behind its key. -/
theorem pairs_drives {pairs : List (Bytes × Tree)} (hf : f.InStep limit (levels + 1))
    (hn : pairs.length < 0x100000000) (hkeys : ∀ kv ∈ pairs, Sayable kv.1)
    (hcounts : ∀ kv ∈ pairs, kv.2.Countable)
    (hpairs : ∀ kv ∈ pairs, Handed framing limit levels payload kv.2) :
    (entries .map (headingOf framing pairs.length (sharedIn framing (pairs.map (·.2)))) payload).Drives
      (Before ((pairs.flatMap fun kv =>
        sizedForm kv.1 ++ form framing (sharedIn framing (pairs.map (·.2))).isSome kv.2) ++
        endForm framing .mapEnd ++ rest))
      (f.mapOver (headingOf framing pairs.length (sharedIn framing (pairs.map (·.2)))).count [])
      (pairs.flatMap fun kv => .key kv.1 :: arrival framing kv.2) () (Before rest) := by
  have hinside : ∀ seen kv left, pairs = seen ++ kv :: left → kv ∈ pairs ∧ Folder.InStep (f.keyOver
      (headingOf framing pairs.length (sharedIn framing (pairs.map (·.2)))).count
      (seen.map fun kv => (kv.1, signed kv.2)) kv.1) limit levels := by
    intro seen kv left hsplit
    have hroom : (seen.map fun kv => (kv.1, signed kv.2)).length < pairs.length := by
      rw [hsplit, List.length_map, List.length_append, List.length_cons]
      omega
    exact ⟨by rw [hsplit]; simp, hf.keyOver (.of_lt hn (headingOf_declared hn) hroom)⟩
  refine (map_entries hn).entries_drives
    (fun seen => f.mapOver _ (seen.map fun kv => (kv.1, signed kv.2)))
    (fun seen kv left hsplit rest => ?_) fun seen kv left hsplit g g' hg hok => ?_
  · obtain ⟨hmem, hstep⟩ := hinside seen kv left hsplit
    refine entry_drives (hkeys kv hmem) (fun m hm => ?_) (hpairs kv hmem) hstep
    exact (sharedIn_eq_some hm).2.2 kv.2 (List.mem_map_of_mem hmem)
  · obtain ⟨hmem, hstep⟩ := hinside seen kv left hsplit
    rw [hg, Folding.events, Steps.bind_ok key_tree] at hok
    rw [arrival_ok (hcounts kv hmem) hstep hok, keyOver_foldedTree, List.map_append,
      List.map_singleton]

end Inside

theorem foldMarked_scalar {t : Tree} (hscalar : t.isContainer = false) (ht : Writable t) :
    Handed framing limit levels (foldMarked levels) t := by
  intro f offset rest _
  rw [foldMarked.eq_def, Marker.ofOctet?_octet]
  cases t with
  | list items => exact Bool.noConfusion hscalar
  | map pairs => exact Bool.noConfusion hscalar
  | null => exact .fold
  | bool b => cases b <;> exact .fold
  | int i =>
    refine .bind_nil (.read (integerOf_reads i)) ?_
    rw [Int64.ofInt_toInt]
    exact .fold
  | uint u =>
    rw [arrival, Tree.arrival, Tree.mapIntegers, Integer.toSigned_unsigned ht]
    refine .bind_nil (.read (integerOf_reads u.toInt64)) ?_
    rw [Int64.ofInt_toInt]
    exact .fold
  | double bits =>
    refine .bind_nil (.read (.big bits.toNat_lt)) ?_
    rw [show bits.toNat.toUInt64 = bits from UInt64.ofNat_toNat]
    exact .fold
  | text octets => exact .bind_nil (.read (text_reads ht)) .fold

/-- **After its marker, the form of a tree is handed over as the tree, its integers signed.** -/
theorem foldMarked_handed {t : Tree} (ht : Writable t) (hcount : t.Countable) :
    Handed framing limit levels (foldMarked levels) t := by
  induction t using Tree.induct generalizing levels with
  | scalar t hscalar => exact foldMarked_scalar hscalar ht
  | list items ih =>
    intro f offset rest hf
    have hwritable := writable_list.mp ht
    obtain ⟨hn, hcounts⟩ := Tree.countable_list.mp hcount
    have hentries : Entries framing .list _ items _ := list_entries hn
    rw [foldMarked.eq_def, markerOf, Marker.ofOctet?_octet, payloadForm, formItems_eq, arrival,
      Tree.arrival_list, ← headingOf_count (sharedIn framing items)]
    cases levels with
    | zero => exact .bind_nil hentries.heading_drives (.refused (beginList_refuses hf))
    | succ levels =>
      refine .bind_nil hentries.heading_drives (.fold_bind fun g hbegin => ?_)
      cases (beginList_tree hf.toAdmits).symm.trans hbegin
      refine .bind (items_drives hf hn hcounts fun t ht => ?_) fun _ _ => .fold
      exact ih t ht (hwritable t ht) (hcounts t ht)
  | map pairs ih =>
    intro f offset rest hf
    obtain ⟨hkeys, hwritable⟩ := writable_map.mp ht
    obtain ⟨hn, hcounts⟩ := Tree.countable_map.mp hcount
    have hentries : Entries framing .map _ pairs _ := map_entries hn
    rw [foldMarked.eq_def, markerOf, Marker.ofOctet?_octet, payloadForm, formPairs_eq, arrival,
      Tree.arrival_map, ← headingOf_count (sharedIn framing (pairs.map (·.2)))]
    cases levels with
    | zero => exact .bind_nil hentries.heading_drives (.refused (beginMap_refuses hf))
    | succ levels =>
      refine .bind_nil hentries.heading_drives (.fold_bind fun g hbegin => ?_)
      cases (beginMap_tree hf.toAdmits).symm.trans hbegin
      refine .bind (pairs_drives hf hn hkeys hcounts fun kv hkv => ?_) fun _ _ => .fold
      exact ih kv hkv (hwritable kv hkv) (hcounts kv hkv)

/-! ## Whole inputs -/

variable {t : Tree} {o : FoldOptions} {codec : String}

/-- **The form of a tree is handed to every folder in step with the reader.** -/
theorem fold_drives (ht : Writable t) (hcount : t.Countable) (hf : f.InStep limit levels) :
    (fold levels).Drives (Before (form framing false t ++ rest)) f (arrival framing t) ()
      (Before rest) :=
  marked_drives (foldMarked_handed ht hcount) hf

/-- **A tree is encoded if it is writable and can be counted, in its form.** -/
theorem encode_eq_ok_iff {e : Encoded} : encode codec framing t o = .ok e ↔
    (Writable t ∧ t.Countable) ∧ t.depth ≤ o.depthLimit ∧ ⟨form framing false t, t.digest o⟩ = e := by
  constructor
  · intro hok
    obtain ⟨ht, hcount, hdepth⟩ := (write_requires t).run hok
    rw [encode, (write_encodes ht hcount).run hdepth] at hok
    cases hok
    exact ⟨⟨ht, hcount⟩, hdepth, rfl⟩
  · rintro ⟨⟨ht, hcount⟩, hdepth, rfl⟩
    exact (write_encodes ht hcount).run hdepth

/-- **Its form decodes to its digest if it fits the limit, and else fails with the limit.** -/
theorem decode_form_eq (ht : Writable t) (hcount : t.Countable) (o : FoldOptions) :
    decode (form framing false t) o = if t.depth ≤ o.depthLimit then .ok (t.digest o)
      else .error (.decode (.depthExceeded o.depthLimit)) := by
  have hdrives : (fold o.depthLimit).Drives (Before (form framing false t ++ [])) (.start .decode o)
      (arrival framing t) () (Before []) := fold_drives ht hcount (start_inStep o)
  rw [List.append_nil] at hdrives
  have hstart : Before (form framing false t) (Cursor.start (form framing false t)) := rfl
  exact (hdrives.run hstart fun _ => .finished).trans
    (foldEvents_arrival Integer.value_toSigned hcount)

end TreeDigest.Ubjson
