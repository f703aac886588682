import TreeDigest.Proofs.Ubjson.Grammar

/-!
# Spelled trees are read

Octets that are a tree by sound rules are handed to every folder as a traversal of the
tree, its integers signed. Which traversal it is depends on the octets only: a count that
was said is declared, and a single comes as a single.

By induction on the tree. In a container the entries are handed over one after the other,
and between two of them the folder stands where it stood.
-/

namespace TreeDigest.Ubjson

open Cursor (Before)
open Decoder (Drives Brings)
open Folder (Stands Ends)

variable {rules : Rules} {m : Marker} {shape : Shape} {shared : Option Marker} {t : Tree}
  {n : Nat} {key bytes more head content : Bytes} {entries : List (Bytes × Tree)}
  {es fs : List Event}

/-! ## Sizes -/

theorem IntegerForm.length_octets_pos (form : IntegerForm) (i : Int64) :
    1 ≤ (form.octets i).length := by
  rw [IntegerForm.octets, Bytes.length_big]
  cases form <;> decide

theorem SpellsLength.two_le (h : SpellsLength n bytes) : 2 ≤ bytes.length := by
  obtain @⟨form, i, idle, -, -⟩ := h
  have hpos := form.length_octets_pos i
  rw [List.length_append, length_led]
  omega

theorem SpellsText.two_le {octets : Bytes} (h : SpellsText octets bytes) : 2 ≤ bytes.length := by
  obtain ⟨-, hlength⟩ := h
  have htwo := hlength.two_le
  rw [List.length_append]
  omega

theorem SpellsHeading.pos {declared : Option UInt8} (h : SpellsHeading n declared bytes) :
    1 ≤ bytes.length := by
  cases h with
  | counted hcount =>
    obtain ⟨idle, hlength⟩ := hcount
    rw [List.length_append, length_led]
    omega
  | typed idle hcount =>
    rw [List.length_append, length_led]
    omega

theorem SpellsContent.pos (h : SpellsContent rules shape entries bytes) : 1 ≤ bytes.length := by
  cases h with
  | closed idle hentries =>
    rw [List.length_append, length_led]
    omega
  | counted hshared hheading hentries =>
    have hpos := hheading.pos
    rw [List.length_append]
    omega
  | unknown hb hheading => exact hheading.pos

/-- A payload whose marker can be declared takes an octet. -/
theorem SpellsPayload.pos (h : SpellsPayload rules m t bytes) (hm : m.isShareable = true) :
    1 ≤ bytes.length := by
  cases h with
  | null => cases hm
  | yes => cases hm
  | no => cases hm
  | int hholds => exact IntegerForm.length_octets_pos ..
  | uint hholds hvalue => exact IntegerForm.length_octets_pos ..
  | single bits =>
    rw [Bytes.length_big]
    decide
  | double bits =>
    rw [Bytes.length_big]
    decide
  | character hb => exact Nat.le_refl 1
  | text htext => exact Nat.le_of_succ_le htext.two_le
  | list hcontent => exact hcontent.pos
  | map hcontent => exact hcontent.pos

theorem Spells.pos (h : Spells rules shared t bytes)
    (hshared : ∀ m ∈ shared, m.isShareable = true) : 1 ≤ bytes.length := by
  cases h with
  | marked idle hpayload =>
    rw [List.length_append, length_led]
    omega
  | @bare m t payload hpayload => exact hpayload.pos (hshared m rfl)

theorem SpellsKey.leastEntry_le (h : SpellsKey shape key head) :
    leastEntry shape ≤ head.length + 1 := by
  cases h with
  | item key => exact Nat.le_refl 1
  | key htext => exact Nat.le_succ_of_le htext.two_le

/-- Every entry takes as many octets as a reader counts on. -/
theorem SpellsEntries.length_le (h : SpellsEntries rules shared shape entries bytes)
    (hshared : ∀ m ∈ shared, m.isShareable = true) :
    entries.length * leastEntry shape ≤ bytes.length := by
  induction entries generalizing bytes with
  | nil =>
    rw [List.length_nil, Nat.zero_mul]
    exact Nat.zero_le _
  | cons kv entries ih =>
    cases h with
    | cons hkey hvalue hentries =>
      have hhead := hkey.leastEntry_le
      have hpos := hvalue.pos hshared
      have hrest := ih hentries
      rw [List.length_append, List.length_append, List.length_cons, Nat.add_mul, Nat.one_mul]
      omega

/-! ## Events of entries -/

/-- The event before the value of an entry, if there is one. -/
def keyEvents : Shape → Bytes → List Event
  | .list, _ => []
  | .map, key => [.key key]

/-- A sequence of events is entries, one after the other. -/
def EntriesTraversal : Shape → List (Bytes × Tree) → List Event → Prop
  | .list, entries, es => ItemsTraversal (entries.map (·.2)) es
  | .map, entries, es => PairsTraversal entries es

/-- The container of entries. -/
def treeOf : Shape → List (Bytes × Tree) → Tree
  | .list, entries => .list (entries.map (·.2))
  | .map, entries => .map entries

theorem EntriesTraversal.nil : EntriesTraversal shape [] [] := by
  cases shape with
  | list => exact ItemsTraversal.nil
  | map => exact PairsTraversal.nil

theorem EntriesTraversal.cons (h : Traversal t es) (hentries : EntriesTraversal shape entries fs) :
    EntriesTraversal shape ((key, t) :: entries) (keyEvents shape key ++ es ++ fs) := by
  cases shape with
  | list => exact ItemsTraversal.cons h hentries
  | map => exact PairsTraversal.cons h hentries

theorem EntriesTraversal.container {declared : Option UInt32}
    (hdeclared : ∀ d ∈ declared, d.toNat = entries.length) (h : EntriesTraversal shape entries es) :
    Traversal (treeOf shape entries) (beginEvent shape declared :: (es ++ [endEvent shape])) := by
  cases shape with
  | list => exact .list (fun d hd => by rw [hdeclared d hd, List.length_map]) h
  | map => exact .map hdeclared h

/-- Entries with every integer signed. -/
def signedEntries (entries : List (Bytes × Tree)) : List (Bytes × Tree) :=
  entries.map fun kv => (kv.1, signed kv.2)

theorem signed_treeOf (shape : Shape) (entries : List (Bytes × Tree)) :
    signed (treeOf shape entries) = treeOf shape (signedEntries entries) := by
  cases shape with
  | list =>
    rw [treeOf, signed, Tree.mapIntegers_list, treeOf, signedEntries, List.map_map, List.map_map]
    rfl
  | map => exact Tree.mapIntegers_map entries

/-! ## Handing over -/

/-- To a folder with so many levels left a step hands octets over as certain events. -/
structure Hands {α : Type} (step : Nat → Decoder Cursor α) (bytes : Bytes) (es : List Event)
    (a : α) : Prop where
  drives : ∀ {limit depth levels : Nat} {f : Folder} (rest : Bytes), limit = depth + levels →
    f.Stands limit depth → (step levels).Drives (Before (bytes ++ rest)) f es a (Before rest)

/-- It leaves a folder where it stood. -/
structure Stays {α : Type} (step : Nat → Decoder Cursor α) : Prop where
  brings : ∀ {limit depth levels : Nat}, limit = depth + levels →
    Brings (Stands limit depth) (Stands limit depth) (step levels)

namespace Hands

variable {α β : Type} {step : Nat → Decoder Cursor α} {next : Nat → α → Decoder Cursor β}
  {a : α} {b : β}

theorem pure : Hands (fun _ => (pure a : Decoder Cursor α)) [] [] a := ⟨fun _ _ _ => .pure⟩

theorem bind (h : Hands step bytes es a) (hstays : Stays step)
    (hnext : Hands (fun levels => next levels a) more fs b) :
    Hands (fun levels => step levels >>= next levels) (bytes ++ more) (es ++ fs) b where
  drives {limit depth levels f} rest hlimit hf := by
    have hstep := h.drives (more ++ rest) hlimit hf
    rw [List.append_assoc]
    refine .bind hstep fun f' hes => hnext.drives rest hlimit ?_
    have hbefore : Before (bytes ++ (more ++ rest)) ⟨0, bytes ++ (more ++ rest)⟩ := rfl
    obtain ⟨c, -, hok⟩ := hstep.ok hbefore hes
    exact (hstays.brings hlimit).after hf hok

/-- A step that reads, before one that hands over. -/
theorem read_bind {γ : Type} {reader : Reader γ} {c : γ} {next : Nat → γ → Decoder Cursor β}
    (h : reader.Reads bytes c) (hnext : Hands (fun levels => next levels c) more es b) :
    Hands (fun levels => Decoder.read reader >>= next levels) (bytes ++ more) es b where
  drives rest hlimit hf := by
    rw [List.append_assoc]
    exact .bind_nil (.read h) (hnext.drives rest hlimit hf)

theorem offset_bind {next : Nat → Nat → Decoder Cursor β}
    (h : ∀ offset, Hands (fun levels => next levels offset) bytes es b) :
    Hands (fun levels => Decoder.read Reader.offset >>= next levels) bytes es b where
  drives rest hlimit hf := .offset_bind fun offset => (h offset).drives rest hlimit hf

end Hands

theorem value_stays : Stays fun levels => valueStep (foldMarked levels) shared := by
  refine ⟨fun {limit depth levels} hlimit => ?_⟩
  have hpayload : ∀ marker offset, Brings (Stands limit depth) (Stands limit depth)
      (foldMarked levels marker offset) := fun marker offset =>
    .mono ((foldMarked_announced levels marker offset).brings (body_brings hlimit)) fun _ hf =>
      hf.toStands
  cases shared with
  | none => exact marked_brings hpayload
  | some m => exact .bind (.reading _) fun offset => hpayload m.octet offset

theorem entry_stays : Stays fun levels => entry shape (valueStep (foldMarked levels) shared) :=
  ⟨fun hlimit => entry_brings (value_stays.brings hlimit)⟩

/-- An entry is handed over as its key, if it has one, and its value. -/
theorem entry_hands {value : Nat → Decoder Cursor Unit} (hkey : SpellsKey shape key head)
    (h : Hands value bytes es ()) :
    Hands (fun levels => entry shape (value levels)) (head ++ bytes)
      (keyEvents shape key ++ es) () := by
  cases hkey with
  | item key => exact h
  | key htext =>
    refine ⟨fun rest hlimit hf => ?_⟩
    rw [List.append_assoc]
    exact .bind_nil (.read htext.reads) (.fold_bind fun g hg =>
      h.drives rest hlimit (Folding.key_stands hf hg))

/-- Behind its marker, a tree is handed over as a traversal of it, its integers signed. -/
def Arrives (m : Marker) (t : Tree) (bytes : Bytes) : Prop :=
  ∃ es, Traversal (signed t) es ∧
    ∀ offset, Hands (fun levels => foldMarked levels m.octet offset) bytes es ()

theorem SpellsPayload.opens (h : SpellsPayload rules m t bytes) : Opens m ∧ m ≠ .noop := by
  cases h <;> exact ⟨trivial, Marker.noConfusion⟩

theorem Spells.hands (h : Spells rules shared t bytes)
    (harrives : ∀ {m payload}, SpellsPayload rules m t payload → Arrives m t payload) :
    ∃ es, Traversal (signed t) es ∧
      Hands (fun levels => valueStep (foldMarked levels) shared) bytes es () := by
  cases h with
  | marked idle hpayload =>
    obtain ⟨es, hes, hhands⟩ := harrives hpayload
    exact ⟨es, hes, .offset_bind fun offset =>
      .read_bind (marker_led hpayload.opens.2 idle) (hhands offset)⟩
  | bare hpayload =>
    obtain ⟨es, hes, hhands⟩ := harrives hpayload
    exact ⟨es, hes, .offset_bind hhands⟩

/-! ## Entries -/

/-- What every entry of a container is once its value is. -/
abbrev AllArrive (rules : Rules) (entries : List (Bytes × Tree)) : Prop :=
  ∀ kv ∈ entries, ∀ {m payload}, SpellsPayload rules m kv.2 payload → Arrives m kv.2 payload

/-- Entries that were counted. -/
theorem SpellsEntries.times_hands (h : SpellsEntries rules shared shape entries bytes)
    (harrives : AllArrive rules entries) :
    ∃ es, EntriesTraversal shape (signedEntries entries) es ∧
      Hands (fun levels => Loop.times (entry shape (valueStep (foldMarked levels) shared))
        entries.length) bytes es () := by
  induction entries generalizing bytes with
  | nil =>
    cases h
    exact ⟨[], .nil, .pure⟩
  | cons kv entries ih =>
    rw [AllArrive, List.forall_mem_cons] at harrives
    cases h with
    | cons hkey hvalue hentries =>
      obtain ⟨es, hes, hhands⟩ := hvalue.hands harrives.1
      obtain ⟨fs, hfs, hrest⟩ := ih hentries harrives.2
      exact ⟨_, .cons hes hfs, .bind (entry_hands hkey hhands) entry_stays hrest⟩

theorem peekMarker_drives {f : Folder} (h : Begins m bytes) (idle : Nat) :
    (Decoder.read peekMarker).Drives (Before (noops idle ++ bytes)) f [] m.octet
      (Before bytes) := by
  refine .reading fun c hc => ?_
  obtain ⟨offset, octets⟩ := c
  obtain rfl : octets = noops idle ++ bytes := hc
  exact ⟨⟨offset + idle, bytes⟩, rfl, peekMarker_noops h idle offset⟩

/-- A marker that a value can begin with does not close a container. -/
theorem octet_ne_endOctet (h : Opens m) : ¬ m.octet = endOctet shape := by
  intro heq
  rw [octet_inj (heq.trans (octet_endMarker shape).symm)] at h
  cases shape <;> exact h

/-- An entry that brings its own marker is the same entry without the no-ops before it. -/
theorem Spells.begins (hkey : SpellsKey shape key head) (h : Spells rules none t bytes) :
    ∃ idle head' bytes' m, head ++ bytes = noops idle ++ (head' ++ bytes') ∧
      SpellsKey shape key head' ∧ Spells rules none t bytes' ∧
      Begins m (head' ++ bytes') ∧ Opens m := by
  cases hkey with
  | item key =>
    obtain @⟨m, t, payload, idle, hpayload⟩ := h
    obtain ⟨hopens, hnoop⟩ := hpayload.opens
    exact ⟨idle, [], _, m, led_append idle m payload, .item key, .marked 0 hpayload,
      begins_octet hnoop payload, hopens⟩
  | key htext =>
    obtain ⟨hvalid, hlength⟩ := htext
    obtain @⟨form, i, idle, hholds, hvalue⟩ := hlength
    refine ⟨idle, _, bytes, .integer form, ?_, .key ⟨hvalid, .intro 0 hholds hvalue⟩, h,
      begins_octet Marker.noConfusion _, trivial⟩
    rw [led, List.append_assoc, List.append_assoc, List.append_assoc, List.append_assoc]
    rfl

theorem endMarker_begins (rest : Bytes) :
    Begins (endMarker shape) ((endMarker shape).octet :: rest) := by
  cases shape <;> exact begins_octet Marker.noConfusion rest

/-- Entries up to the marker that closes their container. -/
theorem SpellsEntries.rounds_hands (h : SpellsEntries rules none shape entries bytes)
    (harrives : AllArrive rules entries) (idle : Nat) :
    ∃ es, EntriesTraversal shape (signedEntries entries) es ∧
      ∀ (room : Bytes) (k : Nat), entries.length ≤ room.length →
        Hands (fun levels => Loop.rounds (closedRound shape (foldMarked levels)) k room)
          (bytes ++ led idle (endMarker shape)) es () := by
  induction entries generalizing bytes with
  | nil =>
    cases h
    have hround : ∀ k, Hands (fun levels => closedRound shape (foldMarked levels) k)
        (led idle (endMarker shape)) [] false := by
      refine fun k => ⟨fun rest _ _ => ?_⟩
      rw [led_append]
      refine .bind_nil (peekMarker_drives (endMarker_begins rest) idle) ?_
      rw [if_pos (octet_endMarker shape)]
      exact .bind_nil (.read (.skip _)) .pure
    refine ⟨[], .nil, fun room k _ => ⟨fun rest hlimit hf => ?_⟩⟩
    cases room with
    | nil => exact .bind_nil ((hround k).drives rest hlimit hf) .pure
    | cons _ room => exact .bind_nil ((hround k).drives rest hlimit hf) .pure
  | cons kv entries ih =>
    rw [AllArrive, List.forall_mem_cons] at harrives
    cases h with
    | @cons _ _ key _ _ _ _ _ hkey hvalue hentries =>
      obtain ⟨j, head, bytes, m, heq, hkey, hvalue, hbegins, hopens⟩ := hvalue.begins hkey
      obtain ⟨es, hes, hhands⟩ := hvalue.hands harrives.1
      obtain ⟨fs, hfs, hrest⟩ := ih hentries harrives.2
      refine ⟨_, .cons hes hfs, fun room k hroom => ?_⟩
      -- the round looks behind the no-ops, and then reads the entry from there
      have hround : Hands (fun levels => closedRound shape (foldMarked levels) k)
          (noops j ++ (head ++ bytes)) (keyEvents shape key ++ es) true := by
        refine ⟨fun rest hlimit hf => ?_⟩
        rw [List.append_assoc]
        refine .bind_nil (peekMarker_drives (hbegins.append rest) j) ?_
        rw [if_neg (octet_ne_endOctet hopens)]
        exact .bind_last ((entry_hands hkey hhands).drives rest hlimit hf) fun _ => .pure
      have hstays : Stays fun levels => closedRound shape (foldMarked levels) k := by
        refine ⟨fun hlimit => .bind (.reading _) fun b => ?_⟩
        split
        · exact .bind (.reading _) fun _ => .pure _
        · exact .bind ((@entry_stays shape none).brings hlimit) fun _ => .pure _
      cases room with
      | nil => cases hroom
      | cons _ room =>
        rw [heq, List.append_assoc]
        exact .bind hround hstays (hrest room (k + 1) (Nat.le_of_succ_le_succ hroom))

/-! ## Containers -/

theorem container_hands {declared : Option UInt8} {count : Option UInt32}
    (hheading : ∀ f rest, (Decoder.read heading).Drives (Before (bytes ++ rest)) f []
      ⟨declared, count⟩ (Before (content ++ rest)))
    (hentries : Hands (fun levels => Ubjson.entries shape ⟨declared, count⟩ (foldMarked levels))
      content es ()) :
    Hands (fun levels => container levels shape) bytes
      (beginEvent shape count :: (es ++ [endEvent shape])) () where
  drives {limit depth levels f} rest hlimit hf := by
    refine .bind_nil (hheading f rest) (.fold_bind fun g hbegin => ?_)
    have hbegun : Begun limit depth g := by
      cases shape with
      | list => exact Folding.beginList_stands hf hbegin
      | map => exact Folding.beginMap_stands hf hbegin
    cases levels with
    | zero => exact absurd hbegun.1 (by omega)
    | succ levels => exact .bind (hentries.drives rest (by omega) hbegun.2) fun _ _ => .fold

theorem signed_declared (hn : entries.length < 0x100000000) :
    ∀ d ∈ some entries.length.toUInt32, d.toNat = (signedEntries entries).length := by
  intro d hd
  rw [signedEntries, List.length_map]
  exact Folder.declared_eq hn d hd

/-- Where a container without a count begins, there is no head. -/
theorem SpellsEntries.begins (h : SpellsEntries rules none shape entries bytes) (idle : Nat) :
    ∃ j m bytes' idle', bytes ++ led idle (endMarker shape) =
        noops j ++ (bytes' ++ led idle' (endMarker shape)) ∧
      SpellsEntries rules none shape entries bytes' ∧
      Begins m (bytes' ++ led idle' (endMarker shape)) ∧ m ≠ .sharedType ∧ m ≠ .count := by
  cases h with
  | nil =>
    refine ⟨idle, endMarker shape, [], 0, rfl, .nil, endMarker_begins [], ?_⟩
    cases shape <;> exact ⟨Marker.noConfusion, Marker.noConfusion⟩
  | @cons _ _ _ _ _ content _ _ hkey hvalue hentries =>
    obtain ⟨j, head, bytes, m, heq, hkey, hvalue, hbegins, hopens⟩ := hvalue.begins hkey
    refine ⟨j, m, head ++ bytes ++ content, idle, ?_, .cons hkey hvalue hentries,
      (hbegins.append content).append _, ?_⟩
    · rw [heq, List.append_assoc, List.append_assoc, List.append_assoc _ content]
    · constructor <;> rintro rfl <;> exact hopens

theorem heading_noops {f : Folder} (h : Begins m bytes) (hshared : m ≠ .sharedType)
    (hcount : m ≠ .count) (idle : Nat) :
    (Decoder.read heading).Drives (Before (noops idle ++ bytes)) f [] ⟨none, none⟩
      (Before bytes) := by
  refine .reading fun c hc => ?_
  obtain ⟨offset, octets⟩ := c
  obtain rfl : octets = noops idle ++ bytes := hc
  refine ⟨⟨offset + idle, bytes⟩, rfl, ?_⟩
  have hnone : sharedMarker ⟨offset, noops idle ++ bytes⟩ = .ok none ⟨offset + idle, bytes⟩ := by
    rw [sharedMarker, Steps.bind_ok (peekMarker_noops h idle offset),
      if_neg fun heq => hshared (octet_inj heq)]
    rfl
  rw [heading, Steps.bind_ok hnone, Steps.bind_ok (entryCount_none h hcount)]
  rfl

/-- Entries that were counted are read one by one, once there are octets enough for them. -/
theorem entries_counted (hn : n < 0x100000000) (shared : Option Marker)
    (payload : UInt8 → Nat → Decoder Cursor Unit) :
    Ubjson.entries shape ⟨shared.map Marker.octet, some n.toUInt32⟩ payload = (do
      Decoder.read (Reader.need (n * leastEntry shape))
      Loop.times (entry shape (valueStep payload shared)) n) := by
  rw [Ubjson.entries.eq_def]
  dsimp only
  rw [Folder.toNat_length hn]
  cases shared <;> rfl

theorem need_drives {f : Folder} (h : n ≤ bytes.length) :
    (Decoder.read (Reader.need n)).Drives (Before bytes) f [] () (Before bytes) :=
  .look fun _ => Reader.need_eq_ok_iff.mpr ⟨h, rfl⟩

/-- **Behind its opening marker, a container is handed over whichever way it says its entries.** -/
theorem SpellsContent.hands (h : SpellsContent rules shape entries bytes) (hrules : rules.Sound)
    (hn : entries.length < 0x100000000) (harrives : AllArrive rules entries) :
    ∃ es, Traversal (signed (treeOf shape entries)) es ∧
      Hands (fun levels => container levels shape) bytes es () := by
  rw [signed_treeOf]
  cases h with
  | closed idle hentries =>
    obtain ⟨j, m, bytes, idle, heq, hentries, hbegins, hshared, hcount⟩ := hentries.begins idle
    obtain ⟨es, hes, hrounds⟩ := hentries.rounds_hands harrives idle
    have htraversal : Traversal (treeOf shape (signedEntries entries))
        (beginEvent shape none :: (es ++ [endEvent shape])) := hes.container nofun
    have hhanded : Hands (fun levels => Ubjson.entries shape ⟨none, none⟩ (foldMarked levels))
        (bytes ++ led idle (endMarker shape)) es () := by
      refine ⟨fun rest hlimit hf => ?_⟩
      -- there is room for a round for each entry, since each takes an octet
      have hroom : entries.length ≤ (bytes ++ led idle (endMarker shape) ++ rest).length := by
        have hlength := hentries.length_le nofun
        have hleast : entries.length ≤ entries.length * leastEntry shape :=
          Nat.le_mul_of_pos_right _ (by cases shape <;> decide)
        rw [List.length_append, List.length_append]
        omega
      rw [entries_closed]
      exact .bind_nil .left ((hrounds _ 0 hroom).drives rest hlimit hf)
    refine ⟨_, htraversal, container_hands (fun f rest => ?_) hhanded⟩
    rw [heq, List.append_assoc]
    exact heading_noops (hbegins.append rest) hshared hcount j
  | @counted shared _ _ heading bytes hdeclares hheading hentries =>
    have hshareable : ∀ m ∈ shared, m.isShareable = true :=
      fun m hm => hrules.declares (hdeclares m hm)
    have hdeclarable : ∀ b ∈ shared.map Marker.octet, isDeclarable b = true := by
      cases shared with
      | none => exact nofun
      | some m =>
        rintro b ⟨⟩
        rw [isDeclarable, Marker.ofOctet?_octet]
        exact hshareable m rfl
    obtain ⟨es, hes, htimes⟩ := hentries.times_hands harrives
    have hhanded : Hands (fun levels => Ubjson.entries shape
        ⟨shared.map Marker.octet, some entries.length.toUInt32⟩ (foldMarked levels))
        bytes es () := by
      refine ⟨fun rest hlimit hf => ?_⟩
      have hlength : entries.length * leastEntry shape ≤ (bytes ++ rest).length := by
        have hleast := hentries.length_le hshareable
        rw [List.length_append]
        omega
      rw [entries_counted hn]
      exact .bind_nil (need_drives hlength) (htimes.drives rest hlimit hf)
    refine ⟨_, hes.container (signed_declared hn), container_hands (fun f rest => ?_) hhanded⟩
    rw [List.append_assoc]
    exact .read (hheading.reads hn hdeclarable)
  | @unknown _ b heading hb hheading =>
    have htraversal : Traversal (treeOf shape [])
        (beginEvent shape (some 0) :: ([] ++ [endEvent shape])) :=
      EntriesTraversal.nil.container fun d hd => by cases hd; rfl
    have hhanded : Hands (fun levels => Ubjson.entries shape ⟨some b, some 0⟩ (foldMarked levels))
        [] [] () := by
      refine ⟨fun rest hlimit hf => ?_⟩
      have hneed : (0 : UInt32).toNat * leastEntry shape = 0 := Nat.zero_mul _
      rw [Ubjson.entries.eq_def]
      dsimp only
      rw [hneed]
      exact .bind_nil (need_drives (Nat.zero_le _)) .pure
    refine ⟨_, htraversal, container_hands (fun f rest => ?_) hhanded⟩
    exact .read (hheading.reads hn fun b' hb' => by cases hb'; exact hrules.idle hb)

/-! ## Trees -/

theorem foldMarked_list (levels offset : Nat) :
    foldMarked levels Marker.listStart.octet offset = container levels .list := by
  rw [foldMarked.eq_def, Marker.ofOctet?_octet]
  cases levels <;> rfl

theorem foldMarked_map (levels offset : Nat) :
    foldMarked levels Marker.mapStart.octet offset = container levels .map := by
  rw [foldMarked.eq_def, Marker.ofOctet?_octet]
  cases levels <;> rfl

theorem Arrives.scalar {e : Event} (ht : Traversal (signed t) [e])
    (h : ∀ levels offset f rest, (foldMarked levels m.octet offset).Drives (Before (bytes ++ rest))
      f [e] () (Before rest)) : Arrives m t bytes :=
  ⟨[e], ht, fun offset => ⟨fun rest _ _ => h _ offset _ rest⟩⟩

theorem SpellsPayload.arrives_scalar (h : SpellsPayload rules m t bytes)
    (hscalar : t.isContainer = false) : Arrives m t bytes := by
  cases h with
  | list hcontent => exact Bool.noConfusion hscalar
  | map hcontent => exact Bool.noConfusion hscalar
  | null =>
    refine .scalar .null fun levels offset f rest => ?_
    rw [foldMarked.eq_def, Marker.ofOctet?_octet]
    exact .fold
  | yes =>
    refine .scalar (.bool true) fun levels offset f rest => ?_
    rw [foldMarked.eq_def, Marker.ofOctet?_octet]
    exact .fold
  | no =>
    refine .scalar (.bool false) fun levels offset f rest => ?_
    rw [foldMarked.eq_def, Marker.ofOctet?_octet]
    exact .fold
  | @int form i hholds =>
    refine .scalar (.int i) fun levels offset f rest => ?_
    rw [foldMarked.eq_def, Marker.ofOctet?_octet]
    refine .bind_nil (.read (integerOf_octets hholds)) ?_
    rw [Int64.ofInt_toInt]
    exact .fold
  | @uint form u i hholds hvalue =>
    -- the value is the same, and so is the integer once it is signed
    have hsigned : signed (.uint u) = .int i :=
      congrArg Integer.tree (Integer.toSigned_inj (m := .unsigned u) (n := .signed i) hvalue.symm)
    have htraversal : Traversal (signed (.uint u)) [.int i] := hsigned ▸ .int i
    refine .scalar htraversal fun levels offset f rest => ?_
    rw [foldMarked.eq_def, Marker.ofOctet?_octet]
    refine .bind_nil (.read (integerOf_octets hholds)) ?_
    rw [Int64.ofInt_toInt]
    exact .fold
  | single bits =>
    refine .scalar (.single bits) fun levels offset f rest => ?_
    rw [foldMarked.eq_def, Marker.ofOctet?_octet]
    refine .bind_nil (.read (.big bits.toNat_lt)) ?_
    rw [show bits.toNat.toUInt32 = bits from UInt32.ofNat_toNat]
    exact .fold
  | double bits =>
    refine .scalar (.double bits) fun levels offset f rest => ?_
    rw [foldMarked.eq_def, Marker.ofOctet?_octet]
    refine .bind_nil (.read (.big bits.toNat_lt)) ?_
    rw [show bits.toNat.toUInt64 = bits from UInt64.ofNat_toNat]
    exact .fold
  | @character b hb =>
    refine .scalar (.text [b]) fun levels offset f rest => ?_
    rw [foldMarked.eq_def, Marker.ofOctet?_octet]
    exact .bind_nil (.read (.take [b])) .fold
  | @text octets bytes htext =>
    refine .scalar (.text octets) fun levels offset f rest => ?_
    rw [foldMarked.eq_def, Marker.ofOctet?_octet]
    exact .bind_nil (.read htext.reads) .fold

/-- **What is spelled by sound rules is handed over as a traversal of its tree.** -/
theorem SpellsPayload.arrives (h : SpellsPayload rules m t bytes) (hrules : rules.Sound)
    (ht : t.Countable) : Arrives m t bytes := by
  induction t using Tree.induct generalizing m bytes with
  | scalar t hscalar => exact h.arrives_scalar hscalar
  | list items ih =>
    cases h with
    | @list entries bytes hcontent =>
      obtain ⟨hn, hcounts⟩ := Tree.countable_list.mp ht
      rw [List.length_map] at hn
      obtain ⟨es, hes, hhands⟩ := hcontent.hands hrules hn fun kv hkv {m payload} hpayload =>
        have hmem : kv.2 ∈ entries.map (·.2) := List.mem_map_of_mem hkv
        ih kv.2 hmem hpayload (hcounts kv.2 hmem)
      exact ⟨es, hes, fun offset => by simpa only [foldMarked_list] using hhands⟩
  | map pairs ih =>
    cases h with
    | map hcontent =>
      obtain ⟨hn, hcounts⟩ := Tree.countable_map.mp ht
      obtain ⟨es, hes, hhands⟩ := hcontent.hands hrules hn fun kv hkv {m payload} hpayload =>
        ih kv hkv hpayload (hcounts kv hkv)
      exact ⟨es, hes, fun offset => by simpa only [foldMarked_map] using hhands⟩

/-! ## Whole inputs -/

/-- **A spelled tree decodes to its digest if it fits the limit, and else fails with the limit.** -/
theorem Spells.decode_eq {input : Bytes} (h : Spells rules none t input) (hrules : rules.Sound)
    (ht : t.Countable) (o : FoldOptions) :
    decode input o = if t.depth ≤ o.depthLimit then .ok (t.digest o)
      else .error (.decode (.depthExceeded o.depthLimit)) := by
  obtain ⟨es, hes, hhands⟩ := h.hands fun hpayload => hpayload.arrives hrules ht
  have hlimit : o.depthLimit = 0 + o.depthLimit := (Nat.zero_add _).symm
  have hdrives : (fold o.depthLimit).Drives (Before (input ++ [])) (.start .decode o) es ()
      (Before []) := hhands.drives [] hlimit (Folder.stands_start o)
  rw [List.append_nil] at hdrives
  have hstart : Before input (Cursor.start input) := rfl
  have hrun : decode input o = foldEvents .decode es o := hdrives.run hstart fun _ => .finished
  rw [hrun, foldEvents_eq hes (Tree.countable_mapIntegers.mpr ht), signed, Tree.depth_mapIntegers,
    Tree.digest_mapIntegers Integer.value_toSigned]
  rfl

end TreeDigest.Ubjson
