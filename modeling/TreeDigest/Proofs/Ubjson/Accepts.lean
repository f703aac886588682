import TreeDigest.Proofs.Ubjson.Spelled

/-!
# What is read is spelled

The other direction of the grammar: a decoder that comes to the end of an input has gone
over a tree. Which one it is follows from the events it has handed over, since they are
a traversal of that tree and of no other.

By induction on the levels that are left. A reader goes over no-ops whenever it looks for
what comes next, so where it looks twice the no-ops are put together again.

Two things are read that no tree is written with: any octet as a character, and a container
without values that declares a marker there is none of.
-/

namespace TreeDigest.Ubjson

open Decoder (Brings)
open Folder (Stands)

variable {m : Marker} {shape : Shape} {shared : Option Marker} {t : Tree} {c c' : Cursor}
  {d d' d'' : Decoding Cursor} {n limit depth : Nat} {b : UInt8}
  {key bytes more head content : Bytes} {entries : List (Bytes × Tree)} {es fs : List Event}

/-! ## Markers and lengths -/

theorem noops_add (j k : Nat) : noops j ++ noops k = noops (j + k) :=
  List.replicate_append_replicate ..

theorem noops_led (j k : Nat) (m : Marker) : noops j ++ led k m = led (j + k) m := by
  rw [led, ← List.append_assoc, noops_add, led]

/-- What lies before a marker is no-ops, and the marker is not one. -/
theorem afterNoops_takes (offset : Nat) (bytes : Bytes) :
    ∃ k, (⟨offset, bytes⟩ : Cursor).Takes (noops k) (afterNoops offset bytes) ∧
      ∀ b rest, (afterNoops offset bytes).rest = b :: rest → b ≠ Marker.noop.octet := by
  induction bytes generalizing offset with
  | nil => exact ⟨0, .refl _, nofun⟩
  | cons b bytes ih =>
    rw [afterNoops]
    split
    · rename_i hnoop
      obtain ⟨k, htaken, hmarker⟩ := ih (offset + 1)
      have hone : (⟨offset, b :: bytes⟩ : Cursor).Takes (noops 1) ⟨offset + 1, bytes⟩ := by
        rw [hnoop]
        exact ⟨rfl, rfl⟩
      refine ⟨1 + k, ?_, hmarker⟩
      rw [← noops_add]
      exact hone.trans htaken
    · rename_i hmarker
      refine ⟨0, .refl _, ?_⟩
      rintro b' rest ⟨⟩
      exact hmarker

theorem marker_ok (h : marker c = .ok b c') : ∃ k, c.Takes (noops k ++ [b]) c' := by
  obtain ⟨_, c₁, hskip, hoctet⟩ := Steps.bind_eq_ok_iff.mp h
  cases hskip
  obtain ⟨k, htaken, -⟩ := afterNoops_takes c.offset c.rest
  exact ⟨k, htaken.trans (Reader.octet_ok hoctet)⟩

theorem peekMarker_ok (h : peekMarker c = .ok b c') :
    ∃ k rest, c.Takes (noops k) c' ∧ c'.rest = b :: rest ∧ b ≠ Marker.noop.octet := by
  have hpeek : Reader.peek (afterNoops c.offset c.rest) = .ok b c' := h
  obtain ⟨k, htaken, hmarker⟩ := afterNoops_takes c.offset c.rest
  generalize afterNoops c.offset c.rest = c₁ at hpeek htaken hmarker
  obtain ⟨offset, octets⟩ := c₁
  cases octets with
  | nil => cases hpeek
  | cons b' rest =>
    cases hpeek
    exact ⟨k, rest, htaken, rfl, hmarker b rest rfl⟩

theorem skip_ok {rest : Bytes} {u : Unit} (hrest : c.rest = b :: rest)
    (h : Reader.skip c = .ok u c') : c.Takes [b] c' := by
  obtain ⟨offset, octets⟩ := c
  subst hrest
  cases h
  exact ⟨rfl, rfl⟩

theorem integerOf_ok {form : IntegerForm} {n : Int} (h : integerOf form c = .ok n c') :
    ∃ i, form.Holds i ∧ i.toInt = n ∧ c.Takes (form.octets i) c' := by
  cases form with
  | uint8 =>
    obtain ⟨k, c₁, hbig, hvalue⟩ := Steps.bind_eq_ok_iff.mp h
    cases hvalue
    obtain ⟨hlt, htaken⟩ := Reader.big_ok hbig
    have hcapacity : Bytes.capacity IntegerForm.uint8.width = 0x100 := rfl
    have hvalue : (Int64.ofNat k).toInt = k := Int64.toInt_ofNat_of_lt (by omega)
    have hpattern := Bytes.toNat_toUInt64 (Int64.ofNat k)
    rw [hvalue, if_pos (Int.natCast_nonneg k), Int.natCast_inj] at hpattern
    refine ⟨Int64.ofNat k, ⟨by omega, by omega⟩, hvalue, ?_⟩
    rwa [IntegerForm.octets, hpattern]
  | int8 =>
    obtain ⟨i, hvalue, hfits, htaken⟩ := Reader.signedBig_ok (by decide) h
    exact ⟨i, hfits, hvalue, htaken⟩
  | int16 =>
    obtain ⟨i, hvalue, hfits, htaken⟩ := Reader.signedBig_ok (by decide) h
    exact ⟨i, hfits, hvalue, htaken⟩
  | int32 =>
    obtain ⟨i, hvalue, hfits, htaken⟩ := Reader.signedBig_ok (by decide) h
    exact ⟨i, hfits, hvalue, htaken⟩
  | int64 =>
    obtain ⟨i, hvalue, hfits, htaken⟩ := Reader.signedBig_ok (by decide) h
    exact ⟨i, hfits, hvalue, htaken⟩

theorem integer_ok {n : Int} (h : integer b c = .ok n c') :
    ∃ form, Marker.ofOctet? b = some (.integer form) ∧ integerOf form c = .ok n c' := by
  have hfails : ∀ {defect},
      (do Reader.malformed (← Reader.offset) defect : Reader Int) c ≠ .ok n c' := by
    intro defect hok
    obtain ⟨_, _, _, hfailed⟩ := Steps.bind_eq_ok_iff.mp hok
    cases hfailed
  unfold integer at h
  cases hform : Marker.ofOctet? b with
  | none =>
    rw [hform] at h
    exact absurd h hfails
  | some m =>
    rw [hform] at h
    cases m with
    | integer form => exact ⟨form, rfl, h⟩
    | _ => exact absurd h hfails

theorem length_ok (h : length c = .ok n c') : ∃ bytes, SpellsLength n bytes ∧ c.Takes bytes c' := by
  obtain ⟨offset, c₁, hoffset, h⟩ := Steps.bind_eq_ok_iff.mp h
  obtain ⟨rfl, rfl⟩ := Reader.offset_ok hoffset
  obtain ⟨b, c₂, hmarker, h⟩ := Steps.bind_eq_ok_iff.mp h
  obtain ⟨k, htaken⟩ := marker_ok hmarker
  obtain ⟨n, c₃, hinteger, h⟩ := Steps.bind_eq_ok_iff.mp h
  obtain ⟨form, hform, hpayload⟩ := integer_ok hinteger
  obtain ⟨i, hholds, rfl, hoctets⟩ := integerOf_ok hpayload
  split at h
  · cases h
  · rename_i hpositive
    cases h
    refine ⟨_, .intro k hholds (Int.toNat_of_nonneg (by omega)).symm, ?_⟩
    rw [led, Marker.octet_of_ofOctet? hform]
    exact htaken.trans hoctets

theorem text_ok {octets : Bytes} (h : text c = .ok octets c') :
    ∃ bytes, SpellsText octets bytes ∧ c.Takes bytes c' := by
  obtain ⟨offset, c₁, hoffset, h⟩ := Steps.bind_eq_ok_iff.mp h
  obtain ⟨rfl, rfl⟩ := Reader.offset_ok hoffset
  obtain ⟨n, c₂, hread, h⟩ := Steps.bind_eq_ok_iff.mp h
  obtain ⟨length, hspells, hlength⟩ := length_ok hread
  obtain ⟨octets', c₃, htake, hvalid⟩ := Steps.bind_eq_ok_iff.mp h
  obtain ⟨rfl, htaken⟩ := Reader.take_ok htake
  cases hfault : Utf8.fault? octets' with
  | none =>
    rw [hfault] at hvalid
    cases hvalid
    have hvalid : Utf8.isValid octets = true := by rw [Utf8.isValid, hfault]; rfl
    exact ⟨_, .intro hvalid hspells, hlength.trans htaken⟩
  | some fault =>
    rw [hfault] at hvalid
    cases hvalid

/-! ## Heads -/

theorem SpellsCount.padded (h : SpellsCount n bytes) (k : Nat) :
    SpellsCount n (noops k ++ bytes) := by
  obtain @⟨length, idle, hlength⟩ := h
  rw [← List.append_assoc, noops_led]
  exact .intro _ hlength

theorem entryCount_ok {count : Option UInt32} (h : entryCount c = .ok count c') :
    (count = none ∧ ∃ k, c.Takes (noops k) c') ∨
      ∃ n bytes, count = some n ∧ SpellsCount n.toNat bytes ∧ c.Takes bytes c' := by
  obtain ⟨b, c₁, hpeek, h⟩ := Steps.bind_eq_ok_iff.mp h
  obtain ⟨k, rest, htaken, hrest, -⟩ := peekMarker_ok hpeek
  split at h
  · rename_i hcount
    obtain ⟨_, c₂, hskip, h⟩ := Steps.bind_eq_ok_iff.mp h
    have hoctet := skip_ok hrest hskip
    obtain ⟨offset, c₃, hoffset, h⟩ := Steps.bind_eq_ok_iff.mp h
    obtain ⟨rfl, rfl⟩ := Reader.offset_ok hoffset
    obtain ⟨n, c₄, hlength, h⟩ := Steps.bind_eq_ok_iff.mp h
    obtain ⟨length, hspells, hlength⟩ := length_ok hlength
    split at h
    · rename_i hn
      cases h
      refine .inr ⟨_, _, rfl, .intro k ?_, (htaken.trans (hcount ▸ hoctet)).trans hlength⟩
      rwa [Folder.toNat_length hn]
    · cases h
  · cases h
    exact .inl ⟨rfl, k, htaken⟩

/-- What follows a declared octet is a count. -/
theorem sharedMarker_ok {declared : Option UInt8} (h : sharedMarker c = .ok declared c') :
    (declared = none ∧ ∃ k, c.Takes (noops k) c') ∨
      ∃ b j k rest, declared = some b ∧ isDeclarable b = true ∧
        c.Takes (led j .sharedType ++ b :: noops k) c' ∧ c'.rest = Marker.count.octet :: rest := by
  obtain ⟨b, c₁, hpeek, h⟩ := Steps.bind_eq_ok_iff.mp h
  obtain ⟨j, rest, htaken, hrest, -⟩ := peekMarker_ok hpeek
  split at h
  · rename_i htype
    obtain ⟨_, c₂, hskip, h⟩ := Steps.bind_eq_ok_iff.mp h
    have hskipped := skip_ok hrest hskip
    obtain ⟨offset, c₃, hoffset, h⟩ := Steps.bind_eq_ok_iff.mp h
    obtain ⟨rfl, rfl⟩ := Reader.offset_ok hoffset
    obtain ⟨b, c₄, hoctet, h⟩ := Steps.bind_eq_ok_iff.mp h
    split at h
    · rename_i hdeclarable
      obtain ⟨b', c₅, hpeek, h⟩ := Steps.bind_eq_ok_iff.mp h
      obtain ⟨k, rest, hnoops, hrest, -⟩ := peekMarker_ok hpeek
      split at h
      · rename_i hcount
        cases h
        refine .inr ⟨b, j, k, rest, rfl, hdeclarable, ?_, hcount ▸ hrest⟩
        exact (htaken.trans (htype ▸ hskipped)).trans ((Reader.octet_ok hoctet).trans hnoops)
      · obtain ⟨_, _, _, hfailed⟩ := Steps.bind_eq_ok_iff.mp h
        cases hfailed
    · cases h
  · cases h
    exact .inl ⟨rfl, j, htaken⟩

/-- A head says how many entries there are, or nothing. -/
theorem heading_ok {heading : Heading} (h : Ubjson.heading c = .ok heading c') :
    (heading = ⟨none, none⟩ ∧ ∃ k, c.Takes (noops k) c') ∨
      ∃ n bytes, heading.count = some n ∧ SpellsHeading n.toNat heading.shared bytes ∧
        (∀ b ∈ heading.shared, isDeclarable b = true) ∧ c.Takes bytes c' := by
  obtain ⟨declared, c₁, hshared, h⟩ := Steps.bind_eq_ok_iff.mp h
  obtain ⟨count, c₂, hcount, h⟩ := Steps.bind_eq_ok_iff.mp h
  cases h
  rcases sharedMarker_ok hshared with
    ⟨rfl, j, htaken⟩ | ⟨b, j, k, rest, rfl, hdeclarable, htaken, hrest⟩
  · rcases entryCount_ok hcount with ⟨rfl, k, hnoops⟩ | ⟨n, bytes, rfl, hspells, hbytes⟩
    · exact .inl ⟨rfl, j + k, noops_add j k ▸ htaken.trans hnoops⟩
    · exact .inr ⟨n, _, rfl, .counted (hspells.padded j), nofun, htaken.trans hbytes⟩
  · rcases entryCount_ok hcount with ⟨rfl, -⟩ | ⟨n, bytes, rfl, hspells, hbytes⟩
    · -- the count was seen before, so it is found
      obtain ⟨offset, octets⟩ := c₁
      subst hrest
      have hpeek := peekMarker_eq (begins_octet (m := .count) Marker.noConfusion rest) offset
      rw [entryCount, Steps.bind_ok hpeek, if_pos rfl] at hcount
      obtain ⟨_, _, _, hcount⟩ := Steps.bind_eq_ok_iff.mp hcount
      obtain ⟨_, _, _, hcount⟩ := Steps.bind_eq_ok_iff.mp hcount
      obtain ⟨_, _, _, hcount⟩ := Steps.bind_eq_ok_iff.mp hcount
      split at hcount <;> cases hcount
    · have hdeclared : ∀ b' ∈ some b, isDeclarable b' = true := by
        rintro b' ⟨⟩
        exact hdeclarable
      refine .inr ⟨n, _, rfl, .typed j (hspells.padded k), hdeclared, ?_⟩
      have htogether := htaken.trans hbytes
      rwa [List.append_assoc, List.cons_append] at htogether

/-! ## Going over octets -/

/-- From one state to another a decoder has gone over octets and handed events over. -/
structure Moves (d : Decoding Cursor) (bytes : Bytes) (es : List Event) (d' : Decoding Cursor) :
    Prop where
  takes : d.input.Takes bytes d'.input
  events : Folding.events es d.folder = .ok () d'.folder

namespace Moves

variable {f f' : Folder} {e : Event}

theorem refl (d : Decoding Cursor) : Moves d [] [] d := ⟨.refl _, rfl⟩

theorem trans (h : Moves d bytes es d') (h' : Moves d' more fs d'') :
    Moves d (bytes ++ more) (es ++ fs) d'' where
  takes := h.takes.trans h'.takes
  events := (Folding.events_append h.events).trans h'.events

theorem read (h : c.Takes bytes c') : Moves ⟨c, f⟩ bytes [] ⟨c', f⟩ := ⟨h, rfl⟩

theorem read_then (h : c.Takes bytes c') (hnext : Moves ⟨c', f⟩ more es d') :
    Moves ⟨c, f⟩ (bytes ++ more) es d' := (read h).trans hnext

theorem fold (h : Folding.event e f = .ok () f') : Moves ⟨c, f⟩ [] [e] ⟨c, f'⟩ :=
  ⟨.refl _, Folding.events_singleton h⟩

theorem fold_then (h : Folding.event e f = .ok () f') (hnext : Moves ⟨c, f'⟩ bytes es d') :
    Moves ⟨c, f⟩ bytes (e :: es) d' := (fold h).trans hnext

theorem then_fold (h : Moves d bytes es ⟨c, f⟩) (hlast : Folding.event e f = .ok () f') :
    Moves d bytes (es ++ [e]) ⟨c, f'⟩ := by
  have htogether := h.trans (fold hlast)
  rwa [List.append_nil] at htogether

end Moves

/-! ## Entries -/

/-- Where a step for what a marker announces succeeds, it has gone over a tree. -/
structure Understands (limit depth : Nat) (payload : UInt8 → Nat → Decoder Cursor Unit) : Prop where
  spells : ∀ {b offset d d'}, d.folder.Stands limit depth → payload b offset d = .ok () d' →
    ∃ m t bytes es, m.octet = b ∧ SpellsPayload .accepted m t bytes ∧ Traversal t es ∧
      Moves d bytes es d'
  stands : ∀ {b offset d d'}, d.folder.Stands limit depth → payload b offset d = .ok () d' →
    d'.folder.Stands limit depth

/-- A key, if there is one, and a tree. -/
structure Entered (shared : Option Marker) (shape : Shape) (limit depth : Nat)
    (d : Decoding Cursor) (kv : Bytes × Tree) (head bytes : Bytes) (es : List Event)
    (d' : Decoding Cursor) : Prop where
  key : SpellsKey shape kv.1 head
  value : Spells .accepted shared kv.2 bytes
  traversal : Traversal kv.2 es
  moves : Moves d (head ++ bytes) (keyEvents shape kv.1 ++ es) d'
  stands : d'.folder.Stands limit depth

/-- An entry that brings its own marker leaves less than there was. -/
theorem Entered.rest_lt {kv : Bytes × Tree}
    (h : Entered none shape limit depth d kv head bytes es d') :
    d'.input.rest.length < d.input.rest.length := by
  have hpos := h.value.pos nofun
  rw [h.moves.takes.1, List.length_append, List.length_append]
  omega

namespace Understands

variable {payload : UInt8 → Nat → Decoder Cursor Unit}

theorem value (h : Understands limit depth payload) (hd : d.folder.Stands limit depth)
    (hok : valueStep payload shared d = .ok () d') :
    ∃ t bytes es, Spells .accepted shared t bytes ∧ Traversal t es ∧ Moves d bytes es d' ∧
      d'.folder.Stands limit depth := by
  obtain ⟨c, f⟩ := d
  cases shared with
  | none =>
    obtain ⟨offset, d₁, hoffset, hok⟩ := Steps.bind_eq_ok_iff.mp hok
    cases hoffset
    obtain ⟨b, d₂, hread, hok⟩ := Steps.bind_eq_ok_iff.mp hok
    obtain ⟨c₁, hmarker, rfl⟩ := Decoder.reading_eq_ok_iff.mp hread
    obtain ⟨k, htaken⟩ := marker_ok hmarker
    obtain ⟨m, t, bytes, es, rfl, hspells, htraversal, hmoves⟩ := h.spells (d := ⟨c₁, f⟩) hd hok
    exact ⟨t, _, es, .marked k hspells, htraversal, .read_then htaken hmoves,
      h.stands (d := ⟨c₁, f⟩) hd hok⟩
  | some m =>
    obtain ⟨offset, d₁, hoffset, hok⟩ := Steps.bind_eq_ok_iff.mp hok
    cases hoffset
    obtain ⟨m', t, bytes, es, hoctet, hspells, htraversal, hmoves⟩ := h.spells hd hok
    obtain rfl := octet_inj hoctet
    exact ⟨t, bytes, es, .bare hspells, htraversal, hmoves, h.stands hd hok⟩

theorem entry (h : Understands limit depth payload) (hd : d.folder.Stands limit depth)
    (hok : Ubjson.entry shape (valueStep payload shared) d = .ok () d') :
    ∃ kv head bytes es, Entered shared shape limit depth d kv head bytes es d' := by
  cases shape with
  | list =>
    obtain ⟨t, bytes, es, hspells, htraversal, hmoves, hstands⟩ := h.value hd hok
    exact ⟨([], t), [], bytes, es, .item [], hspells, htraversal, hmoves, hstands⟩
  | map =>
    obtain ⟨c, f⟩ := d
    obtain ⟨key, d₁, hread, hok⟩ := Steps.bind_eq_ok_iff.mp hok
    obtain ⟨c₁, htext, rfl⟩ := Decoder.reading_eq_ok_iff.mp hread
    obtain ⟨head, hkey, htaken⟩ := text_ok htext
    obtain ⟨_, d₂, hfold, hok⟩ := Steps.bind_eq_ok_iff.mp hok
    obtain ⟨f₁, hevent, rfl⟩ := Decoder.fold_eq_ok_iff.mp hfold
    obtain ⟨t, bytes, es, hspells, htraversal, hmoves, hstands⟩ :=
      h.value (d := ⟨c₁, f₁⟩) (Folding.key_stands (f := f) hd hevent) hok
    exact ⟨(key, t), head, bytes, es, .key hkey, hspells, htraversal,
      .read_then htaken (.fold_then hevent hmoves), hstands⟩

/-- Rounds that were counted have gone over as many entries. -/
theorem times (h : Understands limit depth payload) (hd : d.folder.Stands limit depth)
    (hok : Loop.times (Ubjson.entry shape (valueStep payload shared)) n d = .ok () d') :
    ∃ entries bytes es, entries.length = n ∧ SpellsEntries .accepted shared shape entries bytes ∧
      EntriesTraversal shape entries es ∧ Moves d bytes es d' ∧ d'.folder.Stands limit depth := by
  induction n generalizing d with
  | zero =>
    cases hok
    exact ⟨[], [], [], rfl, .nil, .nil, .refl _, hd⟩
  | succ n ih =>
    obtain ⟨_, d₁, hentry, hok⟩ := Steps.bind_eq_ok_iff.mp hok
    obtain ⟨kv, head, bytes, es, hentered⟩ := h.entry hd hentry
    obtain ⟨entries, content, fs, rfl, hspells, htraversal, hmoves, hstands⟩ :=
      ih hentered.stands hok
    exact ⟨kv :: entries, _, _, rfl, .cons hentered.key hentered.value hspells,
      .cons hentered.traversal htraversal, hentered.moves.trans hmoves, hstands⟩

end Understands

/-- No-ops before an entry that brings its own marker belong to the entry. -/
theorem Spells.padded {rules : Rules} (hkey : SpellsKey shape key head)
    (h : Spells rules none t bytes) (k : Nat) :
    ∃ head' bytes', noops k ++ (head ++ bytes) = head' ++ bytes' ∧ SpellsKey shape key head' ∧
      Spells rules none t bytes' := by
  cases hkey with
  | item key =>
    obtain @⟨m, t, payload, idle, hpayload⟩ := h
    refine ⟨[], _, ?_, .item key, .marked (k + idle) hpayload⟩
    rw [List.nil_append, ← List.append_assoc, noops_led]
    rfl
  | key htext =>
    obtain ⟨hvalid, hlength⟩ := htext
    obtain @⟨form, i, idle, hholds, hvalue⟩ := hlength
    refine ⟨_, bytes, ?_, .key ⟨hvalid, .intro (k + idle) hholds hvalue⟩, h⟩
    rw [← noops_led, List.append_assoc, List.append_assoc, List.append_assoc, List.append_assoc,
      List.append_assoc]

namespace Understands

variable {payload : UInt8 → Nat → Decoder Cursor Unit}

theorem closedRound (h : Understands limit depth payload) (hd : d.folder.Stands limit depth)
    {round : Nat} {goesOn : Bool} (hok : Ubjson.closedRound shape payload round d = .ok goesOn d') :
    (goesOn = false ∧ d'.folder.Stands limit depth ∧
        ∃ k, Moves d (led k (endMarker shape)) [] d') ∨
      (goesOn = true ∧
        ∃ kv head bytes es, Entered none shape limit depth d kv head bytes es d') := by
  obtain ⟨c, f⟩ := d
  obtain ⟨b, d₁, hread, hok⟩ := Steps.bind_eq_ok_iff.mp hok
  obtain ⟨c₁, hpeek, rfl⟩ := Decoder.reading_eq_ok_iff.mp hread
  obtain ⟨k, rest, htaken, hrest, -⟩ := peekMarker_ok hpeek
  split at hok
  · rename_i hend
    obtain ⟨_, d₂, hread, hok⟩ := Steps.bind_eq_ok_iff.mp hok
    obtain ⟨c₂, hskip, rfl⟩ := Decoder.reading_eq_ok_iff.mp hread
    cases hok
    refine .inl ⟨rfl, hd, k, .read ?_⟩
    rw [led, octet_endMarker, ← hend]
    exact htaken.trans (skip_ok hrest hskip)
  · obtain ⟨_, d₂, hentry, hok⟩ := Steps.bind_eq_ok_iff.mp hok
    cases hok
    have hvalue : Ubjson.entry shape (valueStep payload none) ⟨c₁, f⟩ = .ok () d' := hentry
    obtain ⟨kv, head, bytes, es, hentered⟩ := h.entry (d := ⟨c₁, f⟩) hd hvalue
    obtain ⟨head', bytes', heq, hkey, hvalue⟩ := hentered.value.padded hentered.key k
    refine .inr ⟨rfl, kv, head', bytes', es, hkey, hvalue, hentered.traversal, ?_, hentered.stands⟩
    rw [← heq]
    exact .read_then htaken hentered.moves

/-- Rounds up to a closing marker have gone over entries and the marker. -/
theorem rounds {ρ : Type} {room : List ρ} {round : Nat} (h : Understands limit depth payload)
    (hd : d.folder.Stands limit depth) (hroom : d.input.rest.length ≤ room.length)
    (hok : Loop.rounds (Ubjson.closedRound shape payload) round room d = .ok () d') :
    ∃ entries bytes k es, SpellsEntries .accepted none shape entries bytes ∧
      EntriesTraversal shape entries es ∧ Moves d (bytes ++ led k (endMarker shape)) es d' ∧
      d'.folder.Stands limit depth := by
  induction room generalizing d round with
  | nil =>
    obtain ⟨goesOn, d₁, hround, hok⟩ := Steps.bind_eq_ok_iff.mp hok
    cases hok
    rcases h.closedRound hd hround with
      ⟨rfl, hstands, k, hmoves⟩ | ⟨rfl, kv, head, bytes, es, hentered⟩
    · exact ⟨[], [], k, [], .nil, .nil, hmoves, hstands⟩
    · -- there is room for a round as long as there is an octet left
      have hlt := hentered.rest_lt
      rw [List.length_nil] at hroom
      omega
  | cons _ room ih =>
    obtain ⟨goesOn, d₁, hround, hok⟩ := Steps.bind_eq_ok_iff.mp hok
    rcases h.closedRound hd hround with
      ⟨rfl, hstands, k, hmoves⟩ | ⟨rfl, kv, head, bytes, es, hentered⟩
    · cases hok
      exact ⟨[], [], k, [], .nil, .nil, hmoves, hstands⟩
    · have hlt := hentered.rest_lt
      rw [List.length_cons] at hroom
      obtain ⟨entries, content, k, fs, hspells, htraversal, hmoves, hstands⟩ :=
        ih hentered.stands (by omega) hok
      refine ⟨kv :: entries, _, k, _, .cons hentered.key hentered.value hspells,
        .cons hentered.traversal htraversal, ?_, hstands⟩
      rw [List.append_assoc]
      exact hentered.moves.trans hmoves

/-- A container that says nothing of its entries, with the no-ops that were before them. -/
theorem closed (h : Understands limit depth payload) (hd : d.folder.Stands limit depth)
    (hok : Ubjson.entries shape ⟨none, none⟩ payload d = .ok () d') :
    ∃ entries bytes es, (∀ k, SpellsContent .accepted shape entries (noops k ++ bytes)) ∧
      EntriesTraversal shape entries es ∧ Moves d bytes es d' ∧ d'.folder.Stands limit depth := by
  rw [entries_closed] at hok
  obtain ⟨room, d₁, hrest, hok⟩ := Steps.bind_eq_ok_iff.mp hok
  cases hrest
  obtain ⟨entries, bytes, k, es, hspells, htraversal, hmoves, hstands⟩ :=
    h.rounds hd (Nat.le_refl _) hok
  refine ⟨entries, _, es, fun j => ?_, htraversal, hmoves, hstands⟩
  rw [← List.append_assoc]
  cases hspells with
  | nil =>
    rw [List.append_nil, noops_led]
    exact .closed (j + k) .nil
  | @cons _ _ key head bytes content t entries hkey hvalue hentries =>
    obtain ⟨head', bytes', heq, hkey', hvalue'⟩ := hvalue.padded hkey j
    rw [← List.append_assoc, heq]
    exact .closed k (.cons hkey' hvalue' hentries)

/-- The octet that an entry was read with is a marker. -/
theorem declares (h : Understands limit depth payload) (hd : d.folder.Stands limit depth)
    (hok : Ubjson.entry shape (do payload b (← Decoder.read Reader.offset)) d = .ok () d') :
    ∃ m : Marker, m.octet = b := by
  have hvalue : ∀ {d : Decoding Cursor}, d.folder.Stands limit depth →
      (do payload b (← Decoder.read Reader.offset) : Decoder Cursor Unit) d = .ok () d' →
      ∃ m : Marker, m.octet = b := by
    intro d hd hok
    obtain ⟨offset, d₁, hoffset, hok⟩ := Steps.bind_eq_ok_iff.mp hok
    cases hoffset
    obtain ⟨m, -, -, -, hoctet, -⟩ := h.spells (d := ⟨d.input, d.folder⟩) hd hok
    exact ⟨m, hoctet⟩
  cases shape with
  | list => exact hvalue hd hok
  | map =>
    obtain ⟨key, d₁, hread, hok⟩ := Steps.bind_eq_ok_iff.mp hok
    obtain ⟨c, -, rfl⟩ := Decoder.reading_eq_ok_iff.mp hread
    obtain ⟨_, d₂, hfold, hok⟩ := Steps.bind_eq_ok_iff.mp hok
    obtain ⟨f, hevent, rfl⟩ := Decoder.fold_eq_ok_iff.mp hfold
    exact hvalue (d := ⟨c, f⟩) (Folding.key_stands (f := d.folder) hd hevent) hok

/-- An octet that is no marker can be declared as long as nothing has to be read with it. -/
theorem idle (h : Understands limit depth payload) (hd : d.folder.Stands limit depth)
    (hmarker : Marker.ofOctet? b = none)
    (hok : Loop.times (Ubjson.entry shape (do payload b (← Decoder.read Reader.offset))) n d =
      .ok () d') : n = 0 := by
  cases n with
  | zero => rfl
  | succ n =>
    obtain ⟨_, d₁, hentry, -⟩ := Steps.bind_eq_ok_iff.mp hok
    obtain ⟨m, rfl⟩ := h.declares hd hentry
    rw [Marker.ofOctet?_octet] at hmarker
    cases hmarker

/-- A container whose head says how many entries there are, and maybe which marker they share. -/
theorem counted {declared : Option UInt8} {count : UInt32} (h : Understands limit depth payload)
    (hd : d.folder.Stands limit depth) (hdeclared : ∀ b ∈ declared, isDeclarable b = true)
    (hhead : SpellsHeading count.toNat declared head)
    (hok : Ubjson.entries shape ⟨declared, some count⟩ payload d = .ok () d') :
    ∃ entries bytes es, entries.length = count.toNat ∧
      SpellsContent .accepted shape entries (head ++ bytes) ∧ EntriesTraversal shape entries es ∧
      Moves d bytes es d' ∧ d'.folder.Stands limit depth := by
  obtain ⟨c, f⟩ := d
  obtain ⟨_, d₁, hread, hok⟩ := Steps.bind_eq_ok_iff.mp hok
  obtain ⟨c₁, hneed, rfl⟩ := Decoder.reading_eq_ok_iff.mp hread
  obtain rfl : c₁ = c := (Reader.need_eq_ok_iff.mp hneed).2
  -- entries that share a known marker, or none
  have hknown : ∀ shared : Option Marker, shared.map Marker.octet = declared →
      (∀ m ∈ shared, m.isShareable = true) →
      Loop.times (Ubjson.entry shape (valueStep payload shared)) count.toNat ⟨c₁, f⟩ = .ok () d' →
      ∃ entries bytes es, entries.length = count.toNat ∧
        SpellsContent .accepted shape entries (head ++ bytes) ∧ EntriesTraversal shape entries es ∧
        Moves ⟨c₁, f⟩ bytes es d' ∧ d'.folder.Stands limit depth := by
    rintro shared rfl hshareable hok
    obtain ⟨entries, bytes, es, hlength, hspells, htraversal, hmoves, hstands⟩ := h.times hd hok
    exact ⟨entries, bytes, es, hlength, .counted hshareable (hlength ▸ hhead) hspells, htraversal,
      hmoves, hstands⟩
  cases declared with
  | none => exact hknown none rfl nofun hok
  | some b =>
    cases hmarker : Marker.ofOctet? b with
    | some m =>
      obtain rfl := Marker.octet_of_ofOctet? hmarker
      refine hknown (some m) rfl ?_ hok
      rintro m' ⟨⟩
      have hdeclarable := hdeclared m.octet rfl
      rwa [isDeclarable, Marker.ofOctet?_octet] at hdeclarable
    | none =>
      have hcount : count.toNat = 0 := h.idle hd hmarker hok
      dsimp only at hok
      rw [hcount] at hok hhead
      cases hok
      refine ⟨[], [], [], hcount.symm, ?_, .nil, .refl _, hd⟩
      rw [List.append_nil]
      exact .unknown (hdeclared b rfl) hhead

end Understands

/-! ## Trees -/

/-- A container is opened only where there is a level left, and is gone over to its end. -/
theorem container_ok {levels : Nat} (hlimit : limit = depth + levels)
    (hpayload : ∀ {below}, levels = below + 1 → Understands limit (depth + 1) (foldMarked below))
    (hd : d.folder.Stands limit depth) (hok : container levels shape d = .ok () d') :
    ∃ entries bytes es, SpellsContent .accepted shape entries bytes ∧
      Traversal (treeOf shape entries) es ∧ Moves d bytes es d' := by
  obtain ⟨c, f⟩ := d
  obtain ⟨heading, d₁, hread, hok⟩ := Steps.bind_eq_ok_iff.mp hok
  obtain ⟨c₁, hheading, rfl⟩ := Decoder.reading_eq_ok_iff.mp hread
  obtain ⟨_, d₂, hfold, hok⟩ := Steps.bind_eq_ok_iff.mp hok
  have hbegun := (beginEvent_brings heading.count).after (d := ⟨c₁, f⟩) hd hfold
  obtain ⟨f₁, hbegin, rfl⟩ := Decoder.fold_eq_ok_iff.mp hfold
  cases levels with
  | zero => exact absurd hbegun.1 (by omega)
  | succ below =>
    have hinside := hpayload rfl
    obtain ⟨_, d₃, hentries, hlast⟩ := Steps.bind_eq_ok_iff.mp hok
    obtain ⟨f₃, hend, rfl⟩ := Decoder.fold_eq_ok_iff.mp hlast
    rcases heading_ok hheading with
      ⟨rfl, k, htaken⟩ | ⟨count, head, hcount, hhead, hdeclared, htaken⟩
    · obtain ⟨entries, bytes, es, hspells, htraversal, hmoves, -⟩ :=
        hinside.closed (d := ⟨c₁, f₁⟩) hbegun.2 hentries
      have htree : Traversal (treeOf shape entries)
          (beginEvent shape none :: (es ++ [endEvent shape])) := htraversal.container nofun
      exact ⟨entries, _, _, hspells k, htree,
        .read_then htaken (.fold_then hbegin (hmoves.then_fold hend))⟩
    · obtain ⟨declared, count'⟩ := heading
      obtain rfl : count' = some count := hcount
      obtain ⟨entries, bytes, es, hlength, hspells, htraversal, hmoves, -⟩ :=
        hinside.counted (d := ⟨c₁, f₁⟩) hbegun.2 hdeclared hhead hentries
      refine ⟨entries, _, _, hspells, htraversal.container ?_,
        .read_then htaken (.fold_then hbegin (hmoves.then_fold hend))⟩
      rintro _ ⟨⟩
      exact hlength.symm

/-- A payload that is read and handed over as one event. -/
theorem payload_ok {α : Type} {reader : Reader α} {e : α → Event}
    (hok : (do Decoder.fold (e (← Decoder.read reader)) : Decoder Cursor Unit) d = .ok () d') :
    ∃ a c, reader d.input = .ok a c ∧
      ∀ {bytes}, d.input.Takes bytes c → Moves d bytes [e a] d' := by
  obtain ⟨c, f⟩ := d
  obtain ⟨a, d₁, hfirst, hlast⟩ := Steps.bind_eq_ok_iff.mp hok
  obtain ⟨c₁, hread, rfl⟩ := Decoder.reading_eq_ok_iff.mp hfirst
  obtain ⟨f₁, hevent, rfl⟩ := Decoder.fold_eq_ok_iff.mp hlast
  refine ⟨a, c₁, hread, fun {bytes} htaken => ?_⟩
  have hmoves := Moves.read_then htaken (Moves.fold hevent)
  rwa [List.append_nil] at hmoves

/-- What a marker announces has been gone over, if that is so of containers. -/
theorem foldMarked_spells {levels offset : Nat}
    (hcontainer : ∀ {shape}, container levels shape d = .ok () d' →
      ∃ entries bytes es, SpellsContent .accepted shape entries bytes ∧
        Traversal (treeOf shape entries) es ∧ Moves d bytes es d')
    (hok : foldMarked levels b offset d = .ok () d') :
    ∃ m t bytes es, m.octet = b ∧ SpellsPayload .accepted m t bytes ∧ Traversal t es ∧
      Moves d bytes es d' := by
  have hscalar : ∀ {e : Event}, (Decoder.fold e : Decoder Cursor Unit) d = .ok () d' →
      Moves d [] [e] d' := by
    intro e hfold
    obtain ⟨f, hevent, rfl⟩ := Decoder.fold_eq_ok_iff.mp hfold
    exact .fold hevent
  cases hmarker : Marker.ofOctet? b with
  | none =>
    rw [foldMarked.eq_def, hmarker] at hok
    cases hok
  | some m =>
    obtain rfl := Marker.octet_of_ofOctet? hmarker
    cases m with
    | listStart =>
      rw [foldMarked_list] at hok
      obtain ⟨entries, bytes, es, hspells, htraversal, hmoves⟩ := hcontainer hok
      exact ⟨_, _, bytes, es, rfl, .list hspells, htraversal, hmoves⟩
    | mapStart =>
      rw [foldMarked_map] at hok
      obtain ⟨entries, bytes, es, hspells, htraversal, hmoves⟩ := hcontainer hok
      exact ⟨_, _, bytes, es, rfl, .map hspells, htraversal, hmoves⟩
    | null =>
      rw [foldMarked.eq_def, hmarker] at hok
      exact ⟨_, _, _, _, rfl, .null, .null, hscalar hok⟩
    | yes =>
      rw [foldMarked.eq_def, hmarker] at hok
      exact ⟨_, _, _, _, rfl, .yes, .bool true, hscalar hok⟩
    | no =>
      rw [foldMarked.eq_def, hmarker] at hok
      exact ⟨_, _, _, _, rfl, .no, .bool false, hscalar hok⟩
    | integer form =>
      rw [foldMarked.eq_def, hmarker] at hok
      obtain ⟨n, c, hread, hmoves⟩ := payload_ok (e := fun n : Int => .int (Int64.ofInt n)) hok
      obtain ⟨i, hholds, rfl, htaken⟩ := integerOf_ok hread
      have hback := hmoves htaken
      rw [Int64.ofInt_toInt] at hback
      exact ⟨_, _, _, _, rfl, .int hholds, .int i, hback⟩
    | single =>
      rw [foldMarked.eq_def, hmarker] at hok
      obtain ⟨n, c, hread, hmoves⟩ := payload_ok (e := fun n : Nat => .single n.toUInt32) hok
      obtain ⟨hlt, htaken⟩ := Reader.big_ok hread
      have hback : n.toUInt32.toNat = n := Bytes.toNat_word (Nat.le_refl 4) hlt
      rw [← hback] at htaken
      exact ⟨_, _, _, _, rfl, .single n.toUInt32, .single n.toUInt32, hmoves htaken⟩
    | double =>
      rw [foldMarked.eq_def, hmarker] at hok
      obtain ⟨n, c, hread, hmoves⟩ := payload_ok (e := fun n : Nat => .double n.toUInt64) hok
      obtain ⟨hlt, htaken⟩ := Reader.big_ok hread
      have hback : n.toUInt64.toNat = n := Bytes.toNat_wide (Nat.le_refl 8) hlt
      rw [← hback] at htaken
      exact ⟨_, _, _, _, rfl, .double n.toUInt64, .double n.toUInt64, hmoves htaken⟩
    | character =>
      rw [foldMarked.eq_def, hmarker] at hok
      obtain ⟨octets, c, hread, hmoves⟩ := payload_ok (e := Event.text) hok
      obtain ⟨hlength, htaken⟩ := Reader.take_ok hread
      obtain ⟨b, rfl⟩ := List.length_eq_one_iff.mp hlength
      exact ⟨_, _, _, _, rfl, .character trivial, .text [b], hmoves htaken⟩
    | text =>
      rw [foldMarked.eq_def, hmarker] at hok
      obtain ⟨octets, c, hread, hmoves⟩ := payload_ok (e := Event.text) hok
      obtain ⟨bytes, htext, htaken⟩ := text_ok hread
      exact ⟨_, _, _, _, rfl, .text htext, .text octets, hmoves htaken⟩
    | _ =>
      rw [foldMarked.eq_def, hmarker] at hok
      cases hok

theorem foldMarked_understands_of {levels : Nat} (hlimit : limit = depth + levels)
    (hpayload : ∀ {below}, levels = below + 1 → Understands limit (depth + 1) (foldMarked below)) :
    Understands limit depth (foldMarked levels) where
  spells hd hok := foldMarked_spells (container_ok hlimit hpayload hd) hok
  stands {b offset _ _} hd hok :=
    (((foldMarked_announced levels b offset).brings (body_brings hlimit)).after hd hok).toStands

/-- **Behind a marker, whatever is handed over to its end is a tree.** -/
theorem foldMarked_understands {levels : Nat} (hlimit : limit = depth + levels) :
    Understands limit depth (foldMarked levels) := by
  induction levels generalizing depth with
  | zero => exact foldMarked_understands_of hlimit nofun
  | succ levels ih =>
    refine foldMarked_understands_of hlimit ?_
    rintro below ⟨⟩
    exact ih (by omega)

/-! ## Whole inputs -/

/-- **An input that is accepted spells a tree, and was handed over as a traversal of it.** -/
theorem decode_spells {input : Bytes} {o : FoldOptions} {digest : Digest}
    (hok : decode input o = .ok digest) :
    ∃ t es, Spells .accepted none t input ∧ Traversal t es ∧
      foldEvents .decode es o = .ok digest := by
  rw [decode, Decoder.run] at hok
  split at hok
  · rename_i digest' d hdecode
    cases hok
    obtain ⟨_, d₁, hfold, hlast⟩ := Steps.bind_eq_ok_iff.mp hdecode
    obtain ⟨_, d₂, hread, hfinish⟩ := Steps.bind_eq_ok_iff.mp hlast
    obtain ⟨c, hfinished, rfl⟩ := Decoder.reading_eq_ok_iff.mp hread
    obtain ⟨hend, rfl⟩ := Reader.finished_ok hfinished
    have hlimit : o.depthLimit = 0 + o.depthLimit := (Nat.zero_add _).symm
    have hvalue : valueStep (foldMarked o.depthLimit) none
        ⟨Cursor.start input, .start .decode o⟩ = .ok () d₁ := hfold
    obtain ⟨t, bytes, es, hspells, htraversal, hmoves, -⟩ :=
      (foldMarked_understands hlimit).value (d := ⟨_, _⟩) (Folder.stands_start o) hvalue
    obtain rfl := hmoves.takes.whole hend
    refine ⟨t, es, hspells, htraversal, ?_⟩
    have hevents : Folding.events es (.start .decode o) = .ok () d₁.folder := hmoves.events
    rw [foldEvents, hevents]
    obtain ⟨d₂, d₃, hget, hanswer⟩ := Steps.bind_eq_ok_iff.mp hfinish
    cases hget
    dsimp only at hanswer ⊢
    cases hdigest : d₁.folder.finish with
    | ok digest =>
      rw [hdigest] at hanswer
      cases hanswer
      rfl
    | error e =>
      rw [hdigest] at hanswer
      cases hanswer
  · cases hok

/-! ## At the top -/

/-- **An input is accepted if it spells a tree that can be folded, and else not.** -/
theorem decode_eq_ok_iff {input : Bytes} {o : FoldOptions} {digest : Digest} :
    decode input o = .ok digest ↔
      ∃ t, Spells .accepted none t input ∧ foldTree t o = .ok digest := by
  constructor
  · intro hok
    obtain ⟨t, es, hspells, htraversal, hfold⟩ := decode_spells hok
    exact ⟨t, hspells, foldTreeOn_eq_ok_iff.mpr ((foldEvents_eq_ok_iff htraversal).mp hfold)⟩
  · rintro ⟨t, hspells, hfold⟩
    obtain ⟨⟨ht, hdepth⟩, rfl⟩ := foldTreeOn_eq_ok_iff.mp hfold
    rw [hspells.decode_eq Rules.accepted_sound ht, if_pos hdepth]

/--
**The readers accept the grammar and are blind to what it leaves open.** Every spelling of a
tree is read as the tree, whatever forms, framings and no-ops it has, if a container only
declares a marker that can be declared. And an input that is accepted is a spelling of a
tree, but for two things: any octet can be a character, and a container without values can
declare any octet that is not refused.
-/
theorem ubjson_reads_its_grammar {codec : Codec} (h : codec ∈ Codec.ofFormat .ubjson)
    (input : Bytes) :
    (∀ t, Spells .documented none t input →
      (∀ o digest, foldTree t o = .ok digest → codec.decode input o = .ok digest) ∧
        (t.Countable → codec.Recovers input t)) ∧
    ∀ o digest, codec.decode input o = .ok digest ↔
      ∃ t, Spells .accepted none t input ∧ foldTree t o = .ok digest := by
  have hdecode : ∀ o, codec.decode input o = decode input o := decode_eq h input
  refine ⟨fun t hspells => ⟨fun o digest hfold => ?_, fun ht => .of_eq_ite ht fun o => ?_⟩,
    fun o digest => ?_⟩
  · obtain ⟨⟨ht, hdepth⟩, rfl⟩ := foldTreeOn_eq_ok_iff.mp hfold
    rw [hdecode, hspells.decode_eq Rules.documented_sound ht, if_pos hdepth]
  · rw [hdecode, hspells.decode_eq Rules.documented_sound ht]
  · rw [hdecode, decode_eq_ok_iff]

/-- A list with a count and no-ops, and a character that is no text. -/
theorem ubjson_reads_its_grammar_counted :
    (∃ digest, foldTree (.list [.uint 5, .text [0x61]]) {} = .ok digest ∧
      closed.decode [0x4E, 0x5B, 0x23, 0x4E, 0x55, 2, 0x4E, 0x49, 0, 5, 0x43, 0x61] {} =
        .ok digest) ∧
    ∃ t, Spells .accepted none t [0x43, 0xFF] := by
  have hclosed : closed ∈ Codec.ofFormat .ubjson := List.mem_cons_self ..
  have hsmall : IntegerForm.uint8.Holds 2 :=
    show (0 : Int) ≤ (2 : Int64).toInt ∧ (2 : Int64).toInt < 0x100 by decide
  have hwide : IntegerForm.int16.Holds 5 := Bytes.FitsSigned.two (by decide)
  have htwo : SpellsCount 2 [0x23, 0x4E, 0x55, 2] := .intro 0 (.intro 1 hsmall rfl)
  have hfive : Spells .documented none (.uint 5) [0x4E, 0x49, 0, 5] := .marked 1 (.uint hwide rfl)
  have hletter : Spells .documented none (.text [0x61]) [0x43, 0x61] :=
    .marked 0 (.character (show (0x61 : UInt8) < 0x80 by decide))
  have hentries : SpellsEntries .documented none .list [([], .uint 5), ([], .text [0x61])]
      [0x4E, 0x49, 0, 5, 0x43, 0x61] :=
    .cons (.item []) hfive (.cons (.item []) hletter .nil)
  have hcontent : SpellsContent .documented .list [([], .uint 5), ([], .text [0x61])]
      [0x23, 0x4E, 0x55, 2, 0x4E, 0x49, 0, 5, 0x43, 0x61] :=
    @SpellsContent.counted _ none _ _ [0x23, 0x4E, 0x55, 2] _ nofun (.counted htwo) hentries
  have hspells : Spells .documented none (.list [.uint 5, .text [0x61]])
      [0x4E, 0x5B, 0x23, 0x4E, 0x55, 2, 0x4E, 0x49, 0, 5, 0x43, 0x61] :=
    .marked 1 (.list hcontent)
  have hcount : (Tree.list [.uint 5, .text [0x61]]).Countable :=
    ⟨show (2 : Nat) < 0x100000000 by decide, show (0 : Nat) < 0x100000000 by decide,
      show (0 : Nat) < 0x100000000 by decide, trivial⟩
  obtain ⟨hforward, -⟩ := ubjson_reads_its_grammar hclosed
    [0x4E, 0x5B, 0x23, 0x4E, 0x55, 2, 0x4E, 0x49, 0, 5, 0x43, 0x61]
  obtain ⟨-, hconverse⟩ := ubjson_reads_its_grammar hclosed [0x43, 0xFF]
  have hodd : closed.decode [0x43, 0xFF] {} = .ok ((Tree.text [0xFF]).digest {}) := by rfl
  obtain ⟨t, hspelled, -⟩ := (hconverse {} _).mp hodd
  exact ⟨((hforward _ hspells).2 hcount).within {} (by decide), t, hspelled⟩

/-- The nulls of a list have a marker in common, and still it cannot be declared. -/
theorem ubjson_uniform_null_refused :
    Spells .uniform none (.list [.null, .null]) [0x5B, 0x24, 0x5A, 0x23, 0x69, 2] ∧
    (∃ digest, foldTree (.list [.null, .null]) {} = .ok digest) ∧
    closed.decode [0x5B, 0x24, 0x5A, 0x23, 0x69, 2] {} =
      .error (.decode (.unsupportedType 2 0x5A)) ∧
    counted.decode [0x5B, 0x24, 0x5A, 0x23, 0x69, 2] {} =
      .error (.decode (.unsupportedType 2 0x5A)) := by
  have hsmall : IntegerForm.int8.Holds 2 := Bytes.FitsSigned.one (by decide)
  have htwo : SpellsCount 2 [0x23, 0x69, 2] := .intro 0 (.intro 0 hsmall rfl)
  have hentries : SpellsEntries .uniform (some .null) .list [([], .null), ([], .null)] [] :=
    .cons (.item []) (.bare .null) (.cons (.item []) (.bare .null) .nil)
  have hheading : SpellsHeading 2 (some Marker.null.octet) [0x24, 0x5A, 0x23, 0x69, 2] :=
    .typed 0 htwo
  have hcontent : SpellsContent .uniform .list [([], .null), ([], .null)]
      [0x24, 0x5A, 0x23, 0x69, 2] :=
    @SpellsContent.counted _ (some .null) _ _ [0x24, 0x5A, 0x23, 0x69, 2] [] (fun _ _ => trivial)
      hheading hentries
  have hspells : Spells .uniform none (.list [.null, .null]) [0x5B, 0x24, 0x5A, 0x23, 0x69, 2] :=
    .marked 0 (.list hcontent)
  exact ⟨hspells, ⟨_, rfl⟩, rfl, rfl⟩

end TreeDigest.Ubjson
