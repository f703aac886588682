import Mathlib.Data.List.Nodup
import Mathlib.Data.List.Perm.Subperm
import TreeDigest.Proofs.Settings.Reads

/-!
# Records are what a text means

A record is read over another one by one change after the other. The changes are those that the
entries of a list or object stand for: in a list the entries of the first fields, in an object
entries of different fields, by their names.

From the changes each part of the record is known. A part that only one field sets is what the
entry of that field means, if there is one, and otherwise what it was.
-/

namespace TreeDigest.Settings

open Json (Advances Holds HoldsItems HoldsMembers)

variable {σ β : Type} {levels : Nat} {path : Path} {c c' : Json.Cursor} {field : Field σ}
  {fields : List (Field σ)} {start r r' : σ} {t : Tree} {given : List (Field σ × Tree)}

/-! ## Changes -/

/-- Reading a field that is given as a tree turns one record into another. -/
def Field.Takes (levels : Nat) (field : Field σ) (t : Tree) (r r' : σ) : Prop :=
  ∃ path c c', field.read path r c = .ok r' c' ∧ Holds levels c t c'

/-- A field is read as a value, over any record. -/
structure Field.IsRead (levels : Nat) (field : Field σ) : Prop where
  advances : ∀ path r, Advances (field.read path r)
  value : ∀ {path r c r' c'}, field.read path r c = .ok r' c' → ∃ t, Holds levels c t c'

section Of

variable {α : Type} {name : String} {step : Path → Reading α} {set : α → σ → σ}
  {means : Tree → α → Prop}

theorem Field.IsRead.of (h : Reads levels means step) : (Field.of name step set).IsRead levels where
  advances path _ := .bind (h.advances path) fun _ => .pure _
  value hok := by
    obtain ⟨a, c₁, hstep, hok⟩ := Steps.bind_eq_ok_iff.mp hok
    cases hok
    obtain ⟨t, ht, -⟩ := h.value hstep
    exact ⟨t, ht⟩

/-- A field is set to what is given for it. -/
theorem Field.takes_of (h : Reads levels means step)
    (htakes : (Field.of name step set).Takes levels t r r') : ∃ a, means t a ∧ r' = set a r := by
  obtain ⟨path, c, c', hok, ht⟩ := htakes
  obtain ⟨a, c₁, hstep, hok⟩ := Steps.bind_eq_ok_iff.mp hok
  cases hok
  obtain ⟨t', ht', hmeans⟩ := h.value hstep
  exact ⟨a, ht'.unique ht ▸ hmeans, rfl⟩

end Of

/-- Fields that are given as trees turn one record into another, one after the other. -/
inductive Assigns (levels : Nat) : σ → List (Field σ × Tree) → σ → Prop
  | nil {r : σ} : Assigns levels r [] r
  | cons {r r₁ r' : σ} {field : Field σ} {t : Tree} {given : List (Field σ × Tree)} :
      field.Takes levels t r r₁ → Assigns levels r₁ given r' →
        Assigns levels r ((field, t) :: given) r'

/-- What an entry of an object stands for. -/
def entryOf (entry : Field σ × Tree) : Bytes × Tree := (Utf8.ofText entry.1.name, entry.2)

/-- What a tree means as a record that is read over another one. -/
inductive IsRecord (levels : Nat) (fields : List (Field σ)) (start : σ) : Tree → σ → Prop
  /-- The items are those of the first fields. -/
  | list {given : List (Field σ × Tree)} {r : σ} : given.map Prod.fst <+: fields →
      Assigns levels start given r → IsRecord levels fields start (.list (given.map Prod.snd)) r
  /-- The members are of different fields, in any order. -/
  | object {given : List (Field σ × Tree)} {r : σ} : (∀ entry ∈ given, entry.1 ∈ fields) →
      (given.map (·.1.name)).Nodup → Assigns levels start given r →
        IsRecord levels fields start (.map (given.map entryOf)) r

/-! ## Lists -/

theorem advances_inOrder (h : ∀ field ∈ fields, field.IsRead levels) (index : Nat) (r : σ) :
    Advances (inOrder path index r fields) := by
  induction fields generalizing index r with
  | nil => exact .pure _
  | cons field fields ih =>
    rw [List.forall_mem_cons] at h
    refine .bind (advances_located (.nextItem _)) fun _ => ?_
    split
    · exact .bind (h.1.advances _ _) fun _ => ih h.2 _ _
    · exact .pure _

/-- The items up to the end of a list are those of the first fields. -/
theorem inOrder_holds {index : Nat} {c₁ : Json.Cursor} (h : ∀ field ∈ fields, field.IsRead levels)
    (hok : inOrder path index r fields c = .ok r' c₁) (hend : Json.listEnd c₁ = .ok () c') :
    ∃ given c₂, given.map Prod.fst <+: fields ∧ Assigns levels r given r' ∧
      HoldsItems levels index c (given.map Prod.snd) c₂ ∧ Json.listEnd c₂ = .ok () c' := by
  induction fields generalizing index r c with
  | nil =>
    cases hok
    obtain ⟨c₂, hlast, hend⟩ := Json.nextItem_of_listEnd (index == 0) hend
    exact ⟨[], c₂, List.nil_prefix, .nil, .nil hlast, hend⟩
  | cons field fields ih =>
    rw [List.forall_mem_cons] at h
    obtain ⟨more, c₂, hmore, hok⟩ := Steps.bind_eq_ok_iff.mp hok
    have hmore := located_ok_iff.mp hmore
    cases more with
    | false =>
      cases hok
      exact ⟨[], c₁, List.nil_prefix, .nil, .nil hmore, hend⟩
    | true =>
      obtain ⟨r₁, c₃, hread, hok⟩ := Steps.bind_eq_ok_iff.mp hok
      obtain ⟨t, ht⟩ := h.1.value hread
      obtain ⟨given, c₄, hprefix, hassigns, hitems, hend⟩ := ih h.2 hok
      exact ⟨(field, t) :: given, c₄, List.cons_prefix_cons.mpr ⟨rfl, hprefix⟩,
        .cons ⟨_, _, _, hread, ht⟩ hassigns, .cons hmore ht hitems, hend⟩

/-! ## Objects -/

theorem advances_nextField (fields : List (Field σ)) (seen : List String) :
    Advances (nextField fields path seen) := by
  refine .bind (advances_located (.nextKey _)) fun _ => ?_
  split
  · refine .bind (advances_located .key) fun _ => ?_
    split
    · exact .never fun _ _ _ => refuseWithin_ne_ok
    · split
      · exact .never fun _ _ _ => refuseWithin_ne_ok
      · exact .pure _
  · exact .pure _

theorem isEmpty_eq_length (seen : List String) : seen.isEmpty = (seen.length == 0) := by
  cases seen <;> rfl

/-- The key of the next member is the name of a field of which none was seen, or there is none. -/
theorem nextField_ok {seen : List String} {next : Option (Field σ)}
    (h : nextField fields path seen c = .ok next c') :
    (next = none ∧ Json.nextKey seen.isEmpty c = .ok false c') ∨
      ∃ field c₁, next = some field ∧ field ∈ fields ∧ field.name ∉ seen ∧
        Json.nextKey seen.isEmpty c = .ok true c₁ ∧
        Json.key c₁ = .ok (Utf8.ofText field.name) c' := by
  obtain ⟨more, c₁, hmore, h⟩ := Steps.bind_eq_ok_iff.mp h
  have hmore := located_ok_iff.mp hmore
  cases more with
  | false =>
    cases h
    exact .inl ⟨rfl, hmore⟩
  | true =>
    obtain ⟨name, c₂, hkey, h⟩ := Steps.bind_eq_ok_iff.mp h
    cases hfind : fields.find? fun field => Utf8.ofText field.name == name with
    | none =>
      rw [hfind] at h
      exact absurd h refuseWithin_ne_ok
    | some field =>
      rw [hfind] at h
      have hname := List.find?_some hfind
      dsimp only at h
      split at h
      · exact absurd h refuseWithin_ne_ok
      · rename_i hseen
        cases h
        rw [List.contains_iff_mem] at hseen
        exact .inr ⟨field, c₁, rfl, List.mem_of_find?_eq_some hfind, hseen, hmore,
          eq_of_beq hname ▸ located_ok_iff.mp hkey⟩

theorem advances_byName (h : ∀ field ∈ fields, field.IsRead levels) (seen : List String) (r : σ)
    (left : Nat) : Advances (byName fields path seen r left) := by
  induction left generalizing seen r with
  | zero => exact .bind (advances_nextField fields seen) fun _ => .pure _
  | succ left ih =>
    refine .bind_reached (advances_nextField fields seen) fun {_ next _} hnext => ?_
    rcases nextField_ok hnext with ⟨rfl, -⟩ | ⟨field, _, rfl, hfield, -⟩
    · exact .pure _
    · exact .bind (advances_located .colon) fun _ =>
        .bind ((h field hfield).advances _ _) fun _ => ih _ _

/-- The members up to the end of an object are of different fields, none of them seen before. -/
theorem byName_holds {seen : List String} {left : Nat} (h : ∀ field ∈ fields, field.IsRead levels)
    (hseen : seen.Nodup) (hsub : seen ⊆ fields.map Field.name)
    (hleft : seen.length + left = fields.length)
    (hok : byName fields path seen r left c = .ok r' c') :
    ∃ given, (∀ entry ∈ given, entry.1 ∈ fields) ∧ (given.map (·.1.name) ++ seen).Nodup ∧
      Assigns levels r given r' ∧ HoldsMembers levels seen.length c (given.map entryOf) c' := by
  induction left generalizing seen r c with
  | zero =>
    obtain ⟨next, c₁, hnext, hok⟩ := Steps.bind_eq_ok_iff.mp hok
    cases hok
    rcases nextField_ok hnext with ⟨-, hlast⟩ | ⟨field, _, -, hfield, hnew, -⟩
    · rw [isEmpty_eq_length] at hlast
      exact ⟨[], nofun, hseen, .nil, .nil hlast⟩
    · -- all fields were seen, since as many names were seen as there are fields
      have hall : seen.Perm (fields.map Field.name) :=
        (hseen.subperm hsub).perm_of_length_le (by rw [List.length_map]; omega)
      exact absurd (hall.mem_iff.mpr (List.mem_map_of_mem hfield)) hnew
  | succ left ih =>
    obtain ⟨next, c₁, hnext, hok⟩ := Steps.bind_eq_ok_iff.mp hok
    rcases nextField_ok hnext with ⟨rfl, hlast⟩ | ⟨field, c₀, rfl, hfield, hnew, hmore, hkey⟩
    · cases hok
      rw [isEmpty_eq_length] at hlast
      exact ⟨[], nofun, hseen, .nil, .nil hlast⟩
    · obtain ⟨_, c₂, hcolon, hok⟩ := Steps.bind_eq_ok_iff.mp hok
      obtain ⟨r₁, c₃, hread, hok⟩ := Steps.bind_eq_ok_iff.mp hok
      obtain ⟨t, ht⟩ := (h field hfield).value hread
      obtain ⟨given, hgiven, hnames, hassigns, hmembers⟩ := ih (List.nodup_cons.mpr ⟨hnew, hseen⟩)
        (List.cons_subset.mpr ⟨List.mem_map_of_mem hfield, hsub⟩)
        (by rw [List.length_cons]; omega) hok
      rw [isEmpty_eq_length] at hmore
      exact ⟨(field, t) :: given, List.forall_mem_cons.mpr ⟨hfield, hgiven⟩,
        List.perm_middle.nodup_iff.mp hnames, .cons ⟨_, _, _, hread, ht⟩ hassigns,
        .cons hmore hkey (located_ok_iff.mp hcolon) ht hmembers⟩

/-! ## Records -/

theorem record_reads {type : String} (h : ∀ field ∈ fields, field.IsRead levels) :
    Reads (levels + 1) (IsRecord levels fields start) (record type fields start) where
  advances path := by
    refine .bind (advances_located .peekToken?) fun _ => ?_
    split
    · exact .bind (advances_located .skip) fun _ => .bind (advances_inOrder h _ _) fun _ =>
        .bind (advances_located .listEnd) fun _ => .pure _
    · exact .bind (advances_located .skip) fun _ => .bind (advances_byName h _ _ _) fun _ =>
        .bind (advances_located .objectEnd) fun _ => .pure _
    · exact advances_found_bind fun _ => advances_refuse
  value hok := by
    obtain ⟨b?, c₁, hpeek, hok⟩ := Steps.bind_eq_ok_iff.mp hok
    have hpeek := located_ok_iff.mp hpeek
    split at hok
    · obtain ⟨_, c₂, hskip, hok⟩ := Steps.bind_eq_ok_iff.mp hok
      obtain ⟨r, c₃, hfields, hok⟩ := Steps.bind_eq_ok_iff.mp hok
      obtain ⟨_, c₄, hend, hok⟩ := Steps.bind_eq_ok_iff.mp hok
      cases hok
      obtain ⟨given, c₅, hprefix, hassigns, hitems, hend⟩ :=
        inOrder_holds h hfields (located_ok_iff.mp hend)
      have hopen := Json.token_listStart hpeek (located_ok_iff.mp hskip)
      exact ⟨_, .list hopen hitems hend, .list hprefix hassigns⟩
    · obtain ⟨_, c₂, hskip, hok⟩ := Steps.bind_eq_ok_iff.mp hok
      obtain ⟨r, c₃, hfields, hok⟩ := Steps.bind_eq_ok_iff.mp hok
      obtain ⟨_, c₄, hend, hok⟩ := Steps.bind_eq_ok_iff.mp hok
      cases hok
      obtain ⟨given, hgiven, hnames, hassigns, hmembers⟩ :=
        byName_holds h List.nodup_nil (List.nil_subset _) (Nat.zero_add _) hfields
      rw [List.append_nil] at hnames
      have hopen := Json.token_objectStart hpeek (located_ok_iff.mp hskip)
      exact ⟨_, .map hopen hmembers (located_ok_iff.mp hend), .object hgiven hnames hassigns⟩
    · obtain ⟨f, c₂, -, hok⟩ := Steps.bind_eq_ok_iff.mp hok
      exact absurd hok refuse_ne_ok

/-- A record ends with a delimiter, whatever its last field is. -/
theorem record_closes {type : String} (h : ∀ field ∈ fields, field.IsRead levels) (path : Path) :
    Json.Closes (record type fields start path) := by
  refine .after (advances_located .peekToken?) fun _ => ?_
  split
  · exact .after (advances_located .skip) fun _ => .after (advances_inOrder h _ _) fun _ =>
      (closes_located Json.listEnd_closes).map _
  · exact .after (advances_located .skip) fun _ => .after (advances_byName h _ _ _) fun _ =>
      (closes_located Json.objectEnd_closes).map _
  · refine .after (advances_located advances_found) fun _ => .never fun _ _ _ => refuse_ne_ok

/-! ## Parts -/

/-- The tree that is given for a field: by its place in a list, by its name in an object. -/
def partOf (index : Nat) (name : String) : Tree → Option Tree
  | .list items => items[index]?
  | .map pairs => (pairs.find? fun kv => kv.1 == Utf8.ofText name).map (·.2)
  | _ => none

/-- A part of a record is what is given for it, if anything is, and what it was otherwise. -/
def IsPart (given : Option Tree) (means : Tree → β → Prop) (before after : β) : Prop :=
  match given with
  | some t => means t after
  | none => after = before

/-- A field leaves a part of a record as it is. -/
structure Field.Keeps (field : Field σ) (get : σ → β) : Prop where
  eq : ∀ {levels t r r'}, field.Takes levels t r r' → get r' = get r

theorem Field.Keeps.of {α : Type} {name : String} {step : Path → Reading α} {set : α → σ → σ}
    {get : σ → β} (h : ∀ a r, get (set a r) = get r) : (Field.of name step set).Keeps get := by
  refine ⟨?_⟩
  rintro levels t r r' ⟨path, c, c', hok, -⟩
  obtain ⟨a, c₁, -, hok⟩ := Steps.bind_eq_ok_iff.mp hok
  cases hok
  exact h a r

theorem Assigns.keeps {get : σ → β} (h : Assigns levels r given r')
    (hkeeps : ∀ entry ∈ given, entry.1.Keeps get) : get r' = get r := by
  induction h with
  | nil => rfl
  | cons htakes _ ih =>
    rw [List.forall_mem_cons] at hkeeps
    rw [ih hkeeps.2, hkeeps.1.eq htakes]

theorem Assigns.sets {get : σ → β} {means : Tree → β → Prop} {first last : List (Field σ × Tree)}
    (h : Assigns levels r (first ++ (field, t) :: last) r')
    (hsets : ∀ {t r r'}, field.Takes levels t r r' → means t (get r'))
    (hkeeps : ∀ entry ∈ last, entry.1.Keeps get) : means t (get r') := by
  induction first generalizing r with
  | nil =>
    cases h with
    | cons htakes hlast => exact hlast.keeps hkeeps ▸ hsets htakes
  | cons entry first ih =>
    cases h with
    | cons _ h => exact ih h

section Split

variable {first last : List (Field σ)}

/-- Some items are those of the first fields: with the item of a field among them, or without. -/
theorem split_prefix (h : given.map Prod.fst <+: first ++ field :: last) :
    (∀ entry ∈ given, entry.1 ∈ first) ∧ given.length ≤ first.length ∨
      ∃ before t after, given = before ++ (field, t) :: after ∧ before.length = first.length ∧
        ∀ entry ∈ after, entry.1 ∈ last := by
  obtain ⟨rest, hrest⟩ := h
  have hmem : ∀ {fields : List (Field σ)} {entries : List (Field σ × Tree)},
      entries.map Prod.fst <+: fields → ∀ entry ∈ entries, entry.1 ∈ fields :=
    fun hprefix _ hentry => hprefix.subset (List.mem_map_of_mem hentry)
  rcases List.append_eq_append_iff.mp hrest with ⟨more, hfirst, -⟩ | ⟨more, hgiven, hlast⟩
  · have hprefix : given.map Prod.fst <+: first := ⟨more, hfirst.symm⟩
    exact .inl ⟨hmem hprefix, List.length_map Prod.fst ▸ hprefix.length_le⟩
  · cases more with
    | nil =>
      rw [List.append_nil] at hgiven
      have hprefix : given.map Prod.fst <+: first := hgiven ▸ List.prefix_refl _
      exact .inl ⟨hmem hprefix, List.length_map Prod.fst ▸ hprefix.length_le⟩
    | cons other more =>
      obtain ⟨rfl, rfl⟩ := List.cons.inj hlast
      obtain ⟨before, tail, rfl, rfl, htail⟩ := List.map_eq_append_iff.mp hgiven
      obtain ⟨⟨_, t⟩, after, rfl, rfl, rfl⟩ := List.map_eq_cons_iff.mp htail
      exact .inr ⟨before, t, after, rfl, (List.length_map _).symm, hmem (List.prefix_append _ _)⟩

/-- Members of different fields: with the member of a field among them, or without. -/
theorem split_names (hgiven : ∀ entry ∈ given, entry.1 ∈ first ++ field :: last)
    (hdistinct : (given.map (·.1.name)).Nodup)
    (hnames : ((first ++ field :: last).map fun field => Utf8.ofText field.name).Nodup) :
    (∀ entry ∈ given, entry.1 ∈ first ++ last ∧
        Utf8.ofText entry.1.name ≠ Utf8.ofText field.name) ∨
      ∃ before t after, given = before ++ (field, t) :: after ∧
        ∀ entry ∈ before ++ after, entry.1 ∈ first ++ last ∧
          Utf8.ofText entry.1.name ≠ Utf8.ofText field.name := by
  have hfield : field ∈ first ++ field :: last := List.mem_append_right _ List.mem_cons_self
  have hother : ∀ entry ∈ given, entry.1.name ≠ field.name →
      entry.1 ∈ first ++ last ∧ Utf8.ofText entry.1.name ≠ Utf8.ofText field.name := by
    intro entry hentry hname
    have hne : entry.1 ≠ field := fun h => hname (congrArg Field.name h)
    have hmem := List.perm_middle.mem_iff.mp (hgiven entry hentry)
    exact ⟨(List.mem_cons.mp hmem).resolve_left hne, fun hoctets =>
      hne (List.inj_on_of_nodup_map hnames (hgiven entry hentry) hfield hoctets)⟩
  by_cases hgives : ∃ entry ∈ given, entry.1.name = field.name
  · obtain ⟨⟨other, t⟩, hentry, hname⟩ := hgives
    obtain rfl : other = field :=
      List.inj_on_of_nodup_map hnames (hgiven _ hentry) hfield (congrArg Utf8.ofText hname)
    obtain ⟨before, after, rfl⟩ := List.append_of_mem hentry
    refine .inr ⟨before, t, after, rfl, fun entry hrest => hother entry ?_ fun hname => ?_⟩
    · exact List.perm_middle.mem_iff.mpr (List.mem_cons_of_mem _ hrest)
    · rw [List.map_append, List.map_cons, List.nodup_middle, List.nodup_cons, ← List.map_append,
        List.mem_map] at hdistinct
      exact hdistinct.1 ⟨entry, hrest, hname⟩
  · exact .inl fun entry hentry => hother entry hentry fun hname => hgives ⟨entry, hentry, hname⟩

/-- A pair among others with other keys is the one that is found. -/
theorem find?_entryOf {before after : List (Field σ × Tree)}
    (h : ∀ entry ∈ before, Utf8.ofText entry.1.name ≠ Utf8.ofText field.name) :
    ((before ++ (field, t) :: after).map entryOf).find? (fun kv => kv.1 == Utf8.ofText field.name) =
      some (entryOf (field, t)) := by
  rw [List.map_append, List.find?_append, List.find?_eq_none.mpr]
  · have hkey : ((entryOf (field, t)).1 == Utf8.ofText field.name) = true := beq_self_eq_true _
    rw [Option.none_or, List.map_cons, List.find?_cons, hkey]
  · intro kv hkv
    obtain ⟨entry, hentry, rfl⟩ := List.mem_map.mp hkv
    rw [beq_iff_eq]
    exact h entry hentry

end Split

/-- **A part that one field sets and all others keep is known from the tree of the record.** -/
theorem IsRecord.part {means : Tree → β → Prop} (get : σ → β) (first last : List (Field σ))
    (h : IsRecord levels (first ++ field :: last) start t r)
    (hsets : ∀ {t r r'}, field.Takes levels t r r' → means t (get r'))
    (hkeeps : ∀ other ∈ first ++ last, other.Keeps get)
    (hnames : ((first ++ field :: last).map fun field => Utf8.ofText field.name).Nodup) :
    IsPart (partOf first.length field.name t) means (get start) (get r) := by
  cases h with
  | @list given r hprefix hassigns =>
    rcases split_prefix hprefix with ⟨hfirst, hlen⟩ | ⟨before, t, after, rfl, hlen, hafter⟩
    · have hnone : partOf first.length field.name (.list (given.map Prod.snd)) = none :=
        List.getElem?_eq_none (by rwa [List.length_map])
      rw [hnone]
      exact hassigns.keeps fun entry hentry =>
        hkeeps _ (List.mem_append_left _ (hfirst entry hentry))
    · have hsome : partOf first.length field.name
          (.list ((before ++ (field, t) :: after).map Prod.snd)) = some t := by
        rw [partOf, List.map_append, List.getElem?_append_right (by rw [List.length_map, hlen]),
          List.length_map, hlen, Nat.sub_self]
        rfl
      rw [hsome]
      exact hassigns.sets hsets fun entry hentry =>
        hkeeps _ (List.mem_append_right _ (hafter entry hentry))
  | @object given r hgiven hdistinct hassigns =>
    rcases split_names hgiven hdistinct hnames with hothers | ⟨before, t, after, rfl, hothers⟩
    · have hnone : partOf first.length field.name (.map (given.map entryOf)) = none := by
        rw [partOf, Option.map_eq_none_iff, List.find?_eq_none]
        intro kv hkv
        obtain ⟨entry, hentry, rfl⟩ := List.mem_map.mp hkv
        rw [beq_iff_eq]
        exact (hothers entry hentry).2
      rw [hnone]
      exact hassigns.keeps fun entry hentry => hkeeps _ (hothers entry hentry).1
    · have hsome : partOf first.length field.name
          (.map ((before ++ (field, t) :: after).map entryOf)) = some t := by
        rw [partOf, find?_entryOf fun entry hentry =>
          (hothers entry (List.mem_append_left _ hentry)).2]
        rfl
      rw [hsome]
      exact hassigns.sets hsets fun entry hentry =>
        hkeeps _ (hothers entry (List.mem_append_right _ hentry)).1

end TreeDigest.Settings
