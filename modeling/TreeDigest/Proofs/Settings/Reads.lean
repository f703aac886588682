import TreeDigest.Settings.Reading
import TreeDigest.Proofs.Json.Holds

/-!
# Settings are what a text means

Settings are read without a tree being built. But wherever a step for a value succeeds, the text
holds a tree that ends at the same place, and the value is what that tree *means*. What a
tree means is said here for numbers, texts, choices and lists; a record comes after them.

A step that *reads* values of a meaning also moves on as parsers do, so that what stands after a
value is of no account.
-/

namespace TreeDigest.Settings

open Json (Advances Holds HoldsItems HoldsMembers)

variable {α β : Type} {path : Path} {c c' : Json.Cursor} {a : α} {t : Tree} {levels : Nat}
  {means : Tree → α → Prop}

/-! ## Meanings -/

/-- What a tree is found to be. -/
def Found.ofTree : Tree → Found
  | .null => .null
  | .bool b => .bool b
  | .int i => .integer i.toInt
  | .uint u => .integer u.toNat
  | .double bits => .double bits
  | .text octets => .text octets
  | .list _ => .list
  | .map _ => .object

/-- A tree is a natural number, and one below a bound. -/
def IsNatural (bound : Nat) (t : Tree) (n : Nat) : Prop := Found.ofTree t = .integer n ∧ n < bound

/-- A tree is a text. -/
def IsText (t : Tree) (octets : Bytes) : Prop := t = .text octets

/-- A tree is one of some values, by its name or by an object of that name and a null. -/
def IsChoice (choices : List (String × α)) (t : Tree) (a : α) : Prop :=
  ∃ name, (name, a) ∈ choices ∧
    (t = .text (Utf8.ofText name) ∨ t = .map [(Utf8.ofText name, .null)])

/-- A tree is a list of values, item by item. -/
def IsList (means : Tree → α → Prop) (t : Tree) (values : List α) : Prop :=
  ∃ items, t = .list items ∧ List.Forall₂ means items values

/-- A step reads values that are what trees of so many levels mean, and it moves on. -/
structure Reads (levels : Nat) (means : Tree → α → Prop) (step : Path → Reading α) : Prop where
  advances : ∀ path, Advances (step path)
  value : ∀ {path c a c'}, step path c = .ok a c' → ∃ t, Holds levels c t c' ∧ means t a

theorem Reads.spends {step : Path → Reading α} (h : Reads levels means step)
    (hok : step path c = .ok a c') : c'.rest.length < c.rest.length := by
  obtain ⟨t, hholds, -⟩ := h.value hok
  exact hholds.spends

theorem Reads.mono {levels' : Nat} {step : Path → Reading α} (h : Reads levels means step)
    (hle : levels ≤ levels') : Reads levels' means step where
  advances := h.advances
  value hok := by
    obtain ⟨t, ht, hmeans⟩ := h.value hok
    exact ⟨t, ht.mono hle, hmeans⟩

/-! ## Steps of reading JSON -/

theorem located_ok_iff {step : Json.Parser α} :
    located path step c = .ok a c' ↔ step c = .ok a c' := by
  unfold located
  split
  · rename_i hstep
    rw [hstep]
    simp
  · rename_i hstep
    rw [hstep]
    simp

theorem advances_located {step : Json.Parser α} (h : Advances step) :
    Advances (located path step) where
  suffix hok := h.suffix (located_ok_iff.mp hok)
  settled hok hleft more := located_ok_iff.mpr (h.settled (located_ok_iff.mp hok) hleft more)

theorem closes_located {step : Json.Parser α} (h : Json.Closes step) :
    Json.Closes (located path step) where
  toAdvances := advances_located h.toAdvances
  lt hok := h.lt (located_ok_iff.mp hok)
  closed hok more := located_ok_iff.mpr (h.closed (located_ok_iff.mp hok) more)

theorem refuse_ne_ok {problem : Problem} : refuse path problem c ≠ .ok a c' := nofun

theorem refuseWithin_ne_ok {problem : Problem} : refuseWithin path problem c ≠ .ok a c' := by
  unfold refuseWithin
  split <;> exact nofun

theorem advances_refuse {problem : Problem} : Advances (refuse (α := α) path problem) :=
  .never fun _ _ _ => refuse_ne_ok

/-! ## Scalars -/

theorem advances_found : Advances found :=
  .bind .peekToken? fun _ => by
    split
    · exact .pure _
    · exact .pure _
    · refine .bind .token fun next => ?_
      cases next <;> exact .pure _

/-- A scalar that was found is what the text holds. -/
theorem found_holds {f : Found} (h : found c = .ok f c') (hlist : f ≠ .list)
    (hobject : f ≠ .object) : ∃ t, Holds 0 c t c' ∧ Found.ofTree t = f := by
  obtain ⟨b?, c₁, hpeek, h⟩ := Steps.bind_eq_ok_iff.mp h
  split at h
  · cases h
    exact absurd rfl hlist
  · cases h
    exact absurd rfl hobject
  · obtain ⟨next, c₂, htoken, h⟩ := Steps.bind_eq_ok_iff.mp h
    have htoken' := (Json.token_again hpeek).trans htoken
    cases next with
    | null => cases h; exact ⟨_, .scalar htoken' rfl, rfl⟩
    | bool b => cases h; exact ⟨_, .scalar htoken' rfl, rfl⟩
    | number n => cases h; exact ⟨_, .scalar htoken' rfl, by cases n <;> rfl⟩
    | text octets => cases h; exact ⟨_, .scalar htoken' rfl, rfl⟩
    | listStart => cases h; exact absurd rfl hlist
    | objectStart => cases h; exact absurd rfl hobject

/-- A step that looks at what is found. -/
theorem advances_found_bind {next : Found → Reading α} (h : ∀ f, Advances (next f)) :
    Advances (located path found >>= next) :=
  .bind (advances_located advances_found) h

/-- A step that goes on with the scalar that is found, and takes nothing more. -/
theorem found_reads {next : Path → Found → Reading α} (hadvances : ∀ path f, Advances (next path f))
    (hvalue : ∀ {path f c a c'}, next path f c = .ok a c' →
      c = c' ∧ f ≠ .list ∧ f ≠ .object ∧ ∀ {t}, Found.ofTree t = f → means t a) :
    Reads 0 means fun path => located path found >>= next path where
  advances path := advances_found_bind (hadvances path)
  value hok := by
    obtain ⟨f, c₁, hfound, hok⟩ := Steps.bind_eq_ok_iff.mp hok
    obtain ⟨rfl, hlist, hobject, hmeans⟩ := hvalue hok
    obtain ⟨t, hholds, ht⟩ := found_holds (located_ok_iff.mp hfound) hlist hobject
    exact ⟨t, hholds, hmeans ht⟩

theorem natural_reads (bound : Nat) (type : String) :
    Reads 0 (IsNatural bound) (natural bound type) := by
  refine found_reads (fun path f => ?_) fun {path f c a c'} hok => ?_
  · cases f with
    | integer n =>
      dsimp only
      split
      · exact .pure _
      · exact advances_refuse
    | _ => exact advances_refuse
  · cases f with
    | integer n =>
      dsimp only at hok
      split at hok
      · rename_i hn
        cases hok
        refine ⟨rfl, nofun, nofun, fun ht => ⟨?_, by omega⟩⟩
        rw [ht, Int.toNat_of_nonneg hn.1]
      · exact absurd hok refuse_ne_ok
    | _ => exact absurd hok refuse_ne_ok

theorem text_reads : Reads 0 IsText text := by
  refine found_reads (fun path f => ?_) fun {path f c a c'} hok => ?_
  · cases f with
    | text octets => exact .pure _
    | _ => exact advances_refuse
  · cases f with
    | text octets =>
      cases hok
      exact ⟨rfl, nofun, nofun, fun {t} ht => by cases t <;> cases ht; rfl⟩
    | _ => exact absurd hok refuse_ne_ok

theorem nothing_reads : Reads 0 (fun t () => t = .null) nothing := by
  refine found_reads (fun path f => ?_) fun {path f c a c'} hok => ?_
  · cases f with
    | null => exact .pure _
    | _ => exact advances_refuse
  · cases f with
    | null =>
      cases hok
      exact ⟨rfl, nofun, nofun, fun {t} ht => by cases t <;> cases ht; rfl⟩
    | _ => exact absurd hok refuse_ne_ok

/-! ## Choices -/

section Choices

variable {choices : List (String × α)} {chosen : String × α}

theorem advances_choiceName : Advances (choiceName choices path) :=
  .bind (advances_located .key) fun _ => by
    split
    · exact .pure _
    · exact advances_refuse

theorem advances_choiceMember : Advances (choiceMember choices path) := by
  refine .bind advances_choiceName fun _ => .bind (advances_located .colon) fun _ =>
    .bind (nothing_reads.advances _) fun _ => .bind (advances_located .peekToken?) fun _ => ?_
  split
  · exact advances_located (.fail _)
  · exact .bind (advances_located .skip) fun _ => .pure _
  · exact advances_located (.fail _)

theorem choiceName_ok (h : choiceName choices path c = .ok chosen c') :
    chosen ∈ choices ∧ Json.key c = .ok (Utf8.ofText chosen.1) c' := by
  obtain ⟨name, c₁, hkey, h⟩ := Steps.bind_eq_ok_iff.mp h
  cases hfind : choices.find? fun choice => Utf8.ofText choice.1 == name with
  | some found =>
    rw [hfind] at h
    cases h
    have hname := List.find?_some hfind
    exact ⟨List.mem_of_find?_eq_some hfind, eq_of_beq hname ▸ located_ok_iff.mp hkey⟩
  | none =>
    rw [hfind] at h
    exact absurd h refuse_ne_ok

theorem choiceMember_holds {c₁ : Json.Cursor} (hkey : Json.nextKey true c = .ok true c₁)
    (h : choiceMember choices path c₁ = .ok a c') :
    ∃ name c₂, (name, a) ∈ choices ∧ HoldsMembers 0 0 c [(Utf8.ofText name, .null)] c₂ ∧
      Json.objectEnd c₂ = .ok () c' := by
  obtain ⟨⟨name, value⟩, c₂, hname, h⟩ := Steps.bind_eq_ok_iff.mp h
  obtain ⟨_, c₃, hcolon, h⟩ := Steps.bind_eq_ok_iff.mp h
  obtain ⟨_, c₄, hnull, h⟩ := Steps.bind_eq_ok_iff.mp h
  obtain ⟨b?, c₅, hpeek, h⟩ := Steps.bind_eq_ok_iff.mp h
  obtain ⟨hmem, hname⟩ := choiceName_ok hname
  obtain ⟨t, ht, rfl⟩ := nothing_reads.value hnull
  have hpeek := located_ok_iff.mp hpeek
  split at h
  · cases h
  · obtain ⟨_, c₆, hskip, h⟩ := Steps.bind_eq_ok_iff.mp h
    cases h
    -- where the object ends, no other member follows
    have hlast : Json.nextKey false c₄ = .ok false c₅ := Steps.bind_ok hpeek
    have hend : Json.objectEnd c₅ = .ok () c' :=
      (Steps.bind_ok (Json.peekToken?_again hpeek)).trans (located_ok_iff.mp hskip)
    exact ⟨name, c₅, hmem, .cons hkey hname (located_ok_iff.mp hcolon) ht (.nil hlast), hend⟩
  · cases h

theorem choice_reads (choices : List (String × α)) :
    Reads 1 (IsChoice choices) (choice choices) where
  advances path := by
    refine .bind (advances_located .peekToken?) fun b? => ?_
    split
    · exact advances_located (.fail _)
    · exact .bind advances_choiceName fun _ => .pure _
    · refine .bind (advances_located .skip) fun _ =>
        .bind (advances_located (.nextKey _)) fun _ => ?_
      split
      · exact advances_choiceMember
      · exact advances_located (.failNext _)
    · exact advances_located (.failNext _)
  value h := by
    obtain ⟨b?, c₁, hpeek, h⟩ := Steps.bind_eq_ok_iff.mp h
    have hpeek := located_ok_iff.mp hpeek
    split at h
    · cases h
    · obtain ⟨⟨name, value⟩, c₂, hname, h⟩ := Steps.bind_eq_ok_iff.mp h
      cases h
      obtain ⟨hmem, hkey⟩ := choiceName_ok hname
      have htext : Holds 0 _ (.text (Utf8.ofText name)) _ := .scalar (Json.token_key hpeek hkey) rfl
      exact ⟨_, htext.mono (Nat.zero_le 1), name, hmem, .inl rfl⟩
    · obtain ⟨_, c₂, hskip, h⟩ := Steps.bind_eq_ok_iff.mp h
      obtain ⟨more, c₃, hmore, h⟩ := Steps.bind_eq_ok_iff.mp h
      cases more with
      | true =>
        obtain ⟨name, c₄, hmem, hmembers, hend⟩ := choiceMember_holds (located_ok_iff.mp hmore) h
        have hopen := Json.token_objectStart hpeek (located_ok_iff.mp hskip)
        exact ⟨_, .map hopen hmembers hend, name, hmem, .inr rfl⟩
      | false => exact absurd (located_ok_iff.mp h) Json.failNext_ne_ok
    · exact absurd (located_ok_iff.mp h) Json.failNext_ne_ok

end Choices

/-! ## Lists -/

theorem nextValue_holds {item : Path → Reading α} (h : Reads levels means item) {round : Nat}
    {values : List α} (hruns : Steps.Gathers (nextValue item path) round c values c') :
    ∃ items, HoldsItems levels round c items c' ∧ List.Forall₂ means items values := by
  induction hruns with
  | nil hstep =>
    obtain ⟨more, c₁, hmore, hstep⟩ := Steps.bind_eq_ok_iff.mp hstep
    cases more with
    | true =>
      obtain ⟨a, c₂, -, hstep⟩ := Steps.bind_eq_ok_iff.mp hstep
      cases hstep
    | false =>
      cases hstep
      exact ⟨[], .nil (located_ok_iff.mp hmore), .nil⟩
  | cons hstep _ ih =>
    obtain ⟨items, hitems, hvalues⟩ := ih
    obtain ⟨more, c₁, hmore, hstep⟩ := Steps.bind_eq_ok_iff.mp hstep
    cases more with
    | true =>
      obtain ⟨a, c₂, hitem, hstep⟩ := Steps.bind_eq_ok_iff.mp hstep
      cases hstep
      obtain ⟨t, ht, ha⟩ := h.value hitem
      exact ⟨t :: items, .cons (located_ok_iff.mp hmore) ht hitems, .cons ha hvalues⟩
    | false => cases hstep

theorem nextValue_spends {item : Path → Reading α} (h : Reads levels means item) {round : Nat}
    (hok : nextValue item path round c = .ok (some a) c') : c'.rest.length < c.rest.length := by
  obtain ⟨more, c₁, hmore, hok⟩ := Steps.bind_eq_ok_iff.mp hok
  cases more with
  | false => cases hok
  | true =>
    obtain ⟨a, c₂, hitem, hok⟩ := Steps.bind_eq_ok_iff.mp hok
    cases hok
    exact Nat.lt_of_lt_of_le (h.spends hitem)
      ((advances_located (.nextItem _)).suffix hmore).length_le

theorem advances_nextValue {item : Path → Reading α} (h : Reads levels means item) (round : Nat) :
    Advances (nextValue item path round) :=
  .bind (advances_located (.nextItem _)) fun _ => by
    split
    · exact .bind (h.advances _) fun _ => .pure _
    · exact .pure _

theorem list_reads {item : Path → Reading α} (h : Reads levels means item) :
    Reads (levels + 1) (IsList means) (list item) where
  advances path := by
    refine .bind (advances_located .peekToken?) fun _ => ?_
    split
    · exact .bind (advances_located .skip) fun _ =>
        .gather_rest (advances_nextValue h) (nextValue_spends h) fun _ =>
          .bind (advances_located .listEnd) fun _ => .pure _
    · exact advances_found_bind fun _ => advances_refuse
  value {path c values c'} h' := by
    obtain ⟨b?, c₁, hpeek, h'⟩ := Steps.bind_eq_ok_iff.mp h'
    have hpeek := located_ok_iff.mp hpeek
    split at h'
    · obtain ⟨_, c₂, hskip, h'⟩ := Steps.bind_eq_ok_iff.mp h'
      rw [Steps.bind_ok (Steps.get_apply _)] at h'
      obtain ⟨values, c₃, hloop, h'⟩ := Steps.bind_eq_ok_iff.mp h'
      obtain ⟨_, c₄, hend, h'⟩ := Steps.bind_eq_ok_iff.mp h'
      cases h'
      have hruns := Steps.gathers_of_gather (fun c => c.rest.length) (nextValue_spends h)
        (Nat.le_refl _) hloop
      obtain ⟨items, hitems, hmeans⟩ := nextValue_holds h hruns
      have hopen := Json.token_listStart hpeek (located_ok_iff.mp hskip)
      exact ⟨_, .list hopen hitems (located_ok_iff.mp hend), items, rfl, hmeans⟩
    · obtain ⟨f, c₂, -, h'⟩ := Steps.bind_eq_ok_iff.mp h'
      exact absurd h' refuse_ne_ok

end TreeDigest.Settings
