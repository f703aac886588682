import Mathlib.Data.List.TakeWhile
import TreeDigest.Proofs.Json.Advance

/-!
# Where a text closes

A number goes on until something stands that is no part of it, but a container ends with a
delimiter of its own. A step that ends with one *closes*: nothing that comes after it makes a
difference, also where nothing else is left. A whole text does not close, since it is looked
at up to its end.
-/

namespace TreeDigest.Json

/-! ## Looking ahead -/

/-- What was seen next is seen again, where the cursor was left. -/
theorem peekToken?_again {b? : Option UInt8} {c c' : Cursor} (h : Parser.peekToken? c = .ok b? c') :
    Parser.peekToken? c' = .ok b? c' := by
  injection h with hb hc
  subst hc
  have hnone : Parser.takeWhile Parser.isBlank
      ⟨(c.rest.takeWhile Parser.isBlank).foldl Place.after c.place,
        c.rest.drop (c.rest.takeWhile Parser.isBlank).length⟩ = .ok []
      ⟨(c.rest.takeWhile Parser.isBlank).foldl Place.after c.place,
        c.rest.drop (c.rest.takeWhile Parser.isBlank).length⟩ := by
    have htaken : (c.rest.dropWhile Parser.isBlank).takeWhile Parser.isBlank = [] := by
      have hblank := List.head?_dropWhile_not Parser.isBlank c.rest
      cases hrest : c.rest.dropWhile Parser.isBlank with
      | nil => rfl
      | cons b left =>
        rw [hrest] at hblank
        exact List.takeWhile_cons_of_neg (by rw [hblank]; exact Bool.false_ne_true)
    rw [Parser.takeWhile, drop_length_takeWhile]
    dsimp only
    rw [htaken]
    rfl
  rw [Parser.peekToken?, Parser.skipBlanks, bind_assoc, Steps.bind_ok hnone]
  exact congrArg (EStateM.Result.ok · _) hb

/-- A step that begins by looking what is next can as well begin there. -/
theorem peek_bind_again {α : Type} {next : Option UInt8 → Parser α} {b? : Option UInt8}
    {c c' : Cursor} (h : Parser.peekToken? c = .ok b? c') :
    (Parser.peekToken? >>= next) c = (Parser.peekToken? >>= next) c' := by
  rw [Steps.bind_ok h, Steps.bind_ok (peekToken?_again h)]

/-- A text is at its end where nothing is left but blanks. -/
theorem finished_ok_iff {c : Cursor} :
    (∃ c', Parser.finished c = .ok () c') ↔ ∀ b ∈ c.rest, Parser.isBlank b = true := by
  rw [← List.dropWhile_eq_nil_iff, ← drop_length_takeWhile]
  constructor
  · rintro ⟨c', h⟩
    obtain ⟨b?, c₁, hpeek, h⟩ := Steps.bind_eq_ok_iff.mp h
    cases b? with
    | none =>
      injection hpeek with hb hc
      exact List.head?_eq_none_iff.mp hb
    | some b =>
      obtain ⟨octets, hoctets, -⟩ := peekToken?_some hpeek
      obtain ⟨place, octets₁⟩ := c₁
      obtain rfl : octets₁ = b :: octets := hoctets
      cases h
  · intro hnil
    have hpeek : Parser.peekToken? c = .ok none
        ⟨(c.rest.takeWhile Parser.isBlank).foldl Place.after c.place,
          c.rest.drop (c.rest.takeWhile Parser.isBlank).length⟩ :=
      congrArg (EStateM.Result.ok · _) (List.head?_eq_none_iff.mpr hnil)
    exact ⟨_, Steps.bind_ok hpeek⟩

/-! ## Closing -/

/--
A step that ends with a delimiter: it uses up an octet, and the rest can be exchanged though
nothing else is left.
-/
structure Closes {ε α : Type} (step : EStateM ε Cursor α) : Prop
    extends Advances step, Spends step where
  closed : ∀ {place place' octets rest a},
    step ⟨place, octets ++ rest⟩ = .ok a ⟨place', rest⟩ →
      ∀ more, step ⟨place, octets ++ more⟩ = .ok a ⟨place', more⟩

namespace Closes

variable {ε α β : Type} {step : EStateM ε Cursor α} {next : α → EStateM ε Cursor β}

theorem never (h : ∀ c a c', step c ≠ .ok a c') : Closes step where
  toAdvances := .never h
  lt hok := absurd hok (h _ _ _)
  closed hok := absurd hok (h _ _ _)

/-- A step before one that closes. -/
theorem after (h : Advances step) (hnext : ∀ a, Closes (next a)) : Closes (step >>= next) where
  toAdvances := .bind h fun a => (hnext a).toAdvances
  lt hok := by
    obtain ⟨a, c₁, hp, hn⟩ := Steps.bind_eq_ok_iff.mp hok
    exact Nat.lt_of_lt_of_le ((hnext a).lt hn) (h.suffix hp).length_le
  closed {place place' octets rest b} hok more := by
    obtain ⟨a, ⟨place₁, octets₁⟩, hp, hn⟩ := Steps.bind_eq_ok_iff.mp hok
    obtain ⟨taken, htaken⟩ := (hnext a).suffix hn
    obtain rfl : taken ++ rest = octets₁ := htaken
    -- the delimiter was left before it was read
    have hbetween : taken ≠ [] := by
      rintro rfl
      exact absurd ((hnext a).lt hn) (Nat.lt_irrefl _)
    rw [Steps.bind_ok (h.settled hp hbetween more)]
    exact (hnext a).closed hn more

/-- A step that closes before nothing but a result. -/
theorem map (h : Closes step) (g : α → β) : Closes (do return g (← step)) where
  toAdvances := .bind h.toAdvances fun _ => .pure _
  lt hok := by
    obtain ⟨a, c₁, hp, hn⟩ := Steps.bind_eq_ok_iff.mp hok
    cases hn
    exact h.lt hp
  closed hok more := by
    obtain ⟨a, c₁, hp, hn⟩ := Steps.bind_eq_ok_iff.mp hok
    cases hn
    rw [Steps.bind_ok (h.closed hp more)]
    rfl

/-- A delimiter that is next, and the only octet with which a step succeeds. -/
theorem delimiter {next : Option UInt8 → Parser Unit} (b : UInt8) (hb : next (some b) = Parser.skip)
    (h : ∀ {b? c a c'}, next b? c = .ok a c' → b? = some b)
    (hadvances : Advances (Parser.peekToken? >>= next)) : Closes (Parser.peekToken? >>= next) := by
  have hends : ∀ {c a c'}, (Parser.peekToken? >>= next) c = .ok a c' →
      ∃ place, Parser.peekToken? c = .ok (some b) ⟨place, b :: c'.rest⟩ ∧
        c'.place = place.after b := by
    intro c a c' hok
    obtain ⟨b?, ⟨place, octets⟩, hpeek, hnext⟩ := Steps.bind_eq_ok_iff.mp hok
    obtain rfl := h hnext
    obtain ⟨rest, hrest, -⟩ := peekToken?_some hpeek
    obtain rfl : octets = b :: rest := hrest
    rw [hb] at hnext
    cases hnext
    exact ⟨place, hpeek, rfl⟩
  refine ⟨hadvances, ⟨fun hok => ?_⟩, fun {place place' octets rest a} hok more => ?_⟩
  · obtain ⟨place, hpeek, -⟩ := hends hok
    exact Nat.lt_of_lt_of_le (Nat.lt_succ_self _) (Advances.peekToken?.suffix hpeek).length_le
  · obtain ⟨place₁, hpeek, hplace⟩ := hends hok
    have hleft : Parser.peekToken? ⟨place, octets ++ rest⟩ = .ok (some b) ⟨place₁, [b] ++ rest⟩ :=
      hpeek
    have hpeek' := Advances.peekToken?.settled hleft (List.cons_ne_nil _ _) more
    dsimp only at hplace
    rw [Steps.bind_ok hpeek', hb, hplace]
    rfl

end Closes

theorem listEnd_closes : Closes listEnd := by
  refine .delimiter 0x5D rfl (fun {b? c a c'} h => ?_) .listEnd
  split at h
  · cases h
  · rfl
  · obtain ⟨_, c₁, -, h⟩ := Steps.bind_eq_ok_iff.mp h
    obtain ⟨b?, c₂, -, h⟩ := Steps.bind_eq_ok_iff.mp h
    split at h <;> exact absurd h failNext_ne_ok
  · exact absurd h failNext_ne_ok

theorem objectEnd_closes : Closes objectEnd := by
  refine .delimiter 0x7D rfl (fun {b? c a c'} h => ?_) .objectEnd
  split at h
  · cases h
  · rfl
  · exact absurd h failNext_ne_ok
  · exact absurd h failNext_ne_ok

end TreeDigest.Json
