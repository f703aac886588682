import TreeDigest.Json.Token
import TreeDigest.Proofs.Steps

/-!
# Where parsing leads

A parser *leads* from one input to another if from any place it stops, with a
result, in front of what is left. Unlike the readers of the binary formats a parser
cannot be described by the octets it takes alone: a number ends where something
follows that cannot be part of it. So the whole rest of the input is in the relation,
and the place is not, since nothing that succeeds depends on it.
-/

namespace TreeDigest.Json

/-- From any place, a parser goes from one input to another. -/
structure Parser.Leads {α : Type} (parser : Parser α) (input : Bytes) (a : α) (rest : Bytes) :
    Prop where
  apply : ∀ place, ∃ place', parser ⟨place, input⟩ = .ok a ⟨place', rest⟩

namespace Parser.Leads

variable {α β γ : Type} {parser : Parser α} {next : α → Parser β} {input middle rest : Bytes}
  {a : α} {b : β}

/-! ## Sequences -/

theorem pure : Leads (pure a : Parser α) input a input := ⟨fun place => ⟨place, rfl⟩⟩

theorem bind (h : parser.Leads input a middle) (hnext : (next a).Leads middle b rest) :
    (parser >>= next).Leads input b rest where
  apply place := by
    obtain ⟨place₁, h⟩ := h.apply place
    obtain ⟨place₂, hnext⟩ := hnext.apply place₁
    exact ⟨place₂, by rw [Steps.bind_ok h, hnext]⟩

/-- A step after which the result is looked at in another way. -/
theorem map {g : α → β} (h : parser.Leads input a rest) :
    Leads (do return g (← parser)) input (g a) rest := bind h pure

/-- A step that may depend on the place. -/
theorem get_bind {next : Cursor → Parser β} (h : ∀ place, (next ⟨place, input⟩).Leads input b rest) :
    (get >>= next).Leads input b rest where
  apply place := by
    rw [Steps.bind_ok (Steps.get_apply _)]
    exact (h place).apply place

/-! ## Octets -/

theorem peek? : Parser.peek?.Leads input input.head? input := get_bind fun _ => pure

theorem next? {o : UInt8} : Parser.next?.Leads (o :: rest) (some o) rest :=
  ⟨fun place => ⟨place.after o, rfl⟩⟩

theorem skip {o : UInt8} : Parser.skip.Leads (o :: rest) () rest := bind next? pure

/-- The octets that pass a test, up to one that does not. -/
theorem takeWhile {test : UInt8 → Bool} {taken : Bytes} (h : ∀ o ∈ taken, test o = true)
    (hrest : ∀ o ∈ rest.head?, test o = false) :
    (Parser.takeWhile test).Leads (taken ++ rest) taken rest where
  apply place := by
    have htake : (taken ++ rest).takeWhile test = taken := by
      rw [List.takeWhile_append_of_pos h]
      cases rest with
      | nil => rw [List.takeWhile_nil, List.append_nil]
      | cons o rest => rw [List.takeWhile_cons, hrest o rfl, if_neg Bool.false_ne_true,
          List.append_nil]
    refine ⟨taken.foldl Place.after place, ?_⟩
    rw [Parser.takeWhile]
    dsimp only
    rw [htake, List.drop_left]

/-- The next octet that is not a blank. -/
theorem peekToken? {o : UInt8} (h : Parser.isBlank o = false) :
    Parser.peekToken?.Leads (o :: rest) (some o) (o :: rest) := by
  have hblanks : Parser.skipBlanks.Leads (o :: rest) () (o :: rest) := by
    have htake : (Parser.takeWhile Parser.isBlank).Leads ([] ++ (o :: rest)) [] (o :: rest) := by
      refine takeWhile (fun _ h => nomatch h) ?_
      rintro _ ⟨⟩
      exact h
    exact bind htake pure
  exact bind hblanks peek?

/-! ## Loops -/

/-- A loop over entries, before each of which something may stand that depends on its being first. -/
theorem gather {ρ : Type} {step : Nat → Parser (Option α)} {xs : List γ} {g : γ → α}
    {room : List ρ} (form : Bool → List γ → Bytes)
    (h : ∀ seen x left, xs = seen ++ x :: left →
      (step seen.length).Leads (form (seen.length == 0) (x :: left)) (some (g x)) (form false left))
    (hlast : (step xs.length).Leads (form (xs.length == 0) []) none rest)
    (hroom : xs.length ≤ room.length) :
    Leads (Loop.gather step room) (form true xs) (xs.map g) rest where
  apply place := by
    have hfrom : ∀ seen left, xs = seen ++ left → ∀ place, ∃ place',
        Steps.Gathers step seen.length ⟨place, form (seen.length == 0) left⟩ (left.map g)
          ⟨place', rest⟩ := by
      intro seen left
      induction left generalizing seen with
      | nil =>
        intro hxs place
        rw [List.append_nil] at hxs
        obtain ⟨place', hplace⟩ := hlast.apply place
        rw [hxs] at hplace
        exact ⟨place', .nil hplace⟩
      | cons x left ih =>
        intro hxs place
        obtain ⟨place₁, hstep⟩ := (h seen x left hxs).apply place
        obtain ⟨place₂, hloop⟩ := ih (seen ++ [x]) (by rw [hxs, List.append_assoc]; rfl) place₁
        rw [List.length_append, List.length_singleton] at hloop
        exact ⟨place₂, .cons hstep hloop⟩
    obtain ⟨place', hloop⟩ := hfrom [] xs rfl place
    exact ⟨place', hloop.gather (by rw [List.length_map]; exact hroom)⟩

end Parser.Leads

end TreeDigest.Json
