import TreeDigest.Json.Token
import TreeDigest.Proofs.Steps

/-!
# Parsers only move on

A step of reading that succeeds leaves an end of the text it was given, so that nothing is
read twice. It looks at what it leaves too, since a number ends where something stands that
is no part of it; but it looks at one octet of that at most. So where something is left,
the step *advances*: it does the same whatever comes after that.

This is so of steps with faults of any kind, and it goes through sequences. A loop is bounded
by the octets that are left, and there it takes besides that each round uses up one of them.
-/

namespace TreeDigest.Json

/-- A step that succeeds leaves an end of what was left, and the rest can be exchanged. -/
structure Advances {ε α : Type} (step : EStateM ε Cursor α) : Prop where
  suffix : ∀ {c a c'}, step c = .ok a c' → c'.rest <:+ c.rest
  /-- What stands after some octet that the step leaves does not matter. -/
  settled : ∀ {place place' octets left rest a},
    step ⟨place, octets ++ rest⟩ = .ok a ⟨place', left ++ rest⟩ → left ≠ [] →
      ∀ more, step ⟨place, octets ++ more⟩ = .ok a ⟨place', left ++ more⟩

/-- A step that succeeds uses up an octet. -/
structure Spends {ε α : Type} (step : EStateM ε Cursor α) : Prop where
  lt : ∀ {c a c'}, step c = .ok a c' → c'.rest.length < c.rest.length

theorem failNext_ne_ok {α : Type} {cause : Cause} {c c' : Cursor} {a : α} :
    Parser.failNext cause c ≠ .ok a c' := by
  obtain ⟨place, octets⟩ := c
  cases octets <;> exact nofun

namespace Advances

variable {ε α β ρ : Type} {step : EStateM ε Cursor α} {next : α → EStateM ε Cursor β}

/-! ## Sequences -/

theorem pure (a : α) : Advances (pure a : EStateM ε Cursor α) where
  suffix h := by cases h; exact List.suffix_refl _
  settled h _ more := by
    injection h with ha hc
    injection hc with hplace hoctets
    rw [← ha, ← hplace, ← List.append_cancel_right hoctets]
    rfl

/-- A step that never succeeds. -/
theorem never (h : ∀ c a c', step c ≠ .ok a c') : Advances step where
  suffix hok := absurd hok (h _ _ _)
  settled hok := absurd hok (h _ _ _)

theorem throw (e : ε) : Advances (throw e : EStateM ε Cursor α) := never nofun

/-- A sequence, where the second step only has to be one that advances if it is reached. -/
theorem bind_reached (h : Advances step)
    (hnext : ∀ {c a c'}, step c = .ok a c' → Advances (next a)) : Advances (step >>= next) where
  suffix hok := by
    obtain ⟨a, c₁, hp, hn⟩ := Steps.bind_eq_ok_iff.mp hok
    exact ((hnext hp).suffix hn).trans (h.suffix hp)
  settled {place place' octets left rest b} hok hleft more := by
    obtain ⟨a, ⟨place₁, octets₁⟩, hp, hn⟩ := Steps.bind_eq_ok_iff.mp hok
    -- what is left in the end was left in between
    obtain ⟨taken, htaken⟩ := (hnext hp).suffix hn
    obtain rfl : (taken ++ left) ++ rest = octets₁ := by rw [List.append_assoc]; exact htaken
    have hbetween : taken ++ left ≠ [] := List.append_ne_nil_of_right_ne_nil _ hleft
    rw [Steps.bind_ok (h.settled hp hbetween more)]
    exact (hnext hp).settled hn hleft more

theorem bind (h : Advances step) (hnext : ∀ a, Advances (next a)) : Advances (step >>= next) :=
  bind_reached h fun _ => hnext _

/-- A step that depends on the place and not on the octets. -/
theorem get_bind {next : Cursor → EStateM ε Cursor β} (h : ∀ c, Advances (next c))
    (hplace : ∀ place octets octets', next ⟨place, octets⟩ = next ⟨place, octets'⟩) :
    Advances (get >>= next) where
  suffix hok := by
    rw [Steps.bind_ok (Steps.get_apply _)] at hok
    exact (h _).suffix hok
  settled {place place' octets left rest b} hok hleft more := by
    rw [Steps.bind_ok (Steps.get_apply _)] at hok ⊢
    rw [hplace place _ (octets ++ rest)]
    exact (h _).settled hok hleft more

theorem failAt (place : Place) (cause : Cause) : Advances (Parser.failAt (α := α) place cause) :=
  throw _

theorem fail (cause : Cause) : Advances (Parser.fail (α := α) cause) := never nofun

theorem failNext (cause : Cause) : Advances (Parser.failNext (α := α) cause) :=
  never fun _ _ _ => failNext_ne_ok

/-! ## Octets -/

theorem peek? : Advances Parser.peek? where
  suffix h := by cases h; exact List.suffix_refl _
  settled {place place' octets left rest b?} h hleft more := by
    injection h with hb hc
    injection hc with hplace hoctets
    obtain rfl := List.append_cancel_right hoctets
    obtain ⟨b, left, rfl⟩ := List.exists_cons_of_ne_nil hleft
    rw [← hb, ← hplace]
    rfl

/-- Where something is left, something was there. -/
theorem ne_nil_of_suffix {octets left rest : Bytes} (h : left ++ rest <:+ octets ++ rest)
    (hleft : left ≠ []) : octets ≠ [] := by
  rintro rfl
  have hle := h.length_le
  have hpos := List.length_pos_iff.mpr hleft
  rw [List.length_append, List.length_append, List.length_nil] at hle
  omega

theorem next? : Advances Parser.next? := by
  have hsuffix : ∀ {c b? c'}, Parser.next? c = .ok b? c' → c'.rest <:+ c.rest := by
    intro c b? c' h
    obtain ⟨place, octets⟩ := c
    cases octets with
    | nil => cases h; exact List.suffix_refl _
    | cons b rest => cases h; exact List.suffix_cons b rest
  refine ⟨hsuffix, fun {place place' octets left rest b?} h hleft more => ?_⟩
  obtain ⟨b, octets, rfl⟩ := List.exists_cons_of_ne_nil (ne_nil_of_suffix (hsuffix h) hleft)
  injection h with hb hc
  injection hc with hplace hoctets
  rw [← hb, ← hplace, ← List.append_cancel_right hoctets]
  rfl

/-- The next octet, if it has to be there. -/
theorem next?_bind {next : Option UInt8 → Parser β} (hnone : ∀ c a c', next none c ≠ .ok a c')
    (h : ∀ b?, Advances (next b?)) :
    Advances (Parser.next? >>= next) ∧ Spends (Parser.next? >>= next) := by
  refine ⟨bind next? h, ⟨fun {c a c'} hok => ?_⟩⟩
  obtain ⟨place, octets⟩ := c
  cases octets with
  | nil => exact absurd hok (hnone _ _ _)
  | cons b octets => exact Nat.lt_succ_of_le ((h (some b)).suffix hok).length_le

theorem skip : Advances Parser.skip := bind next? fun _ => pure _

theorem takeWhile (test : UInt8 → Bool) : Advances (Parser.takeWhile test) where
  suffix h := by cases h; exact List.drop_suffix _ _
  settled {place place' octets left rest taken} h hleft more := by
    injection h with htaken hc
    injection hc with hplace hoctets
    dsimp only at htaken hoctets hplace
    rw [htaken] at hoctets hplace
    -- an octet that fails the test is among those before the rest, since one of them is left
    have hstops : (octets.takeWhile test).length ≠ octets.length := by
      intro hall
      rw [List.takeWhile_append, if_pos hall] at htaken
      have hlen := congrArg List.length hoctets
      have hpos := List.length_pos_iff.mpr hleft
      rw [← htaken, List.length_drop, List.length_append, List.length_append,
        List.length_append] at hlen
      omega
    have hsame : ∀ rest, (octets ++ rest).takeWhile test = octets.takeWhile test := fun rest => by
      rw [List.takeWhile_append, if_neg hstops]
    obtain rfl : octets.takeWhile test = taken := (hsame rest).symm.trans htaken
    have hle : (octets.takeWhile test).length ≤ octets.length := (List.takeWhile_prefix _).length_le
    rw [List.drop_append_of_le_length hle] at hoctets
    rw [Parser.takeWhile]
    dsimp only
    rw [hsame, hplace, List.drop_append_of_le_length hle, List.append_cancel_right hoctets]

theorem peekToken? : Advances Parser.peekToken? :=
  bind (bind (takeWhile _) fun _ => pure _) fun _ => peek?

/-! ## Loops -/

theorem gather {step : Nat → EStateM ε Cursor (Option α)} {room : List ρ}
    (h : ∀ round, Advances (step round)) : Advances (Loop.gather step room) := by
  have honto : ∀ (room : List ρ) round done, Advances (Loop.gatherOnto step round done room) := by
    intro room
    induction room with
    | nil =>
      refine fun round done => bind (h round) fun a? => ?_
      cases a? <;> exact pure _
    | cons _ room ih =>
      refine fun round done => bind (h round) fun a? => ?_
      cases a? with
      | none => exact pure _
      | some a => exact ih _ _
  exact bind (honto room 0 []) fun _ => pure _

section Rest

variable {step : Nat → EStateM ε Cursor (Option α)} {round : Nat} {c c' : Cursor} {results : List α}

theorem gathers_suffix (h : ∀ round, Advances (step round))
    (hruns : Steps.Gathers step round c results c') : c'.rest <:+ c.rest := by
  induction hruns with
  | nil hstep => exact (h _).suffix hstep
  | cons hstep _ ih => exact ih.trans ((h _).suffix hstep)

/-- Where each round uses up an octet there are no more rounds than octets. -/
theorem gathers_length_le
    (hspends : ∀ {round c a c'}, step round c = .ok (some a) c' → c'.rest.length < c.rest.length)
    (hruns : Steps.Gathers step round c results c') : results.length ≤ c.rest.length := by
  induction hruns with
  | nil hstep => exact Nat.zero_le _
  | cons hstep _ ih =>
    have hlt := hspends hstep
    rw [List.length_cons]
    omega

theorem gathers_settled (h : ∀ round, Advances (step round)) {place place' : Place}
    {octets left rest : Bytes}
    (hruns : Steps.Gathers step round ⟨place, octets ++ rest⟩ results ⟨place', left ++ rest⟩)
    (hleft : left ≠ []) (more : Bytes) :
    Steps.Gathers step round ⟨place, octets ++ more⟩ results ⟨place', left ++ more⟩ := by
  generalize hc : (⟨place, octets ++ rest⟩ : Cursor) = c at hruns
  generalize hc' : (⟨place', left ++ rest⟩ : Cursor) = c' at hruns
  induction hruns generalizing place octets with
  | nil hstep =>
    subst hc hc'
    exact .nil ((h _).settled hstep hleft more)
  | @cons _ _ c₁ _ _ _ hstep hruns ih =>
    obtain ⟨place₁, octets₁⟩ := c₁
    subst hc hc'
    -- what is left in the end was left after the round
    obtain ⟨taken, htaken⟩ := gathers_suffix h hruns
    obtain rfl : (taken ++ left) ++ rest = octets₁ := by rw [List.append_assoc]; exact htaken
    have hbetween : taken ++ left ≠ [] := List.append_ne_nil_of_right_ne_nil _ hleft
    exact .cons ((h _).settled hstep hbetween more) (ih rfl rfl)

/-- A loop for as many rounds as there are octets, each of which uses up one. -/
theorem gather_rest {next : List α → EStateM ε Cursor β} (h : ∀ round, Advances (step round))
    (hspends : ∀ {round c a c'}, step round c = .ok (some a) c' → c'.rest.length < c.rest.length)
    (hnext : ∀ results, Advances (next results)) :
    Advances (do let results ← Loop.gather step (← get).rest; next results) := by
  have hloop : Advances (do Loop.gather step (← get).rest : EStateM ε Cursor (List α)) := by
    have hsuffix : ∀ room : Bytes, Advances (Loop.gather step room) := fun _ => gather h
    refine ⟨fun {c _ _} hok => (hsuffix c.rest).suffix hok, fun hok hleft more => ?_⟩
    have hruns := gathers_settled h
      (Steps.gathers_of_gather (fun c => c.rest.length) hspends (Nat.le_refl _) hok) hleft more
    exact hruns.gather (gathers_length_le hspends hruns)
  have hassoc := bind hloop hnext
  rwa [bind_assoc] at hassoc

end Rest

/-! ## Numbers -/

theorem digits : Advances digits :=
  bind (takeWhile _) fun all => by
    cases all with
    | nil =>
      refine bind peek? fun b? => ?_
      cases b? with
      | none => exact fail _
      | some b => exact failNext _
    | cons b rest => exact pure _

theorem whole : Advances whole :=
  get_bind (fun _ => bind digits fun _ => by
    split
    · exact failAt _ _
    · exact pure _) fun _ _ _ => rfl

theorem fraction : Advances fraction :=
  bind peek? fun _ => by
    split
    · exact bind skip fun _ => digits
    · exact pure _

theorem takeSign : Advances exponent.takeSign :=
  bind peek? fun _ => by
    split
    · exact bind skip fun _ => pure _
    · exact bind skip fun _ => pure _
    · exact pure _

theorem exponent (isZero : Bool) : Advances (exponent isZero) :=
  bind peek? fun _ => by
    split
    -- a mark of either case is followed by a sign and by digits
    iterate 2
      refine bind skip fun _ => bind takeSign fun _ =>
        get_bind (fun _ => bind digits fun _ => ?_) fun _ _ _ => rfl
      split
      · split
        · exact pure _
        · exact failAt _ _
      · exact pure _
      · exact pure _
    exact pure _

theorem rounded (negative : Bool) (d : Decimal) : Advances (rounded negative d) := by
  unfold Json.rounded
  dsimp only
  split
  · exact pure _
  · exact fail _

theorem integer (negative : Bool) (n : Nat) : Advances (integer negative n) := by
  unfold Json.integer
  split
  · split
    · exact pure _
    · exact rounded _ _
  · split
    · exact pure _
    · exact rounded _ _

theorem number (negative : Bool) : Advances (number negative) :=
  bind whole fun _ => bind fraction fun _ => bind (exponent _) fun _ => by
    split
    · exact integer _ _
    · exact rounded _ _

/-! ## Strings -/

/-- The unit that four digits are, once they have been taken. -/
theorem unit (digits : Bytes) : Advances (if digits.length < 4 then Parser.fail .endInString
    else match Bytes.ofHex? digits with
      | some unit => Pure.pure unit
      | none => Parser.fail .invalidEscape : Parser Nat) := by
  split
  · exact fail _
  · split
    · exact pure _
    · exact fail _

theorem codeUnit : Advances codeUnit := by
  -- the digits are dropped before anything else is looked at
  have hdrop : ∀ c, Json.codeUnit c = (if (c.rest.take 4).length < 4 then Parser.fail .endInString
    else match Bytes.ofHex? (c.rest.take 4) with
      | some unit => Pure.pure unit
      | none => Parser.fail .invalidEscape : Parser Nat)
        ⟨(c.rest.take 4).foldl Place.after c.place, c.rest.drop 4⟩ := fun _ => rfl
  refine ⟨fun {c _ _} h => ?_, fun {place place' octets left rest n} h hleft more => ?_⟩
  · rw [hdrop] at h
    exact ((unit _).suffix h).trans (List.drop_suffix 4 c.rest)
  · have hsuffix : left ++ rest <:+ (octets ++ rest).drop 4 := by
      rw [hdrop] at h
      exact (unit _).suffix h
    have hfour : 4 ≤ octets.length := by
      have hle := hsuffix.length_le
      have hpos := List.length_pos_iff.mpr hleft
      rw [List.length_drop, List.length_append, List.length_append] at hle
      omega
    rw [hdrop] at h ⊢
    rw [List.take_append_of_le_length hfour, List.drop_append_of_le_length hfour] at h ⊢
    exact (unit _).settled h hleft more

theorem expectUnfinished (expected : UInt8) : Advances (expectUnfinished expected) :=
  bind next? fun _ => by
    split
    · exact fail _
    · split
      · exact pure _
      · exact fail _

theorem unicodeEscape : Advances unicodeEscape :=
  bind codeUnit fun _ => by
    split
    · exact fail _
    · split
      · refine bind (expectUnfinished _) fun _ => bind (expectUnfinished _) fun _ =>
          bind codeUnit fun _ => ?_
        split
        · exact pure _
        · exact fail _
      · exact pure _

theorem escape : Advances escape :=
  bind next? fun _ => by
    split
    · exact fail _
    iterate 8 exact pure _
    · exact unicodeEscape
    · exact fail _

theorem piece : Advances piece ∧ Spends piece := next?_bind nofun fun _ => by
  split
  · exact fail _
  · exact pure _
  · exact bind escape fun _ => pure _
  · split
    · exact fail _
    · exact pure _

theorem text : Advances text :=
  gather_rest (fun _ => piece.1) piece.2.lt fun _ => by
    dsimp only
    split
    · exact pure _
    · exact get_bind (fun _ => failAt _ _) fun _ _ _ => rfl

/-! ## Tokens and separators -/

theorem word (expected : Bytes) : Advances (word expected) := by
  induction expected with
  | nil => exact pure _
  | cons b expected ih =>
    refine bind next? fun _ => ?_
    split
    · exact fail _
    · split
      · exact ih
      · exact fail _

theorem token : Advances token :=
  bind peekToken? fun _ => by
    split
    · exact fail _
    iterate 3 exact bind skip fun _ => bind (word _) fun _ => pure _
    · exact bind skip fun _ => bind (number _) fun _ => pure _
    · exact bind skip fun _ => bind text fun _ => pure _
    iterate 2 exact bind skip fun _ => pure _
    · split
      · exact bind (number _) fun _ => pure _
      · exact failNext _

theorem nextItem (isFirst : Bool) : Advances (nextItem isFirst) :=
  bind peekToken? fun _ => by
    split
    · exact fail _
    · exact pure _
    · split
      · exact pure _
      · split
        · refine bind skip fun _ => bind peekToken? fun _ => ?_
          split
          · exact fail _
          · exact failNext _
          · exact pure _
        · exact failNext _

theorem listEnd : Advances listEnd :=
  bind peekToken? fun _ => by
    split
    · exact fail _
    · exact skip
    · refine bind skip fun _ => bind peekToken? fun _ => ?_
      split
      · exact failNext _
      · exact failNext _
    · exact failNext _

theorem nextKey (isFirst : Bool) : Advances (nextKey isFirst) :=
  bind peekToken? fun _ => by
    split
    · exact fail _
    · exact pure _
    · split
      · split
        · exact pure _
        · exact failNext _
      · split
        · refine bind skip fun _ => bind peekToken? fun _ => ?_
          split
          · exact fail _
          · exact pure _
          · exact failNext _
          · exact failNext _
        · exact failNext _

theorem key : Advances key := bind skip fun _ => text

theorem colon : Advances colon :=
  bind peekToken? fun _ => by
    split
    · exact fail _
    · exact skip
    · exact failNext _

theorem objectEnd : Advances objectEnd :=
  bind peekToken? fun _ => by
    split
    · exact fail _
    · exact skip
    · exact failNext _
    · exact failNext _

end Advances

/-! ## Using up -/

/-- Before a certain octet, a step that succeeds uses it up. -/
structure SpendsFrom {α : Type} (b : UInt8) (step : Parser α) : Prop where
  le : ∀ {place octets a c'}, step ⟨place, b :: octets⟩ = .ok a c' → c'.rest.length ≤ octets.length

namespace SpendsFrom

variable {α β : Type} {b : UInt8} {step : Parser α} {next : α → Parser β}

theorem failNext (cause : Cause) : SpendsFrom b (Parser.failNext (α := α) cause) := ⟨nofun⟩

theorem skip_bind {next : Parser β} (h : Advances next) : SpendsFrom b (do Parser.skip; next) :=
  ⟨fun hok => (h.suffix hok).length_le⟩

theorem bind (h : SpendsFrom b step) (hnext : ∀ a, Advances (next a)) :
    SpendsFrom b (step >>= next) where
  le hok := by
    obtain ⟨a, c₁, hstep, hn⟩ := Steps.bind_eq_ok_iff.mp hok
    exact Nat.le_trans ((hnext a).suffix hn).length_le (h.le hstep)

theorem digits (hb : Bytes.isDigit b = true) : SpendsFrom b digits where
  le {place octets all c'} hok := by
    have htaken : Parser.takeWhile Bytes.isDigit ⟨place, b :: octets⟩ =
        .ok (b :: octets.takeWhile Bytes.isDigit)
          ⟨(octets.takeWhile Bytes.isDigit).foldl Place.after (place.after b),
            octets.drop (octets.takeWhile Bytes.isDigit).length⟩ := by
      rw [Parser.takeWhile]
      dsimp only
      rw [List.takeWhile_cons_of_pos hb]
      rfl
    rw [Json.digits, Steps.bind_ok htaken] at hok
    cases hok
    exact (List.drop_suffix _ _).length_le

theorem whole (hb : Bytes.isDigit b = true) : SpendsFrom b whole where
  le hok := by
    rw [Json.whole, Steps.bind_ok (Steps.get_apply _)] at hok
    refine (bind (digits hb) fun _ => ?_).le hok
    split
    · exact .failAt _ _
    · exact .pure _

theorem number (hb : Bytes.isDigit b = true) : SpendsFrom b (number false) :=
  bind (whole hb) fun _ => .bind .fraction fun _ => .bind (.exponent _) fun _ => by
    split
    · exact .integer _ _
    · exact .rounded _ _

end SpendsFrom

theorem drop_length_takeWhile (test : UInt8 → Bool) (octets : Bytes) :
    octets.drop (octets.takeWhile test).length = octets.dropWhile test := by
  have hdrop := congrArg (List.drop (octets.takeWhile test).length)
    (List.takeWhile_append_dropWhile (p := test) (l := octets))
  rw [List.drop_left] at hdrop
  exact hdrop.symm

/-- The octet that is seen next is there, and it is no blank. -/
theorem peekToken?_some {b : UInt8} {c c' : Cursor} (h : Parser.peekToken? c = .ok (some b) c') :
    ∃ octets, c'.rest = b :: octets ∧ Parser.isBlank b = false := by
  injection h with hb hc
  subst hc
  rw [drop_length_takeWhile] at hb ⊢
  have hblank := List.head?_dropWhile_not Parser.isBlank c.rest
  rw [hb] at hblank
  obtain ⟨octets, hoctets⟩ := List.head?_eq_some_iff.mp hb
  exact ⟨octets, hoctets, hblank⟩

/-- **A token is an octet at least.** -/
theorem token_spends : Spends token where
  lt {c next c'} h := by
    obtain ⟨b?, c₁, hpeek, h⟩ := Steps.bind_eq_ok_iff.mp h
    have hle := (Advances.peekToken?.suffix hpeek).length_le
    -- what was seen is the next octet, and whatever token it begins uses it up
    have hfrom : ∀ {α : Type} {b : UInt8} {step : Parser α} {a : α}, b? = some b →
        SpendsFrom b step → step c₁ = .ok a c' → c'.rest.length < c.rest.length := by
      intro α b step a hb hspends hok
      subst hb
      obtain ⟨octets, hoctets, -⟩ := peekToken?_some hpeek
      obtain ⟨place, octets₁⟩ := c₁
      obtain rfl : octets₁ = b :: octets := hoctets
      exact Nat.lt_of_lt_of_le (Nat.lt_succ_of_le (hspends.le hok)) hle
    split at h
    · cases h
    iterate 3 exact hfrom rfl (.skip_bind (.bind (.word _) fun _ => .pure _)) h
    · exact hfrom rfl (.skip_bind (.bind (.number _) fun _ => .pure _)) h
    · exact hfrom rfl (.skip_bind (.bind .text fun _ => .pure _)) h
    iterate 2 exact hfrom rfl (.skip_bind (.pure _)) h
    · split at h
      · rename_i hdigit
        exact hfrom rfl (.bind (.number hdigit) fun _ => .pure _) h
      · exact hfrom rfl (.failNext _) h

end TreeDigest.Json
