import TreeDigest.Input.Decoding
import TreeDigest.Proofs.Input.Growth
import TreeDigest.Proofs.Input.Uncounting

/-!
# Readers on longer inputs

A reader that `Persists` does not look beyond what it takes: with more octets behind the
input it takes the same ones and gives the same result, or fails as before. Only a
truncated input is another matter, since what it lacks may be among the octets that were
added. As long as they are too few, it lacks as many less.

The primitives persist, and so does what is put together from them, apart from steps
that look at everything that is left.
-/

namespace TreeDigest

/-! ## Errors of longer inputs -/

/-- A property of the error that takes the place of a certain one where `n` octets more follow. -/
def DecodeError.Still (n : Nat) (p : DecodeError → Prop) : DecodeError → Prop
  | .truncated offset needed => n < needed → p (.truncated offset (needed - n))
  | .trailingBytes remaining => p (.trailingBytes (remaining + n))
  | e => p e

theorem DecodeError.Still.mono {n : Nat} {p q : DecodeError → Prop} {e : DecodeError}
    (hpq : ∀ e, p e → q e) (h : e.Still n p) : e.Still n q := by
  cases e with
  | truncated offset needed => exact fun hn => hpq _ (h hn)
  | _ => exact hpq _ h

/-- Where a single octet is lacking, any octet more is enough. -/
theorem DecodeError.Still.of_one {p : DecodeError → Prop} {offset : Nat} {more : Bytes}
    (h : more = [] → p (.truncated offset 1)) :
    (DecodeError.truncated offset 1).Still more.length p := by
  intro hmore
  cases more with
  | nil => exact h rfl
  | cons b more => exact absurd hmore (by simp)

/-- The same of the errors of decoders, of which only those of readers know the input. -/
def Error.Still (n : Nat) (p : Error → Prop) : Error → Prop
  | .decode e => e.Still n fun e' => p (.decode e')
  | e => p e

theorem Error.still_decode {n : Nat} {p : Error → Prop} {e : DecodeError} :
    (Error.decode e).Still n p ↔ e.Still n fun e' => p (.decode e') := Iff.rfl

theorem Error.Still.mono {n : Nat} {p q : Error → Prop} {e : Error} (hpq : ∀ e, p e → q e)
    (h : e.Still n p) : e.Still n q := by
  cases e with
  | decode e => exact DecodeError.Still.mono (fun e' => hpq (.decode e')) h
  | _ => exact hpq _ h

theorem Error.Still.of_fold {n : Nat} {p : Error → Prop} {e : Error} (he : e.OfFold) (h : p e) :
    e.Still n p := by
  cases he with
  | violation v => exact h
  | depth side limit => cases side <;> exact h
  | count declared actual => exact h

/-- Only where octets are lacking there may be no error in a longer input. -/
theorem Error.Still.truncated_or {n : Nat} {p : Error → Prop} {e : Error} (h : e.Still n p) :
    (∃ offset needed, e = .decode (.truncated offset needed)) ∨ ∃ e', p e' := by
  cases e with
  | decode e =>
    cases e with
    | truncated offset needed => exact .inl ⟨offset, needed, rfl⟩
    | _ => exact .inr ⟨_, h⟩
  | _ => exact .inr ⟨_, h⟩

/-- An error that says nothing of the length of the input is the same in a longer one. -/
theorem Error.Still.same {n : Nat} {p : Error → Prop} {e : Error} (h : e.Still n p)
    (htrailing : ∀ k, e ≠ .decode (.trailingBytes k))
    (htruncated : ∀ offset needed, e ≠ .decode (.truncated offset needed)) : p e := by
  cases e with
  | decode e =>
    cases e with
    | trailingBytes k => exact absurd rfl (htrailing k)
    | truncated offset needed => exact absurd rfl (htruncated offset needed)
    | _ => exact h
  | _ => exact h

/-! ## Longer inputs -/

namespace Cursor

variable {c c' : Cursor}

/-- The same place in an input with more octets behind it. -/
def followed (more : Bytes) (c : Cursor) : Cursor := ⟨c.offset, c.rest ++ more⟩

@[simp] theorem length_followed (more : Bytes) (c : Cursor) :
    (c.followed more).rest.length = c.rest.length + more.length := List.length_append

/-- The input goes on at least to a certain offset. -/
def Covers (c : Cursor) (finish : Nat) : Prop := finish ≤ c.offset + c.rest.length

/-- Moving on leaves the end of the input where it is. -/
theorem Reaches.ends (h : c.Reaches c') : c'.offset + c'.rest.length = c.offset + c.rest.length := by
  obtain ⟨taken, hrest, hoffset⟩ := h
  rw [hoffset, hrest, List.length_append, Nat.add_assoc]

theorem Reaches.rest_le (h : c.Reaches c') : c'.rest.length ≤ c.rest.length := by
  have hends := h.ends
  have hoffset := h.offset_le
  omega

theorem Covers.reaches {finish : Nat} (h : c.Covers finish) (hc : c.Reaches c') :
    c'.Covers finish := Nat.le_trans h (Nat.le_of_eq hc.ends.symm)

end Cursor

/-- Inputs with certain octets behind them. -/
def Growth.octets (more : Bytes) : Growth DecodeError Cursor where
  grown := Cursor.followed more
  reaches := Cursor.Reaches
  reaches_refl := .refl
  reaches_trans := .trans
  still := DecodeError.Still more.length
  still_mono := .mono

/-- A reader does not look beyond what it takes, and what it finds wrong is no count. -/
structure Reader.Persists {α : Type} (reader : Reader α) : Prop where
  outlasts : ∀ more c, Steps.Outlasts (.octets more) reader reader c
  uncounting : reader.Uncounting

namespace Reader

open Steps (Outlasts)

variable {α β : Type} {more : Bytes} {c c' : Cursor}

theorem need_eq_error_iff {n : Nat} {e : DecodeError} : need n c = .error e c' ↔
    c.rest.length < n ∧ e = .truncated c.offset (n - c.rest.length) ∧ c' = c := by
  unfold need
  rw [shortfall_eq]
  cases h : n - c.rest.length with
  | zero =>
    have hnot : ¬ c.rest.length < n := by omega
    simp [hnot]
  | succ missing =>
    have hlt : c.rest.length < n := by omega
    simp [hlt, eq_comm]

theorem still_of_outlasts {reader reader' : Reader α} {e : DecodeError}
    (h : Outlasts (.octets more) reader reader' c) (herror : reader c = .error e c') :
    e.Still more.length fun e' => ∃ c'', reader' (c.followed more) = .error e' c'' := h.error herror

/-- Moving past an octet that is there. -/
theorem outlasts_skip (h : c.rest ≠ []) : Outlasts (.octets more) skip skip c where
  ok hok := by
    obtain ⟨offset, rest⟩ := c
    cases rest with
    | nil => exact absurd rfl h
    | cons b rest =>
      cases hok
      exact ⟨rfl, [b], rfl, rfl⟩
  error herror := by cases herror

namespace Persists

theorem of_longer {reader : Reader α} (huncounting : reader.Uncounting)
    (hok : ∀ {more c a c'}, reader c = .ok a c' →
      reader (c.followed more) = .ok a (c'.followed more) ∧ c.Reaches c')
    (herror : ∀ {more c e c'}, reader c = .error e c' →
      e.Still more.length fun e' => ∃ c'', reader (c.followed more) = .error e' c'') :
    reader.Persists := ⟨fun _ _ => ⟨hok, herror⟩, huncounting⟩

/-- A reader that persists only moves on. -/
theorem reaches {reader : Reader α} (h : reader.Persists) {a : α} (hok : reader c = .ok a c') :
    c.Reaches c' := ((h.outlasts [] c).ok hok).2

/-! ## Sequences -/

theorem pure (a : α) : Persists (pure a : Reader α) := ⟨fun _ _ => .pure a, .pure a⟩

theorem malformed (offset : Nat) (defect : Defect) :
    (Reader.malformed (α := α) offset defect).Persists :=
  ⟨fun _ _ => .throw fun _ h => h, .malformed offset defect⟩

theorem unsupportedType (offset : Nat) (marker : UInt8) :
    Persists (throw (.unsupportedType offset marker) : Reader α) :=
  ⟨fun _ _ => .throw fun _ h => h, .unsupportedType offset marker⟩

theorem depthExceeded (limit : Nat) : Persists (throw (.depthExceeded limit) : Reader α) :=
  ⟨fun _ _ => .throw fun _ h => h, .depthExceeded limit⟩

theorem bind {reader : Reader α} {next : α → Reader β} (h : reader.Persists)
    (hnext : ∀ a, (next a).Persists) : (reader >>= next).Persists where
  outlasts more c := (h.outlasts more c).bind fun a c' _ _ => (hnext a).outlasts more c'
  uncounting := h.uncounting.bind fun a => (hnext a).uncounting

/-- A result that is looked at in another way. -/
theorem map {reader : Reader α} (h : reader.Persists) (g : α → β) :
    Persists (do return g (← reader) : Reader β) := bind h fun _ => pure _

theorem collect {reader : Reader α} (h : reader.Persists) (n : Nat) :
    Persists (Loop.collect reader n) :=
  ⟨fun more _ => .collect fun c' _ => h.outlasts more c', h.uncounting.collect n⟩

/-! ## Primitives -/

theorem offset : Reader.offset.Persists :=
  of_longer .offset (fun h => by cases h; exact ⟨rfl, .refl _⟩) fun h => by cases h

theorem need (n : Nat) : (Reader.need n).Persists := by
  refine of_longer (.need n) (fun {more c _ c'} h => ?_) fun {more c _ c'} h => ?_
  · obtain ⟨hle, rfl⟩ := need_eq_ok_iff.mp h
    refine ⟨need_eq_ok_iff.mpr ⟨?_, rfl⟩, .refl _⟩
    rw [Cursor.length_followed]
    omega
  · obtain ⟨hlt, rfl, rfl⟩ := need_eq_error_iff.mp h
    intro hmore
    refine ⟨_, need_eq_error_iff.mpr ⟨?_, ?_, rfl⟩⟩
    · rw [Cursor.length_followed]
      omega
    · rw [Cursor.length_followed, Nat.sub_add_eq]
      rfl

theorem take (n : Nat) : (Reader.take n).Persists := by
  refine of_longer (.take n) (fun {more c _ c'} h => ?_) fun {more c _ c'} h => ?_
  · refine ⟨?_, _, (take_ok h).2⟩
    obtain ⟨hle, rfl, rfl⟩ := take_eq_ok_iff.mp h
    refine take_eq_ok_iff.mpr ⟨?_, (List.take_append_of_le_length hle).symm, ?_⟩
    · rw [Cursor.length_followed]
      omega
    · rw [Cursor.followed, Cursor.followed, List.drop_append_of_le_length hle]
  · -- octets that are there are taken without fail
    rcases Steps.bind_eq_error_iff.mp h with hneed | ⟨_, _, -, htaken⟩
    · exact (((need n).outlasts more c).error hneed).mono fun _ => Steps.bind_fails
    · cases htaken

theorem octet : Reader.octet.Persists := by
  refine of_longer .octet (fun {more c _ c'} h => ?_) fun {more c _ c'} h => ?_
  · obtain ⟨hrest, hoffset⟩ := octet_eq_ok_iff.mp h
    refine ⟨octet_eq_ok_iff.mpr ⟨?_, hoffset⟩, _, octet_ok h⟩
    rw [Cursor.followed, hrest]
    rfl
  · obtain ⟨offset, rest⟩ := c
    cases rest with
    | cons b rest => cases h
    | nil =>
      cases h
      exact DecodeError.Still.of_one fun hmore => ⟨_, by rw [hmore]; rfl⟩

theorem peek : Reader.peek.Persists := by
  refine of_longer .peek (fun {more c _ c'} h => ?_) fun {more c _ c'} h => ?_
  · obtain ⟨offset, rest⟩ := c
    cases rest with
    | nil => cases h
    | cons b rest =>
      cases h
      exact ⟨rfl, .refl _⟩
  · obtain ⟨offset, rest⟩ := c
    cases rest with
    | cons b rest => cases h
    | nil =>
      cases h
      exact DecodeError.Still.of_one fun hmore => ⟨_, by rw [hmore]; rfl⟩

theorem big (width : Nat) : (Reader.big width).Persists := map (take width) _

theorem little (width : Nat) : (Reader.little width).Persists := map (take width) _

theorem signedBig (width : Nat) : (Reader.signedBig width).Persists := map (big width) _

theorem signedLittle (width : Nat) : (Reader.signedLittle width).Persists := map (little width) _

end Persists

end Reader

/-! ## Decoders -/

/-- The same decoding of an input with more octets behind it. -/
def Decoding.followed (more : Bytes) (d : Decoding Cursor) : Decoding Cursor :=
  ⟨d.input.followed more, d.folder⟩

/-- Decodings of inputs with certain octets behind them. -/
def Growth.decoding (more : Bytes) : Growth Error (Decoding Cursor) where
  grown := Decoding.followed more
  reaches d d' := d.input.Reaches d'.input
  reaches_refl d := .refl d.input
  reaches_trans h h' := h.trans h'
  still := Error.Still more.length
  still_mono := .mono

/-- A decoder does not look beyond what it takes. -/
structure Decoder.Persists {α : Type} (step : Decoder Cursor α) : Prop where
  outlasts : ∀ more d, Steps.Outlasts (.decoding more) step step d

namespace Decoder

open Steps (Outlasts)

variable {α β : Type} {more : Bytes} {d : Decoding Cursor}

/-! ### Single steps -/

section Steps

variable {σ ε : Type} {wrap : ε → Error} {reader : EStateM ε σ α} {d d' : Decoding σ}

theorem reading_eq_ok_iff {a : α} : reading wrap reader d = .ok a d' ↔
    ∃ input, reader d.input = .ok a input ∧ d' = ⟨input, d.folder⟩ := by
  unfold reading
  cases reader d.input with
  | ok a' input =>
    constructor
    · rintro ⟨⟩
      exact ⟨input, rfl, rfl⟩
    · rintro ⟨_, ⟨⟩, rfl⟩
      rfl
  | error fault input => simp

theorem reading_eq_error_iff {e : Error} : reading wrap reader d = .error e d' ↔
    ∃ fault input, reader d.input = .error fault input ∧ e = wrap fault ∧
      d' = ⟨input, d.folder⟩ := by
  unfold reading
  cases reader d.input with
  | ok a input => simp
  | error fault input =>
    constructor
    · rintro ⟨⟩
      exact ⟨fault, input, rfl, rfl, rfl⟩
    · rintro ⟨_, _, ⟨⟩, rfl, rfl⟩
      rfl

theorem fold_eq_ok_iff {e : Event} {u : Unit} : fold e d = .ok u d' ↔
    ∃ f, Folding.event e d.folder = .ok () f ∧ d' = ⟨d.input, f⟩ := by
  unfold fold
  cases Folding.event e d.folder with
  | ok _ f => simp [eq_comm]
  | error fault f => simp

theorem fold_eq_error_iff {e : Event} {fault : Error} : fold e d = .error fault d' ↔
    ∃ f, Folding.event e d.folder = .error fault f ∧ d' = ⟨d.input, f⟩ := by
  unfold fold
  cases Folding.event e d.folder with
  | ok _ f => simp
  | error fault' f =>
    constructor
    · rintro ⟨⟩
      exact ⟨f, rfl, rfl⟩
    · rintro ⟨_, ⟨⟩, rfl⟩
      rfl

end Steps

/-! ### Persisting -/

variable {next : Bytes → Decoder Cursor β}

theorem outlasts_of {step step' : Decoder Cursor α}
    (hok : ∀ {a d'}, step d = .ok a d' →
      step' (d.followed more) = .ok a (d'.followed more) ∧ d.input.Reaches d'.input)
    (herror : ∀ {e d'}, step d = .error e d' →
      e.Still more.length fun e' => ∃ d'', step' (d.followed more) = .error e' d'') :
    Outlasts (.decoding more) step step' d := ⟨hok, herror⟩

theorem still_of_outlasts {step step' : Decoder Cursor α} {d' : Decoding Cursor} {e : Error}
    (h : Outlasts (.decoding more) step step' d) (herror : step d = .error e d') :
    e.Still more.length fun e' => ∃ d'', step' (d.followed more) = .error e' d'' := h.error herror

theorem outlasts_read {reader : Reader α} (h : Outlasts (.octets more) reader reader d.input) :
    Outlasts (.decoding more) (read reader) (read reader) d := by
  refine outlasts_of (fun {a d'} hok => ?_) fun {e d'} herror => ?_
  · obtain ⟨c, hread, rfl⟩ := reading_eq_ok_iff.mp hok
    obtain ⟨hlonger, hreaches⟩ := h.ok hread
    exact ⟨reading_eq_ok_iff.mpr ⟨_, hlonger, rfl⟩, hreaches⟩
  · obtain ⟨fault, c, hread, rfl, rfl⟩ := reading_eq_error_iff.mp herror
    refine Error.still_decode.mpr ((Reader.still_of_outlasts h hread).mono fun fault' hlonger => ?_)
    obtain ⟨c', hlonger⟩ := hlonger
    exact ⟨_, reading_eq_error_iff.mpr ⟨fault', c', hlonger, rfl, rfl⟩⟩

/-- A step that looks at everything that is left. -/
theorem outlasts_rest_bind (h : Outlasts (.decoding more) (next d.input.rest)
    (next (d.input.rest ++ more)) d) :
    Outlasts (.decoding more) (rest >>= next) (rest >>= next) d := ⟨h.ok, h.error⟩

namespace Persists

theorem pure (a : α) : Persists (pure a : Decoder Cursor α) := ⟨fun _ _ => .pure a⟩

theorem bind {step : Decoder Cursor α} {next : α → Decoder Cursor β} (h : step.Persists)
    (hnext : ∀ a, (next a).Persists) : (step >>= next).Persists where
  outlasts more d := (h.outlasts more d).bind fun a d' _ _ => (hnext a).outlasts more d'

theorem read {reader : Reader α} (h : reader.Persists) : (read reader).Persists :=
  ⟨fun more d => outlasts_read (h.outlasts more d.input)⟩

theorem unsupportedType (offset : Nat) (marker : UInt8) :
    Persists (throw (.decode (.unsupportedType offset marker)) : Decoder Cursor α) :=
  ⟨fun _ _ => .throw fun _ h => h⟩

/-- An event is taken or refused whatever is left of the input. -/
theorem fold (e : Event) : (fold e : Decoder Cursor Unit).Persists where
  outlasts more d := by
    refine outlasts_of (fun {_ d'} hok => ?_) fun {fault d'} herror => ?_
    · obtain ⟨f, hevent, rfl⟩ := fold_eq_ok_iff.mp hok
      exact ⟨fold_eq_ok_iff.mpr ⟨f, hevent, rfl⟩, .refl _⟩
    · obtain ⟨f, hevent, rfl⟩ := fold_eq_error_iff.mp herror
      exact .of_fold ((Folding.event_failsWith e).error hevent)
        ⟨_, fold_eq_error_iff.mpr ⟨f, hevent, rfl⟩⟩

theorem times {step : Decoder Cursor Unit} (h : step.Persists) (n : Nat) :
    Persists (Loop.times step n) := ⟨fun more _ => .times fun d' _ => h.outlasts more d'⟩

end Persists

/-! ### Taking an octet -/

/-- A decoder that succeeds takes an octet at least. -/
structure Shortens (step : Decoder Cursor α) : Prop where
  shorter : ∀ {d a d'}, step d = .ok a d' → d'.input.rest.length < d.input.rest.length

theorem Persists.rest_le {step : Decoder Cursor α} (h : step.Persists) {d d' : Decoding Cursor}
    {a : α} (hok : step d = .ok a d') : d'.input.rest.length ≤ d.input.rest.length := by
  have hreaches : d.input.Reaches d'.input := ((h.outlasts [] d).ok hok).2
  exact hreaches.rest_le

theorem Shortens.bind {step : Decoder Cursor α} {next : α → Decoder Cursor β} (h : step.Shortens)
    (hnext : ∀ a, (next a).Persists) : (step >>= next).Shortens where
  shorter hok := by
    obtain ⟨a, d₁, hstep, hok⟩ := Steps.bind_eq_ok_iff.mp hok
    exact Nat.lt_of_le_of_lt ((hnext a).rest_le hok) (h.shorter hstep)

theorem Shortens.after {step : Decoder Cursor α} {next : α → Decoder Cursor β} (h : step.Persists)
    (hnext : ∀ a, (next a).Shortens) : (step >>= next).Shortens where
  shorter hok := by
    obtain ⟨a, d₁, hstep, hok⟩ := Steps.bind_eq_ok_iff.mp hok
    exact Nat.lt_of_lt_of_le ((hnext a).shorter hok) (h.rest_le hstep)

end Decoder

end TreeDigest
