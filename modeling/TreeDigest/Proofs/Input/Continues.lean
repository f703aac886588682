import TreeDigest.Proofs.Input.Persists
import TreeDigest.Proofs.Input.Trees

/-!
# Whole inputs that go on

A decoder takes what it can and then finds the end of the input or octets that are left
over. So what it answers to an input says what it answers to one that goes on: where a
result was found it is found again, and whatever was added is left over; where none was
found none is found again, until no octet is lacking any more.
-/

namespace TreeDigest

/-- What is answered where a result was found and certain octets are left over. -/
def Decoder.ended {α : Type} (a : α) (rest : Bytes) : Except Error α :=
  if rest = [] then .ok a else .error (.decode (.trailingBytes rest.length))

/--
What is answered to an input and to one that goes on. Either the same result is found in
both, and what was added is left over too, or nothing is found in either.
-/
inductive Decoder.Continues {α : Type} (decode : Bytes → Except Error α) (input more : Bytes) :
    Prop where
  | found (a : α) (rest : Bytes) : decode input = ended a rest →
      decode (input ++ more) = ended a (rest ++ more) → Continues decode input more
  | failed (e : Error) : decode input = .error e →
      e.Still more.length (fun e' => decode (input ++ more) = .error e') →
      Continues decode input more

theorem Decoder.ended_eq_ok_iff {α : Type} {a b : α} {rest : Bytes} :
    ended a rest = .ok b ↔ rest = [] ∧ a = b := by
  unfold ended
  split
  · simp [*]
  · simp [*]

theorem Decoder.ended_of_ne_nil {α : Type} {a : α} {rest : Bytes} (h : rest ≠ []) :
    ended a rest = .error (.decode (.trailingBytes rest.length)) := if_neg h

theorem Decoder.ended_eq_error_iff {α : Type} {a : α} {rest : Bytes} {e : Error} :
    ended a rest = .error e ↔ rest ≠ [] ∧ e = .decode (.trailingBytes rest.length) := by
  unfold ended
  split
  · simp [*]
  · simp [*, eq_comm]

theorem Decoder.ended_bind {α β : Type} {a : α} {b : β} {rest : Bytes} {next : α → Except Error β}
    (h : next a = .ok b) : (ended a rest >>= next) = ended b rest := by
  unfold ended
  split
  · exact h
  · rfl

namespace Reader

variable {α : Type} {reader : Reader α} {input : Bytes} {c : Cursor}

theorem whole_of_ok {a : α} (h : reader (Cursor.start input) = .ok a c) :
    reader.whole input = Decoder.ended a c.rest := by
  obtain ⟨offset, rest⟩ := c
  rw [whole, Steps.bind_ok h]
  cases rest <;> rfl

theorem whole_of_error {e : DecodeError} (h : reader (Cursor.start input) = .error e c) :
    reader.whole input = .error (.decode e) := by
  rw [whole, Steps.bind_error h]

end Reader

namespace Decoder

variable {α β : Type} {input more : Bytes} {o : FoldOptions}

theorem run_of_ok {step : Decoder Cursor Unit} {d : Decoding Cursor} {digest : Digest}
    (h : step ⟨.start input, .start .decode o⟩ = .ok () d) (hfinish : d.folder.finish = .ok digest) :
    run (whole step) (.start input) o = ended digest d.input.rest := by
  obtain ⟨⟨offset, rest⟩, f⟩ := d
  rw [run, whole, Steps.bind_ok h]
  cases rest with
  | nil =>
    have hread : read Reader.finished (⟨⟨offset, []⟩, f⟩ : Decoding Cursor) = .ok () ⟨⟨offset, []⟩, f⟩ := rfl
    rw [Steps.bind_ok hread, finish, Steps.bind_ok (Steps.get_apply _)]
    dsimp only at hfinish ⊢
    rw [hfinish]
    rfl
  | cons b rest => rfl

theorem run_of_error {step : Decoder Cursor Unit} {d : Decoding Cursor} {e : Error}
    (h : step ⟨.start input, .start .decode o⟩ = .error e d) :
    run (whole step) (.start input) o = .error e := by
  rw [run, whole, Steps.bind_error h]

namespace Continues

/-- A reader that may depend on the input, followed by a step that takes whatever was read. -/
theorem whole {reader : Bytes → Reader α} {next : α → Except Error β}
    (h : Steps.Outlasts (.octets more) (reader input) (reader (input ++ more)) (.start input))
    (hnext : ∀ {a c}, reader input (.start input) = .ok a c → ∃ b, next a = .ok b) :
    Continues (fun input => (reader input).whole input >>= next) input more := by
  cases hread : reader input (.start input) with
  | ok a c =>
    obtain ⟨b, hb⟩ := hnext hread
    refine .found b c.rest ?_ ?_
    · show (reader input).whole input >>= next = _
      rw [Reader.whole_of_ok hread, ended_bind hb]
    · have hlonger : reader (input ++ more) (.start (input ++ more)) = .ok a (c.followed more) :=
        (h.ok hread).1
      show (reader (input ++ more)).whole (input ++ more) >>= next = _
      rw [Reader.whole_of_ok hlonger, ended_bind hb]
      rfl
  | error e c =>
    refine .failed (.decode e) ?_ (Error.still_decode.mpr ?_)
    · show (reader input).whole input >>= next = _
      rw [Reader.whole_of_error hread]
      rfl
    · refine (Reader.still_of_outlasts h hread).mono fun e' hlonger => ?_
      obtain ⟨c', hlonger⟩ :
        ∃ c', reader (input ++ more) (.start (input ++ more)) = .error e' c' := hlonger
      show (reader (input ++ more)).whole (input ++ more) >>= next = _
      rw [Reader.whole_of_error hlonger]
      rfl

/-- A codec that answers as if it read trees, of which all that are read can be folded. -/
theorem folded {codec : Codec} (reader : Bytes → Nat → Reader Tree)
    (hfolds : codec.Folds fun input limit => (reader input limit).whole input)
    (hfits : ∀ {t c}, reader input o.depthLimit (.start input) = .ok t c →
      t.depth ≤ o.depthLimit ∧ t.Countable)
    (h : Steps.Outlasts (.octets more) (reader input o.depthLimit)
      (reader (input ++ more) o.depthLimit) (.start input)) :
    Continues (codec.decode · o) input more := by
  have hdecode : (codec.decode · o) =
      fun input => (reader input o.depthLimit).whole input >>= (foldTree · o) :=
    funext fun input => hfolds input o
  rw [hdecode]
  refine .whole h fun {t c} hread => ?_
  obtain ⟨hdepth, hcount⟩ := hfits hread
  exact ⟨_, foldTreeOn_eq hdepth hcount⟩

/-- A decoder whose folder is at the end of a document wherever it ends. -/
theorem run {step : Decoder Cursor Unit} (h : step.Persists)
    (hfinish : ∀ {d}, step ⟨.start input, .start .decode o⟩ = .ok () d →
      ∃ digest, d.folder.finish = .ok digest) :
    Continues (fun input => run (Decoder.whole step) (.start input) o) input more := by
  have houtlasts := h.outlasts more ⟨.start input, .start .decode o⟩
  cases hstep : step ⟨.start input, .start .decode o⟩ with
  | ok _ d =>
    obtain ⟨digest, hdigest⟩ := hfinish hstep
    exact .found digest d.input.rest (run_of_ok hstep hdigest)
      (run_of_ok (houtlasts.ok hstep).1 hdigest)
  | error e d =>
    refine .failed e (run_of_error hstep) ?_
    refine (still_of_outlasts houtlasts hstep).mono fun e' hlonger => ?_
    obtain ⟨d', hlonger⟩ := hlonger
    exact run_of_error hlonger

/-! ### By what is answered -/

variable {decode : Bytes → Except Error α}

/-- Where an input has a result, whatever follows it is left over. -/
theorem ok {a : α} (h : Continues decode input more) (hok : decode input = .ok a) (hmore : more ≠ []) :
    decode (input ++ more) = .error (.decode (.trailingBytes more.length)) := by
  cases h with
  | found a rest hended hlonger =>
    obtain ⟨rfl, -⟩ := ended_eq_ok_iff.mp (hended.symm.trans hok)
    rw [hlonger, List.nil_append, ended_of_ne_nil hmore]
  | failed e herror _ =>
    rw [hok] at herror
    cases herror

/-- What is known of an error is known of it wherever it comes from. -/
theorem still {e : Error} (h : Continues decode input more) (herror : decode input = .error e) :
    e.Still more.length fun e' => decode (input ++ more) = .error e' := by
  cases h with
  | found a rest hended hlonger =>
    obtain ⟨hrest, rfl⟩ := ended_eq_error_iff.mp (hended.symm.trans herror)
    show decode (input ++ more) = .error (.decode (.trailingBytes (rest.length + more.length)))
    rw [hlonger, ended_of_ne_nil (List.append_ne_nil_of_left_ne_nil hrest more), List.length_append]
  | failed e' herror' hstill =>
    obtain rfl := Except.error.inj (herror.symm.trans herror')
    exact hstill

end Continues

end Decoder

end TreeDigest
