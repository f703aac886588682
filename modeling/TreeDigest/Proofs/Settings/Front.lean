import TreeDigest.Proofs.Settings.Plan

/-!
# Settings are read from the front of a text

Settings are one value, and what comes after it is not looked at. So a text of settings has a
*front*, which is a document of its own, and the rest of the text makes no difference. The
decoder of documents is stricter: to it a text with a front is a document only if the rest is
blank.
-/

namespace TreeDigest

namespace Settings

variable {α ε : Type} {levels : Nat} {means : Tree → α → Prop} {step : Path → Reading α}
  {input : Bytes} {a : α}

/-- A text is the front from which something is read, however the text goes on. -/
structure Front (read : Bytes → Except ε α) (means : Tree → α → Prop) (front : Bytes) (a : α) :
    Prop where
  /-- By itself it is a document, and it means what is read. -/
  document : ∃ t, Json.content front = .ok t ∧ means t a
  /-- What comes after it is not looked at. -/
  read_eq : ∀ rest, read (front ++ rest) = .ok a
  /-- It is a document still if blanks come after it, and none if anything else does. -/
  whole : ∀ rest, (∃ t, Json.content (front ++ rest) = .ok t) ↔
    ∀ b ∈ rest, Json.Parser.isBlank b = true

theorem run_eq_ok_iff : run step input = .ok a ↔ ∃ c, step [] (.start input) = .ok a c := by
  unfold run
  split
  · rename_i hstep
    rw [hstep]
    constructor
    · rintro ⟨⟩
      exact ⟨_, rfl⟩
    · rintro ⟨c, h⟩
      cases h
      rfl
  · rename_i hstep
    rw [hstep]
    exact ⟨nofun, nofun⟩

/-- **What a step reads that closes, it reads from a front.** -/
theorem exists_front (h : Reads levels means step) (hcloses : ∀ path, Json.Closes (step path))
    (hlevels : levels ≤ Json.nestingCeiling) (hrun : run step input = .ok a) :
    ∃ front rest, input = front ++ rest ∧ Front (run step) means front a := by
  obtain ⟨⟨place, rest⟩, hok⟩ := run_eq_ok_iff.mp hrun
  obtain ⟨front, rfl⟩ := (hcloses []).suffix hok
  have hany : ∀ more, step [] (.start (front ++ more)) = .ok a ⟨place, more⟩ :=
    (hcloses []).closed hok
  refine ⟨front, rest, rfl, ?_, fun more => run_eq_ok_iff.mpr ⟨_, hany more⟩, fun more => ?_⟩
  · obtain ⟨t, ht, hmeans⟩ := h.value (hany [])
    rw [List.append_nil] at ht
    exact ⟨t, Json.content_eq_ok ht hlevels nofun, hmeans⟩
  · obtain ⟨t, ht, -⟩ := h.value (hany more)
    exact Json.exists_content_iff ht hlevels

end Settings

open Settings (Front)

theorem Plan.ofBytes_eq_ok_iff {input : Bytes} {plan : Plan} :
    ofBytes input = .ok plan ↔ Settings.run setting input = .ok plan := by
  unfold ofBytes
  split
  · rename_i hrun
    rw [hrun]
    simp
  · rename_i hrun
    rw [hrun]
    exact ⟨nofun, nofun⟩

theorem Plan.exists_front {input : Bytes} {plan : Plan} (h : Plan.ofBytes input = .ok plan) :
    ∃ front rest, input = front ++ rest ∧ Front Plan.ofBytes Plan.Means front plan := by
  obtain ⟨front, rest, hinput, hfront⟩ := Settings.exists_front setting_reads setting_closes
    (by decide) (ofBytes_eq_ok_iff.mp h)
  exact ⟨front, rest, hinput, hfront.document,
    fun rest => ofBytes_eq_ok_iff.mpr (hfront.read_eq rest), hfront.whole⟩

/--
**Settings are read from the front of a text.** A text that is accepted, as a plan or as
parameters of a fold, begins with a document that says what is read; whatever comes after that
document the same is read, while the text is a document only if nothing but blanks do.
-/
theorem settings_are_read_from_the_front (input : Bytes) :
    (∀ plan, Plan.ofBytes input = .ok plan →
      ∃ front rest, input = front ++ rest ∧ Front Plan.ofBytes Plan.Means front plan) ∧
    ∀ o, Settings.run FoldOptions.setting input = .ok o →
      ∃ front rest, input = front ++ rest ∧
        Front (Settings.run FoldOptions.setting) FoldOptions.Means front o :=
  ⟨fun _ => Plan.exists_front, fun _ => Settings.exists_front FoldOptions.setting_reads
    FoldOptions.setting_closes (by decide)⟩

/-- What can be decided of a result, where the errors cannot be compared. -/
theorem eq_ok_of_toOption {ε α : Type} {result : Except ε α} {a : α}
    (h : result.toOption = some a) : result = .ok a := by
  cases result with
  | ok a => cases h; rfl
  | error e => cases h

/-- Two objects, the second of which is not looked at. -/
theorem settings_are_read_from_the_front_of_two :
    (∃ front rest, Bytes.ofAscii "\x7b\x7d \x7b\x7d" = front ++ rest ∧
      Front Plan.ofBytes Plan.Means front {}) ∧
    ∃ front rest, Bytes.ofAscii "[5] [6]" = front ++ rest ∧
      Front (Settings.run FoldOptions.setting) FoldOptions.Means front { seed := 5 } :=
  ⟨(settings_are_read_from_the_front _).1 _ (eq_ok_of_toOption (by decide +kernel)),
    (settings_are_read_from_the_front _).2 _ (eq_ok_of_toOption (by decide +kernel))⟩

/-- More after settings need not be refused, though it is no blank. -/
theorem settings_need_not_be_all :
    ¬ ∀ input plan, Plan.ofBytes input = .ok plan →
      ∀ more, (∃ b ∈ more, Json.Parser.isBlank b = false) →
        ∃ fault, Plan.ofBytes (input ++ more) = .error (.invalid fault) := by
  intro hrefused
  have hone : Plan.ofBytes (Bytes.ofAscii "\x7b\x7d") = .ok {} :=
    eq_ok_of_toOption (by decide +kernel)
  have htwo : Plan.ofBytes (Bytes.ofAscii "\x7b\x7d" ++ Bytes.ofAscii " \x7b\x7d") = .ok {} :=
    eq_ok_of_toOption (by decide +kernel)
  obtain ⟨fault, hfault⟩ := hrefused _ _ hone (Bytes.ofAscii " \x7b\x7d") ⟨0x7B, by decide, rfl⟩
  cases htwo.symm.trans hfault

end TreeDigest
