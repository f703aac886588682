import TreeDigest.CommandLine.Disk

/-!
# Files that were written can be read

A path is followed through folders, from the root or from where commands are run, and what is
written is a file where no folder is. So the way to it stays open, and reading it gives back the
octets.
-/

namespace TreeDigest.CommandLine

theorem ok_bind {ε α β : Type} (a : α) (next : α → Except ε β) :
    (Except.ok a >>= next) = next a := rfl

/-- A sequence that comes to its end comes through its first step. -/
theorem exists_of_bind_ok {ε α β : Type} {first : Except ε α} {next : α → Except ε β} {b : β}
    (h : first >>= next = .ok b) : ∃ a, first = .ok a ∧ next a = .ok b := by
  cases first with
  | ok a => exact ⟨a, rfl, h⟩
  | error e => cases h

namespace Files

variable {files files' : Files} {place place' first : List String} {parts : List String}
  {octets : Bytes} {entry : Entry} {path : String}

/-! ## Entries -/

theorem lookup_put_self (h : place ≠ []) : (files.put place entry).lookup place = some entry := by
  rw [lookup, if_neg (by rwa [List.isEmpty_iff]), put, List.find?_cons, beq_self_eq_true]
  rfl

theorem lookup_put_of_ne (h : place' ≠ place) :
    (files.put place entry).lookup place' = files.lookup place' := by
  have hother : (place == place') = false := beq_false_of_ne h.symm
  unfold lookup
  split
  · rfl
  · rw [put, List.find?_cons, hother, List.find?_filter]
    -- none of the entries that were taken away is the one that is looked for
    have htest : (fun old : List String × Entry =>
        decide ((old.1 != place) = true ∧ (old.1 == place') = true)) =
        fun old => old.1 == place' := by
      funext old
      cases hold : old.1 == place' with
      | true =>
        rw [eq_of_beq hold, bne, beq_false_of_ne h]
        rfl
      | false => exact decide_eq_false fun hboth => Bool.false_ne_true hboth.2
    rw [htest]

/-! ## Paths -/

/-- What is a folder among some files is one among others. -/
def KeepsFolders (files files' : Files) : Prop :=
  ∀ place, files.lookup place = some .folder → files'.lookup place = some .folder

/-- Where the folders are kept, a path is followed to the same place. -/
theorem follow_eq (h : KeepsFolders files files')
    (hfollow : files.follow first parts = .ok place) : files'.follow first parts = .ok place := by
  induction parts generalizing first with
  | nil => exact hfollow
  | cons part parts ih =>
    rw [follow] at hfollow ⊢
    cases hentry : files.lookup first with
    | none => rw [hentry] at hfollow; cases hfollow
    | some entry =>
      cases entry with
      | file octets => rw [hentry] at hfollow; cases hfollow
      | folder =>
        rw [hentry] at hfollow
        rw [h first hentry]
        dsimp only at hfollow ⊢
        split
        · rename_i hstay
          rw [if_pos hstay] at hfollow
          exact ih hfollow
        · rename_i hstay
          rw [if_neg hstay] at hfollow
          split
          · rename_i hup
            rw [if_pos hup] at hfollow
            exact ih hfollow
          · rename_i hup
            rw [if_neg hup] at hfollow
            exact ih hfollow

theorem start_eq (h : files'.home = files.home) : files'.start = files.start := by
  funext parts
  unfold start
  rw [h]

theorem resolve_eq (hhome : files'.home = files.home) (h : KeepsFolders files files')
    (hresolve : files.resolve path = .ok place) : files'.resolve path = .ok place := by
  unfold resolve at hresolve ⊢
  rw [start_eq hhome]
  split at hresolve
  · cases hresolve
  · rename_i hpath
    rw [if_neg hpath]
    exact follow_eq h hresolve

/-! ## Files -/

theorem load_ok_iff : files.load path = .ok octets ↔
    ∃ place, files.resolve path = .ok place ∧ files.lookup place = some (.file octets) := by
  constructor
  · intro h
    obtain ⟨place, hresolve, h⟩ := exists_of_bind_ok h
    split at h
    · cases h
    · cases h
    · rename_i hentry
      cases h
      exact ⟨place, hresolve, hentry⟩
  · rintro ⟨place, hresolve, hentry⟩
    rw [load, hresolve, ok_bind, hentry]
    rfl

/-- A path that is no shorter without the separators at its end has none. -/
theorem untailed_eq (h : ¬ (untailed path).length < path.length) : untailed path = path := by
  unfold untailed at h ⊢
  split at h
  · rfl
  · rename_i hname
    have hsuffix := List.dropWhile_suffix (l := path.toList.reverse) (· == '/')
    have hall : path.toList.reverse.dropWhile (· == '/') = path.toList.reverse := by
      refine hsuffix.eq_of_length (Nat.le_antisymm hsuffix.length_le ?_)
      rw [String.length_ofList, List.length_reverse] at h
      rw [List.length_reverse, String.length_toList]
      omega
    rw [hall, List.reverse_reverse, String.ofList_toList]

/-- Writing puts a file at the place of a path, where no folder is. -/
theorem save_ok (h : files.save path octets = .ok files') :
    ∃ place, files.resolve path = .ok place ∧ files.lookup place ≠ some .folder ∧
      files' = files.put place (.file octets) := by
  obtain ⟨place, hresolve, h⟩ := exists_of_bind_ok h
  split at h
  · cases h
  · rename_i hfolder
    split at h
    · cases h
    · rename_i hlength
      cases h
      exact ⟨place, untailed_eq hlength ▸ hresolve, hfolder, rfl⟩

/-- **What was written is read again.** -/
theorem load_save (h : files.save path octets = .ok files') : files'.load path = .ok octets := by
  obtain ⟨place, hresolve, hplace, rfl⟩ := save_ok h
  have hfolders : KeepsFolders files (files.put place (.file octets)) := by
    intro other hother
    have hne : other ≠ place := fun h => hplace (h ▸ hother)
    rw [lookup_put_of_ne hne, hother]
  have hhome : (files.put place (.file octets)).home = files.home := rfl
  have hroot : place ≠ [] := fun h => hplace (h ▸ rfl)
  exact load_ok_iff.mpr ⟨place, resolve_eq hhome hfolders hresolve, lookup_put_self hroot⟩

end Files

end TreeDigest.CommandLine
