import TreeDigest.Proofs.Bytes
import TreeDigest.Proofs.Input.Advance

/-!
# What a reader makes of known octets

A reader `Reads` certain octets as a result if it takes exactly these, wherever
they stand and whatever follows them. The property goes through sequences, octets
after octets, and through loops. So a reader is run on what a writer wrote by
following both part by part.
-/

namespace TreeDigest

/-- From any offset and before any rest, a reader takes exactly certain octets. -/
structure Reader.Reads {α : Type} (reader : Reader α) (bytes : Bytes) (a : α) : Prop where
  apply : ∀ offset rest, reader ⟨offset, bytes ++ rest⟩ = .ok a ⟨offset + bytes.length, rest⟩

namespace Reader

theorem offset_apply (c : Cursor) : offset c = .ok c.offset c := rfl

theorem octet_cons (place : Nat) (b : UInt8) (rest : Bytes) :
    octet ⟨place, b :: rest⟩ = .ok b ⟨place + 1, rest⟩ := rfl

end Reader

namespace Reader.Reads

variable {α β γ : Type} {reader : Reader α} {next : α → Reader β} {bytes more : Bytes} {a : α} {b : β}

/-! ## Sequences -/

theorem pure : Reads (pure a : Reader α) [] a := ⟨fun _ _ => rfl⟩

theorem bind (h : reader.Reads bytes a) (hnext : (next a).Reads more b) :
    (reader >>= next).Reads (bytes ++ more) b where
  apply offset rest := by
    rw [List.append_assoc, Steps.bind_ok (h.apply offset (more ++ rest)), hnext.apply,
      List.length_append, Nat.add_assoc]

/-- A step that takes nothing, before a step that reads. -/
theorem bind_nil (h : reader.Reads [] a) (hnext : (next a).Reads more b) :
    (reader >>= next).Reads more b := bind h hnext

/-- A step that takes nothing, after a step that reads. -/
theorem bind_last (h : reader.Reads bytes a) (hnext : (next a).Reads [] b) :
    (reader >>= next).Reads bytes b := by
  have hbind := bind h hnext
  rwa [List.append_nil] at hbind

/-- A step after which nothing more is taken. -/
theorem map (h : reader.Reads bytes a) {g : α → β} : (do return g (← reader) : Reader β).Reads bytes (g a) where
  apply offset rest := by
    rw [Steps.bind_ok (h.apply offset rest)]
    rfl

theorem offset_bind {next : Nat → Reader β} (h : ∀ offset, (next offset).Reads bytes b) :
    (Reader.offset >>= next).Reads bytes b where
  apply offset rest := by
    rw [Steps.bind_ok (offset_apply _)]
    exact (h offset).apply offset rest

/-- Octets that are about to be read are there. -/
theorem need_bind {n : Nat} {next : Unit → Reader β} (hn : n ≤ bytes.length)
    (h : (next ()).Reads bytes b) : (Reader.need n >>= next).Reads bytes b where
  apply offset rest := by
    have hneed : Reader.need n ⟨offset, bytes ++ rest⟩ = .ok () ⟨offset, bytes ++ rest⟩ :=
      need_eq_ok_iff.mpr ⟨by rw [List.length_append]; omega, rfl⟩
    rw [Steps.bind_ok hneed]
    exact h.apply offset rest

/-- **What is read is settled by the input, and so is what is left.** -/
theorem unique {bytes' rest rest' : Bytes} {a' : α} (h : reader.Reads bytes a)
    (h' : reader.Reads bytes' a') (heq : bytes ++ rest = bytes' ++ rest') : a = a' ∧ rest = rest' := by
  have hread := h.apply 0 rest
  rw [heq, h'.apply 0 rest'] at hread
  injection hread with hresult hcursor
  injection hcursor with _ hleft
  exact ⟨hresult.symm, hleft.symm⟩

/-! ## Octets and numbers -/

theorem octet (b : UInt8) : Reader.octet.Reads [b] b where
  apply _ _ := octet_eq_ok_iff.mpr ⟨rfl, rfl⟩

theorem skip (b : UInt8) : Reader.skip.Reads [b] () := ⟨fun _ _ => rfl⟩

theorem take (bytes : Bytes) : (Reader.take bytes.length).Reads bytes bytes where
  apply offset rest := take_eq_ok_iff.mpr ⟨by rw [List.length_append]; omega, by simp, by simp⟩

theorem take_of_length {n : Nat} (h : bytes.length = n) : (Reader.take n).Reads bytes bytes :=
  h ▸ take bytes

theorem big_mod (width n : Nat) :
    (Reader.big width).Reads (Bytes.big width n) (n % Bytes.capacity width) := by
  have hread := (take_of_length (Bytes.length_big width n)).map (g := Bytes.ofBig)
  rwa [Bytes.ofBig_big] at hread

theorem little_mod (width n : Nat) :
    (Reader.little width).Reads (Bytes.little width n) (n % Bytes.capacity width) := by
  have hread := (take_of_length (Bytes.length_little width n)).map (g := Bytes.ofLittle)
  rwa [Bytes.ofLittle_little] at hread

theorem big {width n : Nat} (h : n < Bytes.capacity width) :
    (Reader.big width).Reads (Bytes.big width n) n := by
  have hread := big_mod width n
  rwa [Nat.mod_eq_of_lt h] at hread

theorem little {width n : Nat} (h : n < Bytes.capacity width) :
    (Reader.little width).Reads (Bytes.little width n) n := by
  have hread := little_mod width n
  rwa [Nat.mod_eq_of_lt h] at hread

/-- A signed integer that fits a width comes back from it. -/
theorem signedBig {width : Nat} {i : Int64} (h : Bytes.FitsSigned width i) :
    (Reader.signedBig width).Reads (Bytes.big width i.toUInt64.toNat) i.toInt := by
  have hread := (big_mod width i.toUInt64.toNat).map (g := Bytes.signed width)
  rwa [Bytes.signed_toNat h] at hread

theorem signedLittle {width : Nat} {i : Int64} (h : Bytes.FitsSigned width i) :
    (Reader.signedLittle width).Reads (Bytes.little width i.toUInt64.toNat) i.toInt := by
  have hread := (little_mod width i.toUInt64.toNat).map (g := Bytes.signed width)
  rwa [Bytes.signed_toNat h] at hread

/-- A number that is less than half of what a width holds comes back as a signed one. -/
theorem signedLittle_nat {width n : Nat} (h : 2 * n < Bytes.capacity width) :
    (Reader.signedLittle width).Reads (Bytes.little width n) (n : Int) := by
  have hread := (little (by omega : n < Bytes.capacity width)).map (g := Bytes.signed width)
  rwa [Bytes.signed, if_pos h] at hread

/-! ## Loops -/

/-- A loop of as many rounds as there are things reads their octets one after the other. -/
theorem collect {xs : List γ} {form : γ → Bytes} {value : γ → α}
    (h : ∀ x ∈ xs, reader.Reads (form x) (value x)) :
    Reader.Reads (Loop.collect reader xs.length) (xs.flatMap form) (xs.map value) where
  apply offset rest := by
    refine Steps.collect_eq_ok_iff.mpr ⟨List.length_map .., ?_⟩
    induction xs generalizing offset with
    | nil => exact .nil
    | cons x xs ih =>
      rw [List.forall_mem_cons] at h
      rw [List.flatMap_cons, List.append_assoc, List.length_append, ← Nat.add_assoc]
      exact .cons (h.1.apply offset _) (ih h.2 _)

/-! ## Whole inputs -/

/-- An input that is read to its end. -/
theorem whole (h : reader.Reads bytes a) : reader.whole bytes = .ok a := by
  -- the input is the octets with nothing behind them, and what is left is nothing
  have hread : reader (Cursor.start bytes) = .ok a ⟨bytes.length, []⟩ := by
    have hread := h.apply 0 []
    rwa [List.append_nil, Nat.zero_add] at hread
  rw [Reader.whole, Steps.bind_ok hread]
  rfl

end Reader.Reads

end TreeDigest
