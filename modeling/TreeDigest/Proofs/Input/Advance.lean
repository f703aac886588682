import TreeDigest.Input.Cursor
import TreeDigest.Proofs.Bytes
import TreeDigest.Proofs.Steps

/-!
# Moving on in an input

What lies between two places in one input is what was taken from the first to the
second. It follows that offsets never go back, and from that bounds on how often a
reader can do anything that takes an octet.

What a primitive took is determined by what it gave: a number, for one, was read
from its own octets and from no others.
-/

namespace TreeDigest

/-- From one place to another in the same input there are certain octets. -/
def Cursor.Takes (c : Cursor) (bytes : Bytes) (c' : Cursor) : Prop :=
  c.rest = bytes ++ c'.rest ∧ c'.offset = c.offset + bytes.length

namespace Cursor.Takes

variable {c c' c'' : Cursor} {bytes more : Bytes}

theorem refl (c : Cursor) : c.Takes [] c := ⟨rfl, rfl⟩

theorem trans (h : c.Takes bytes c') (h' : c'.Takes more c'') : c.Takes (bytes ++ more) c'' := by
  obtain ⟨hrest, hoffset⟩ := h
  obtain ⟨hrest', hoffset'⟩ := h'
  refine ⟨?_, ?_⟩
  · rw [hrest, hrest', List.append_assoc]
  · rw [hoffset', hoffset, List.length_append, Nat.add_assoc]

/-- What was taken of an input of which nothing is left is the input. -/
theorem whole {input : Bytes} (h : (Cursor.start input).Takes bytes c') (hend : c'.rest = []) :
    bytes = input := by
  obtain ⟨hrest, -⟩ := h
  rw [hend, List.append_nil] at hrest
  exact hrest.symm

end Cursor.Takes

/-- A place is further on than another in the same input, or the same. -/
def Cursor.Reaches (c c' : Cursor) : Prop := ∃ taken, c.Takes taken c'

namespace Cursor.Reaches

variable {c c' c'' : Cursor}

theorem refl (c : Cursor) : c.Reaches c := ⟨[], .refl c⟩

theorem trans (h : c.Reaches c') (h' : c'.Reaches c'') : c.Reaches c'' := by
  obtain ⟨taken, htaken⟩ := h
  obtain ⟨taken', htaken'⟩ := h'
  exact ⟨taken ++ taken', htaken.trans htaken'⟩

theorem offset_le (h : c.Reaches c') : c.offset ≤ c'.offset := by
  obtain ⟨taken, -, hoffset⟩ := h
  omega

end Cursor.Reaches

namespace Reader

variable {α : Type} {c c' : Cursor} {n : Nat}

/-! ## What each primitive takes -/

theorem need_eq_ok_iff {u : Unit} : need n c = .ok u c' ↔ n ≤ c.rest.length ∧ c' = c := by
  unfold need
  rw [shortfall_eq]
  cases h : n - c.rest.length with
  | zero =>
    have hle : n ≤ c.rest.length := by omega
    simp [hle, eq_comm]
  | succ missing =>
    have hnot : ¬ n ≤ c.rest.length := by omega
    simp [hnot]

theorem take_eq_ok_iff {octets : Bytes} : take n c = .ok octets c' ↔
    n ≤ c.rest.length ∧ octets = c.rest.take n ∧ c' = ⟨c.offset + n, c.rest.drop n⟩ := by
  simp only [take, Steps.bind_eq_ok_iff, need_eq_ok_iff]
  constructor
  · rintro ⟨_, _, ⟨hle, rfl⟩, _, _, ⟨rfl⟩, _, _, ⟨rfl⟩, ⟨rfl⟩⟩
    exact ⟨hle, rfl, rfl⟩
  · rintro ⟨hle, rfl, rfl⟩
    exact ⟨(), c, ⟨hle, rfl⟩, c, c, rfl, (), _, rfl, rfl⟩

theorem octet_eq_ok_iff {b : UInt8} :
    octet c = .ok b c' ↔ c.rest = b :: c'.rest ∧ c'.offset = c.offset + 1 := by
  obtain ⟨offset, rest⟩ := c
  obtain ⟨offset', rest'⟩ := c'
  cases rest with
  | nil => simp [octet]
  | cons b rest =>
    simp only [octet, EStateM.Result.ok.injEq, Cursor.mk.injEq, List.cons.injEq]
    constructor
    · rintro ⟨rfl, rfl, rfl⟩
      exact ⟨⟨rfl, rfl⟩, rfl⟩
    · rintro ⟨⟨rfl, rfl⟩, rfl⟩
      exact ⟨rfl, rfl, rfl⟩

theorem offset_ok {n : Nat} (h : offset c = .ok n c') : c.offset = n ∧ c = c' := by
  cases h
  exact ⟨rfl, rfl⟩

theorem octet_ok {b : UInt8} (h : octet c = .ok b c') : c.Takes [b] c' := by
  obtain ⟨hrest, hoffset⟩ := octet_eq_ok_iff.mp h
  exact ⟨hrest, hoffset⟩

theorem take_ok {octets : Bytes} (h : take n c = .ok octets c') :
    octets.length = n ∧ c.Takes octets c' := by
  obtain ⟨hle, rfl, rfl⟩ := take_eq_ok_iff.mp h
  have hlen : (c.rest.take n).length = n := by rw [List.length_take, Nat.min_eq_left hle]
  exact ⟨hlen, (List.take_append_drop n c.rest).symm, by rw [hlen]⟩

theorem finished_ok {u : Unit} (h : finished c = .ok u c') : c.rest = [] ∧ c' = c := by
  obtain ⟨offset, rest⟩ := c
  cases rest with
  | nil => cases h; exact ⟨rfl, rfl⟩
  | cons b rest => cases h

/-! ### Numbers -/

section Numbers

variable {width : Nat}

theorem big_ok {m : Nat} (h : big width c = .ok m c') :
    m < Bytes.capacity width ∧ c.Takes (Bytes.big width m) c' := by
  obtain ⟨octets, _, htake, h⟩ := Steps.bind_eq_ok_iff.mp h
  cases h
  obtain ⟨rfl, htaken⟩ := take_ok htake
  exact ⟨Bytes.ofBig_lt octets, by rwa [Bytes.big_ofBig]⟩

theorem little_ok {m : Nat} (h : little width c = .ok m c') :
    m < Bytes.capacity width ∧ c.Takes (Bytes.little width m) c' := by
  obtain ⟨octets, _, htake, h⟩ := Steps.bind_eq_ok_iff.mp h
  cases h
  obtain ⟨rfl, htaken⟩ := take_ok htake
  exact ⟨Bytes.ofLittle_lt octets, by rwa [Bytes.little_ofLittle]⟩

/-- A signed number was read from the octets of an integer of its width, in whatever order. -/
theorem signed_ok {number : Reader Nat} {octets : Nat → Bytes} {m : Int}
    (hnumber : ∀ {k c'}, number c = .ok k c' → k < Bytes.capacity width ∧ c.Takes (octets k) c')
    (hmod : ∀ k, octets (k % Bytes.capacity width) = octets k)
    (hwidth : Bytes.capacity width ∣ 0x10000000000000000)
    (h : (do return Bytes.signed width (← number)) c = .ok m c') :
    ∃ i : Int64, i.toInt = m ∧ Bytes.FitsSigned width i ∧
      c.Takes (octets i.toUInt64.toNat) c' := by
  obtain ⟨k, _, hread, h⟩ := Steps.bind_eq_ok_iff.mp h
  cases h
  obtain ⟨hk, htaken⟩ := hnumber hread
  obtain ⟨i, hi, hfits, hpattern⟩ := Bytes.exists_signed hwidth hk
  refine ⟨i, hi, hfits, ?_⟩
  rwa [← hmod, hpattern]

theorem signedBig_ok {m : Int} (hwidth : Bytes.capacity width ∣ 0x10000000000000000)
    (h : signedBig width c = .ok m c') : ∃ i : Int64, i.toInt = m ∧ Bytes.FitsSigned width i ∧
      c.Takes (Bytes.big width i.toUInt64.toNat) c' :=
  signed_ok big_ok (Bytes.big_mod width) hwidth h

theorem signedLittle_ok {m : Int} (hwidth : Bytes.capacity width ∣ 0x10000000000000000)
    (h : signedLittle width c = .ok m c') : ∃ i : Int64, i.toInt = m ∧ Bytes.FitsSigned width i ∧
      c.Takes (Bytes.little width i.toUInt64.toNat) c' :=
  signed_ok little_ok (Bytes.little_mod width) hwidth h

/-- A signed number that is not negative was read from its own octets. -/
theorem signedLittle_nonneg {m : Int} (h : signedLittle width c = .ok m c') (hm : 0 ≤ m) :
    ∃ n : Nat, m = n ∧ 2 * n < Bytes.capacity width ∧ c.Takes (Bytes.little width n) c' := by
  obtain ⟨n, _, hlittle, h⟩ := Steps.bind_eq_ok_iff.mp h
  cases h
  obtain ⟨hlt, htaken⟩ := little_ok hlittle
  unfold Bytes.signed at hm ⊢
  split at hm
  · rename_i hhalf
    exact ⟨n, if_pos hhalf, hhalf, htaken⟩
  · omega

end Numbers

/-! ## Whole inputs -/

/-- What was read of a whole input was read to its end. -/
theorem whole_ok {reader : Reader α} {input : Bytes} {a : α} (h : reader.whole input = .ok a) :
    ∃ c, reader (Cursor.start input) = .ok a c ∧ c.rest = [] := by
  unfold whole at h
  split at h
  · rename_i a' c hrun
    cases h
    obtain ⟨a', c', hread, hend⟩ := Steps.bind_eq_ok_iff.mp hrun
    obtain ⟨_, _, hfinished, hpure⟩ := Steps.bind_eq_ok_iff.mp hend
    cases hpure
    exact ⟨c', hread, (finished_ok hfinished).1⟩
  · cases h

end Reader

end TreeDigest
