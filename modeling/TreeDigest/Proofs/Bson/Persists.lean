import TreeDigest.Bson.Codec
import TreeDigest.Proofs.Bytes
import TreeDigest.Proofs.Input.Persists

/-!
# BSON documents in longer inputs

One step looks further than it takes: a key is looked for as far as its document goes.
That this is no further than the input goes was found out when the document was opened,
and it stays so while elements are read, so that a document persists like its parts.

A document says how long it is and not how many elements it has. Every element begins
before the end of its document, with its type and its key, and takes an octet at least.
-/

namespace TreeDigest.Bson

open Reader (Persists)
open Steps (Outlasts)

variable {limit levels finish index : Nat} {isArray : Bool} {c c' : Cursor} {more : Bytes}
  {document : Bool → Reader Tree}

/-! ## Lengths -/

/-- A document begins with its length, which counts itself and is less than 2^31. -/
theorem openDocument_ok (h : openDocument c = .ok finish c') :
    ∃ length, 5 ≤ length ∧ length < 0x80000000 ∧ finish = c.offset + length ∧
      c.Takes (Bytes.little 4 length) c' := by
  obtain ⟨offset, c₁, hoffset, h⟩ := Steps.bind_eq_ok_iff.mp h
  obtain ⟨rfl, rfl⟩ := Reader.offset_ok hoffset
  obtain ⟨length, c₂, hlength, h⟩ := Steps.bind_eq_ok_iff.mp h
  split at h
  · cases h
  rename_i hleast
  obtain ⟨_, c₃, hneed, h⟩ := Steps.bind_eq_ok_iff.mp h
  cases h
  obtain ⟨-, rfl⟩ := Reader.need_eq_ok_iff.mp hneed
  obtain ⟨n, rfl, hgreatest, htaken⟩ := Reader.signedLittle_nonneg hlength (by omega)
  have hcapacity : Bytes.capacity 4 = 0x100000000 := rfl
  exact ⟨n, by omega, by omega, rfl, htaken⟩

theorem openDocument_bounds (h : openDocument c = .ok finish c') :
    c'.offset ≤ finish ∧ finish < c'.offset + 0x80000000 := by
  obtain ⟨length, hleast, hgreatest, rfl, -, hoffset⟩ := openDocument_ok h
  rw [Bytes.length_little] at hoffset
  omega

theorem openDocument_persists : openDocument.Persists := by
  refine .bind .offset fun offset => .bind (.signedLittle 4) fun length => ?_
  split
  · exact .malformed _ _
  · exact .bind (.need _) fun _ => .pure _

/-- The octets of a document that can be opened are there. -/
theorem openDocument_covers (h : openDocument c = .ok finish c') : c'.Covers finish := by
  obtain ⟨offset, c₁, hoffset, h⟩ := Steps.bind_eq_ok_iff.mp h
  obtain ⟨rfl, rfl⟩ := Reader.offset_ok hoffset
  obtain ⟨length, c₂, hlength, h⟩ := Steps.bind_eq_ok_iff.mp h
  split at h
  · cases h
  obtain ⟨_, c₃, hneed, h⟩ := Steps.bind_eq_ok_iff.mp h
  cases h
  obtain ⟨hle, rfl⟩ := Reader.need_eq_ok_iff.mp hneed
  obtain ⟨n, rfl, -, -, hmoved⟩ := Reader.signedLittle_nonneg hlength (by omega)
  rw [Bytes.length_little] at hmoved
  rw [Int.toNat_natCast] at hle ⊢
  unfold Cursor.Covers
  omega

/-! ## Keys -/

/-- The zero that was found ends the octets before it. -/
theorem findZero_some {seen room n : Nat} {bytes : Bytes} (h : findZero seen room bytes = some n) :
    ∃ key rest, (0 : UInt8) ∉ key ∧ n = seen + key.length ∧ bytes = key ++ 0 :: rest := by
  induction room generalizing seen bytes with
  | zero => cases h
  | succ room ih =>
    cases bytes with
    | nil => cases h
    | cons b bytes =>
      rw [findZero] at h
      split at h
      · rename_i hb
        cases h
        exact ⟨[], bytes, List.not_mem_nil, rfl, by rw [hb]; rfl⟩
      · rename_i hb
        obtain ⟨key, rest, hkey, rfl, rfl⟩ := ih h
        refine ⟨b :: key, rest, ?_, ?_, rfl⟩
        · rw [List.mem_cons, not_or]
          exact ⟨fun h0 => hb h0.symm, hkey⟩
        · rw [List.length_cons]
          omega

/-- Nothing that comes after the octets to look at makes a difference. -/
theorem findZero_append {seen room : Nat} {bytes : Bytes} (h : room ≤ bytes.length) :
    findZero seen room (bytes ++ more) = findZero seen room bytes := by
  induction bytes generalizing seen room with
  | nil =>
    rw [List.length_nil, Nat.le_zero] at h
    rw [h]
    rfl
  | cons b bytes ih =>
    cases room with
    | zero => rfl
    | succ room =>
      rw [List.cons_append, findZero, findZero, ih (Nat.le_of_succ_le_succ h)]

/-- An element begins before the end of its document, with its type and its key. -/
theorem nextElement_some {header : Header} (h : nextElement finish c = .ok (some header) c') :
    c.offset < finish ∧ (0 : UInt8) ∉ header.key ∧
      c.Takes (header.kind :: (header.key ++ [0])) c' := by
  obtain ⟨offset, c₁, hoffset, h⟩ := Steps.bind_eq_ok_iff.mp h
  obtain ⟨rfl, rfl⟩ := Reader.offset_ok hoffset
  split at h
  · cases h
  rename_i hend
  obtain ⟨kind, c₂, hkind, h⟩ := Steps.bind_eq_ok_iff.mp h
  split at h
  · split at h <;> cases h
  obtain ⟨c₃, c₄, hget, h⟩ := Steps.bind_eq_ok_iff.mp h
  cases hget
  cases hlength : findZero 0 (finish - c.offset - 1) c₂.rest with
  | none => rw [hlength] at h; cases h
  | some length =>
    rw [hlength] at h
    obtain ⟨octets, c₅, htake, h⟩ := Steps.bind_eq_ok_iff.mp h
    obtain ⟨_, c₆, hskip, h⟩ := Steps.bind_eq_ok_iff.mp h
    cases h
    obtain ⟨key, rest, hkey, rfl, hrest⟩ := findZero_some hlength
    rw [Nat.zero_add] at htake
    -- the key is what was taken, and the zero behind it is what is skipped
    obtain ⟨-, rfl, rfl⟩ := Reader.take_eq_ok_iff.mp htake
    cases hskip
    rw [hrest, List.take_left, List.drop_left]
    have hkeyTaken : c₂.Takes (key ++ [0]) ⟨c₂.offset + key.length + 1, rest⟩ := by
      refine ⟨?_, ?_⟩
      · rw [hrest, List.append_assoc]
        rfl
      · rw [List.length_append, List.length_singleton, Nat.add_assoc]
    exact ⟨Nat.not_le.mp hend, hkey, (Reader.octet_ok hkind).trans hkeyTaken⟩

/-- A document ends with a zero octet, and where its length says. -/
theorem nextElement_none (h : nextElement finish c = .ok none c') :
    c.Takes [0] c' ∧ c'.offset = finish := by
  obtain ⟨offset, c₁, hoffset, h⟩ := Steps.bind_eq_ok_iff.mp h
  obtain ⟨rfl, rfl⟩ := Reader.offset_ok hoffset
  split at h
  · cases h
  obtain ⟨kind, c₂, hkind, h⟩ := Steps.bind_eq_ok_iff.mp h
  have htaken := Reader.octet_ok hkind
  split at h
  · rename_i hzero
    split at h
    · rename_i hfinish
      cases h
      rw [hzero] at htaken
      exact ⟨htaken, htaken.2.trans hfinish⟩
    · cases h
  · obtain ⟨c₃, c₄, hget, h⟩ := Steps.bind_eq_ok_iff.mp h
    cases hget
    cases hlength : findZero 0 (finish - c.offset - 1) c₂.rest with
    | none => rw [hlength] at h; cases h
    | some length =>
      rw [hlength] at h
      obtain ⟨octets, c₅, htake, h⟩ := Steps.bind_eq_ok_iff.mp h
      obtain ⟨_, c₆, hskip, h⟩ := Steps.bind_eq_ok_iff.mp h
      cases h

theorem nextElement_uncounting : (nextElement finish).Uncounting := by
  refine .bind .offset fun offset => ?_
  split
  · exact .malformed _ _
  refine .bind .octet fun kind => ?_
  split
  · split
    · exact .pure _
    · exact .malformed _ _
  refine .bind .get fun c => ?_
  split
  · exact .malformed _ _
  · exact .bind (.take _) fun _ => .bind .skip fun _ => .pure _

theorem nextElement_outlasts (h : c.Covers finish) :
    Outlasts (.octets more) (nextElement finish) (nextElement finish) c := by
  refine (Persists.offset.outlasts more c).bind fun offset c₁ hoffset _ => ?_
  obtain ⟨rfl, rfl⟩ := Reader.offset_ok hoffset
  split
  · exact (Persists.malformed _ _).outlasts more c
  refine (Persists.octet.outlasts more c).bind fun kind c₁ hkind _ => ?_
  obtain ⟨hrest, hmoved⟩ := Reader.octet_eq_ok_iff.mp hkind
  split
  · split
    · exact .pure _
    · exact (Persists.malformed _ _).outlasts more c₁
  -- the key is looked for up to the end of the document, which is in the input
  have hroom : finish - c.offset - 1 ≤ c₁.rest.length := by
    have hcovers : finish ≤ c.offset + c.rest.length := h
    rw [hrest, List.length_cons] at hcovers
    omega
  refine .get_bind ?_
  rw [show ((Growth.octets more).grown c₁).rest = c₁.rest ++ more from rfl, findZero_append hroom]
  cases hlength : findZero 0 (finish - c.offset - 1) c₁.rest with
  | none => exact (Persists.malformed _ _).outlasts more c₁
  | some length =>
    obtain ⟨key, rest, -, rfl, hzero⟩ := findZero_some hlength
    refine ((Persists.take _).outlasts more c₁).bind fun octets c₂ htake _ => ?_
    obtain ⟨-, -, rfl⟩ := Reader.take_eq_ok_iff.mp htake
    refine (Reader.outlasts_skip ?_).bind fun _ _ _ _ => .pure _
    rw [Nat.zero_add, hzero, List.drop_left]
    exact List.cons_ne_nil _ _

/-! ## Payloads -/

theorem textPayload_persists : textPayload.Persists := by
  refine .bind .offset fun offset => .bind (.signedLittle 4) fun length => ?_
  split
  · exact .malformed _ _
  · refine .bind (.take _) fun octets => ?_
    split
    · exact .pure _
    · exact .malformed _ _

theorem boolPayload_persists : boolPayload.Persists := by
  refine .bind .offset fun offset => .bind .octet fun b => ?_
  split
  · exact .pure _
  split
  · exact .pure _
  · exact .malformed _ _

theorem payload_persists (header : Header) : (payload header).Persists := by
  unfold payload
  split
  · exact .map (.little 8) _
  · exact .map textPayload_persists _
  · exact .pure _
  · exact .pure _
  · exact .map boolPayload_persists _
  · exact .pure _
  · exact .map (.signedLittle 4) _
  · exact .map (.signedLittle 8) _
  · exact .unsupportedType _ _

theorem readKey_persists (header : Header) : (readKey isArray header index).Persists := by
  unfold readKey checkIndex
  split
  · split
    · exact .pure _
    · exact .malformed _ _
  · exact .pure _

theorem readPayload_persists (h : ∀ b, (document b).Persists) (payload : Payload) :
    (readPayload document payload).Persists := by
  cases payload with
  | document => exact h false
  | array => exact h true
  | _ => exact .pure _

/-! ## Elements -/

/-- What comes after the head of an element. -/
theorem afterHeader_persists (h : ∀ b, (document b).Persists) (header : Header) :
    Persists (do
      readKey isArray header index
      let value ← readPayload document (← payload header)
      return some (header.key, value)) := by
  refine .bind (readKey_persists header) fun _ => .bind (payload_persists header) fun payload => ?_
  exact .map (readPayload_persists h payload) _

theorem readElement_outlasts (hdocument : ∀ b, (document b).Persists) (h : c.Covers finish) :
    Outlasts (.octets more) (readElement document isArray finish index)
      (readElement document isArray finish index) c := by
  refine (nextElement_outlasts h).bind fun header c₁ _ _ => ?_
  cases header with
  | none => exact .pure _
  | some header => exact (afterHeader_persists hdocument header).outlasts more c₁

theorem readElement_uncounting (h : ∀ b, (document b).Persists) :
    (readElement document isArray finish index).Uncounting := by
  refine .bind nextElement_uncounting fun header => ?_
  cases header with
  | none => exact .pure _
  | some header => exact (afterHeader_persists h header).uncounting

theorem readElement_some {kv : Bytes × Tree} (hdocument : ∀ b, (document b).Persists)
    (h : readElement document isArray finish index c = .ok (some kv) c') :
    c.offset < finish ∧ c.offset < c'.offset ∧ c.Reaches c' := by
  obtain ⟨header, c₁, hnext, h⟩ := Steps.bind_eq_ok_iff.mp h
  cases header with
  | none => cases h
  | some header =>
    obtain ⟨hbefore, -, htaken⟩ := nextElement_some hnext
    have hafter : c₁.Reaches c' := (afterHeader_persists hdocument header).reaches h
    have hmoved := htaken.2
    have hoffset := hafter.offset_le
    rw [List.length_cons] at hmoved
    exact ⟨hbefore, by omega, .trans ⟨_, htaken⟩ hafter⟩

theorem readElement_none (h : readElement document isArray finish index c = .ok none c') :
    c.Takes [0] c' := by
  obtain ⟨header, c₁, hnext, h⟩ := Steps.bind_eq_ok_iff.mp h
  cases header with
  | none =>
    cases h
    exact (nextElement_none hnext).1
  | some header =>
    obtain ⟨_, _, -, h⟩ := Steps.bind_eq_ok_iff.mp h
    obtain ⟨_, _, -, h⟩ := Steps.bind_eq_ok_iff.mp h
    obtain ⟨_, _, -, h⟩ := Steps.bind_eq_ok_iff.mp h
    cases h

/-! ## Documents -/

/-- **Reading a document persists.** -/
theorem read_persists : (read limit levels isArray).Persists := by
  induction levels generalizing isArray with
  | zero => exact .depthExceeded limit
  | succ levels ih =>
    have hdocument : ∀ b, (read limit levels b).Persists := fun _ => ih
    constructor
    · intro more c
      rw [read]
      refine (openDocument_persists.outlasts more c).bind fun finish c₁ hopen _ => .get_bind ?_
      have hcovers := openDocument_covers hopen
      refine .bind ?_ fun _ _ _ _ => .pure _
      refine .gather (fun c => c.rest.length) (fun index c₂ hreaches => ?_)
        (fun index c₂ kv c₃ hreaches hr => ?_) (Nat.le_refl _) ?_
      · exact readElement_outlasts hdocument (hcovers.reaches hreaches)
      · -- every element takes an octet
        obtain ⟨-, hmoved, htaken⟩ := readElement_some hdocument hr
        have hends := htaken.ends
        omega
      · show c₁.rest.length ≤ (c₁.rest ++ more).length
        rw [List.length_append]
        omega
    · exact .bind openDocument_persists.uncounting fun _ => .bind .get fun _ =>
        .map (.gather (fun _ => readElement_uncounting hdocument) _) _

end TreeDigest.Bson
