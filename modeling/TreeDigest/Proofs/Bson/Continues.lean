import TreeDigest.Proofs.Bson.Inverse
import TreeDigest.Proofs.Input.Continues

/-!
# BSON inputs that go on

Whether a root is an array is looked up before anything is read, and in a longer input
the answer may be another one. Then the shorter one has no key in it that ends, and so
the first element is malformed in both: what was looked up makes no difference.
-/

namespace TreeDigest.Bson

open Reader (Persists)
open Steps (Outlasts)

variable {limit levels finish : Nat} {c : Cursor} {more : Bytes}

/-! ## Roots -/

theorem rootIsArray_iff {bytes : Bytes} : rootIsArray bytes = true ↔
    ∃ kind rest, kind ≠ 0 ∧ bytes.drop 4 = kind :: 0x30 :: 0 :: rest := by
  constructor
  · intro h
    unfold rootIsArray at h
    split at h
    · rename_i kind rest
      exact ⟨kind, rest, by simpa using h, rfl⟩
    · cases h
  · rintro ⟨kind, rest, hkind, hdrop⟩
    match bytes, hdrop with
    | a :: b :: c :: d :: _, rfl => simpa [rootIsArray] using hkind

theorem rootIsArray_append {bytes : Bytes} (h : rootIsArray bytes = true) :
    rootIsArray (bytes ++ more) = true := by
  obtain ⟨kind, rest, hkind, hdrop⟩ := rootIsArray_iff.mp h
  have hlength := congrArg List.length hdrop
  simp only [List.length_drop, List.length_cons] at hlength
  refine rootIsArray_iff.mpr ⟨kind, rest ++ more, hkind, ?_⟩
  rw [List.drop_append_of_le_length (by omega), hdrop]
  rfl

/-- An input of which it cannot be told has no key in it. -/
theorem zero_not_mem_of_rootIsArray {octets rest : Bytes} {kind : UInt8} (hlen : octets.length = 4)
    (h : rootIsArray (octets ++ kind :: rest) = false)
    (hmore : rootIsArray (octets ++ kind :: rest ++ more) = true) :
    kind ≠ 0 ∧ (0 : UInt8) ∉ rest := by
  obtain ⟨kind', rest', hkind, hdrop⟩ := rootIsArray_iff.mp hmore
  rw [List.append_assoc, ← hlen, List.drop_left, List.cons_append, List.cons.injEq] at hdrop
  obtain ⟨rfl, hdrop⟩ := hdrop
  refine ⟨hkind, ?_⟩
  match rest with
  | [] => exact List.not_mem_nil
  | [b] =>
    obtain ⟨rfl, -⟩ := List.cons.inj hdrop
    decide
  | b :: b' :: rest =>
    -- two octets of a key are enough
    obtain ⟨rfl, hbehind⟩ := List.cons.inj hdrop
    obtain ⟨rfl, -⟩ := List.cons.inj hbehind
    have htrue : rootIsArray (octets ++ kind :: 0x30 :: 0 :: rest) = true :=
      rootIsArray_iff.mpr ⟨kind, rest, hkind, by rw [← hlen, List.drop_left]⟩
    rw [h] at htrue
    cases htrue

theorem findZero_none {seen room : Nat} {bytes : Bytes} (h : (0 : UInt8) ∉ bytes) :
    findZero seen room bytes = none := by
  cases hzero : findZero seen room bytes with
  | none => rfl
  | some n =>
    obtain ⟨key, rest, -, -, rfl⟩ := findZero_some hzero
    exact absurd (List.mem_append_right _ (List.mem_cons_self ..)) h

/-- An element of which the key does not end in the input. -/
theorem nextElement_unterminated {kind : UInt8} {rest : Bytes} (hoffset : c.offset < finish)
    (hrest : c.rest = kind :: rest) (hkind : kind ≠ 0) (hzero : (0 : UInt8) ∉ rest) :
    ∃ c', nextElement finish c = .error (.malformed (c.offset + 1) .unterminatedKey) c' := by
  have hoctet : Reader.octet c = .ok kind ⟨c.offset + 1, rest⟩ :=
    Reader.octet_eq_ok_iff.mpr ⟨hrest, rfl⟩
  refine ⟨⟨c.offset + 1, rest⟩, ?_⟩
  rw [nextElement, Steps.bind_ok (Reader.offset_apply c), if_neg (Nat.not_le.mpr hoffset),
    Steps.bind_ok hoctet, if_neg hkind, Steps.bind_ok (Steps.get_apply _)]
  dsimp only
  rw [findZero_none hzero]
  rfl

/-- **Whether a root is an array can be told as soon as it has an element.** -/
theorem read_root_outlasts (input : Bytes) :
    Outlasts (.octets more) (read limit levels (rootIsArray input))
      (read limit levels (rootIsArray (input ++ more))) (.start input) := by
  by_cases hroot : rootIsArray (input ++ more) = rootIsArray input
  · rw [hroot]
    exact read_persists.outlasts more _
  have hmore : rootIsArray input = false ∧ rootIsArray (input ++ more) = true := by
    cases h : rootIsArray input with
    | true => exact absurd ((rootIsArray_append h).trans h.symm) hroot
    | false => exact ⟨rfl, by rwa [h, Bool.not_eq_false] at hroot⟩
  obtain ⟨hshort, hlonger⟩ := hmore
  cases levels with
  | zero => exact (Persists.depthExceeded limit).outlasts more _
  | succ levels =>
    rw [read, read]
    refine (openDocument_persists.outlasts more _).bind fun finish c₁ hopen _ => .get_bind ?_
    -- a document that can be opened has an octet after its length
    obtain ⟨length, hleast, -, rfl, hinput, hoffset⟩ := openDocument_ok hopen
    have hcovers := openDocument_covers hopen
    obtain ⟨kind, rest, hrest⟩ : ∃ kind rest, c₁.rest = kind :: rest := by
      refine List.exists_cons_of_ne_nil fun hnil => ?_
      unfold Cursor.Covers at hcovers
      rw [hoffset, hnil, Bytes.length_little, List.length_nil] at hcovers
      omega
    rw [hrest] at hinput
    obtain rfl : input = _ := hinput
    obtain ⟨hkind, hzero⟩ := zero_not_mem_of_rootIsArray (Bytes.length_little ..) hshort hlonger
    rw [Bytes.length_little] at hoffset
    have hbefore : c₁.offset < 0 + length := by
      rw [hoffset]
      exact Nat.add_lt_add_left (by omega) 0
    obtain ⟨c₂, hnext⟩ := nextElement_unterminated hbefore hrest hkind hzero
    have hnext' : ∃ c', nextElement _ (c₁.followed more) =
        .error (.malformed (c₁.offset + 1) .unterminatedKey) c' :=
      (nextElement_outlasts hcovers).error hnext
    refine .fails (e := .malformed (c₁.offset + 1) .unterminatedKey) ?_ ?_ fun _ h => h
    · exact Steps.bind_fails (Steps.gather_fails (Steps.bind_fails ⟨c₂, hnext⟩))
    · exact Steps.bind_fails (Steps.gather_fails (Steps.bind_fails hnext'))

/-! ## Whole inputs -/

/-- **Inputs that go on, for every BSON codec.** -/
theorem decode_continues {codec : Codec} (h : codec ∈ Codec.ofFormat .bson) (o : FoldOptions)
    (input more : Bytes) : Decoder.Continues (codec.decode · o) input more :=
  .folded (fun input limit => read limit limit (rootIsArray input)) (decode_eq h) read_fits
    (read_root_outlasts input)

end TreeDigest.Bson
