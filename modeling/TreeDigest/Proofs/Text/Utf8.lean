import TreeDigest.Text.Utf8

/-!
# UTF-8 of ASCII

Each octet below 0x80 is a character of its own.
-/

namespace TreeDigest.Utf8

theorem scan_ascii {octets : Bytes} (offset : Nat) (h : ∀ b ∈ octets, b < 0x80) :
    scan offset none octets = none := by
  induction octets generalizing offset with
  | nil => rfl
  | cons b octets ih =>
    rw [List.forall_mem_cons] at h
    have hstart : start b = .complete (Char.ofNat b.toNat) := if_pos h.1
    rw [scan, hstart]
    exact ih (offset + 1) h.2

theorem isValid_ascii {octets : Bytes} (h : ∀ b ∈ octets, b < 0x80) : isValid octets = true := by
  rw [isValid, fault?, scan_ascii 0 h]
  rfl

end TreeDigest.Utf8
