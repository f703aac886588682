import TreeDigest.Proofs.MessagePack.Claims
import TreeDigest.Proofs.Ubjson.Claims

/-!
# Looking ahead refuses nothing

Heads of containers that claim more entries than can follow are refused before an entry is
read. That is a matter of cost: a reader without the check accepts the same inputs with the
same results. What the check changes is the error of an input that is refused anyway.
-/

namespace TreeDigest

/--
A reader that is told how to check claims is a certain reader if it needs what is claimed,
and gives the same results if it trusts it.
-/
structure ClaimsRedundant {ρ α : Type} (told : (Nat → Reader Unit) → Bytes → ρ → Except Error α)
    (reader : Bytes → ρ → Except Error α) : Prop where
  /-- With its checks it is that reader, errors included. -/
  checked : ∀ input r, told Reader.need input r = reader input r
  /-- Without them it accepts the same inputs, with the same results. -/
  trusted : ∀ input r a, told Reader.trust input r = .ok a ↔ reader input r = .ok a

/--
**Checking claims early never changes what is accepted.** Every MessagePack and UBJSON
decoder, and the reader of MessagePack trees, gives the same results without its checks.
-/
theorem early_checks_refuse_nothing :
    ClaimsRedundant MessagePack.decodeStreamWith MessagePack.compact.decode ∧
      ClaimsRedundant MessagePack.decodeStreamWith MessagePack.wide.decode ∧
      ClaimsRedundant MessagePack.decodeTreeWith MessagePack.node.decode ∧
      ClaimsRedundant MessagePack.readValueWith MessagePack.readValue ∧
      ClaimsRedundant Ubjson.decodeWith Ubjson.closed.decode ∧
      ClaimsRedundant Ubjson.decodeWith Ubjson.counted.decode := by
  have hstream : ClaimsRedundant MessagePack.decodeStreamWith MessagePack.decodeStream :=
    ⟨MessagePack.decodeStreamWith_need, fun _ _ _ => MessagePack.decodeStreamWith_trust⟩
  have htree : ClaimsRedundant MessagePack.decodeTreeWith MessagePack.decodeTree :=
    ⟨MessagePack.decodeTreeWith_need, fun _ _ _ => MessagePack.decodeTreeWith_trust⟩
  have hvalue : ClaimsRedundant MessagePack.readValueWith MessagePack.readValue :=
    ⟨fun input _ => MessagePack.readTreeWith_need input, fun _ _ _ => MessagePack.readTreeWith_trust⟩
  have hubjson : ClaimsRedundant Ubjson.decodeWith Ubjson.decode :=
    ⟨Ubjson.decodeWith_need, fun _ _ _ => Ubjson.decodeWith_trust⟩
  exact ⟨hstream, hstream, htree, hvalue, hubjson, hubjson⟩

/-- Of three items that are claimed one follows. The check finds two octets missing, and a
reader that trusts the head comes to the end of the input with one missing. -/
example :
    MessagePack.decodeStreamWith Reader.need [0xDC, 0, 3, 1] {} =
        .error (.decode (.truncated 3 2)) ∧
      MessagePack.decodeStreamWith Reader.trust [0xDC, 0, 3, 1] {} =
        .error (.decode (.truncated 4 1)) := by
  constructor <;> cbv

end TreeDigest
