import TreeDigest.Error

/-!
# Writing octets at the end

An output grows at its end only. It is kept in reverse, so that adding to it does
not cost what is already there. A writer that fails leaves what it had written
before it failed.
-/

namespace TreeDigest

/-- The octets written so far, newest first. -/
structure Output where
  reversed : Bytes

namespace Output

def empty : Output := ⟨[]⟩

/-- The octets written so far, in order. -/
def bytes (o : Output) : Bytes := o.reversed.reverse

def append (o : Output) (bytes : Bytes) : Output := ⟨bytes.reverseAux o.reversed⟩

@[simp] theorem bytes_empty : empty.bytes = [] := rfl

@[simp] theorem bytes_append (o : Output) (bytes : Bytes) :
    (o.append bytes).bytes = o.bytes ++ bytes := by
  simp [append, Output.bytes]

end Output

/-- A step of writing: its result, and the output it leaves, also on failure. -/
abbrev Writer := EStateM EncodeError Output

namespace Writer

/-- Writes octets. -/
def put (bytes : Bytes) : Writer Unit := modify (·.append bytes)

/-- Fails on content the format has no form for. -/
def refuse {α : Type} (codec : String) (what : Obstacle) : Writer α :=
  throw (.unrepresentable codec what)

end Writer

end TreeDigest
