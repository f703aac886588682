import TreeDigest.Error

/-!
# Reading octets from the front

A cursor is a place in an input: how many octets were taken and those that are
left. A reader moves a cursor on, and a reader that fails says where the cursor
stands then. Nothing that is not there is ever taken, so a reader that asks for
more octets than are left fails with the number that is missing and leaves the
cursor where it was.
-/

namespace TreeDigest

/-- A place in an input. -/
structure Cursor where
  /-- How many octets lie before it. -/
  offset : Nat
  /-- The octets from it on. -/
  rest : Bytes

/-- The beginning of an input. -/
def Cursor.start (input : Bytes) : Cursor := ⟨0, input⟩

/-- A step of reading: its result, and the place it stops at, also on failure. -/
abbrev Reader := EStateM DecodeError Cursor

namespace Reader

/-- How many of `n` octets a list lacks. -/
def shortfall : Nat → Bytes → Nat
  | 0, _ => 0
  | n + 1, [] => n + 1
  | n + 1, _ :: rest => shortfall n rest

theorem shortfall_eq (n : Nat) (bytes : Bytes) : shortfall n bytes = n - bytes.length := by
  induction bytes generalizing n with
  | nil => cases n <;> rfl
  | cons _ rest ih => cases n <;> simp [shortfall, ih]

/-- The current offset. -/
def offset : Reader Nat := return (← get).offset

/-- Fails unless `n` octets are left. -/
def need (n : Nat) : Reader Unit := fun c =>
  match shortfall n c.rest with
  | 0 => .ok () c
  | missing => .error (.truncated c.offset missing) c

/-- The next `n` octets. -/
def take (n : Nat) : Reader Bytes := do
  need n
  let c ← get
  set (⟨c.offset + n, c.rest.drop n⟩ : Cursor)
  return c.rest.take n

/-- The next octet. -/
def octet : Reader UInt8 := fun c =>
  match c.rest with
  | b :: rest => .ok b ⟨c.offset + 1, rest⟩
  | [] => .error (.truncated c.offset 1) c

/-- The next octet, which stays the next. -/
def peek : Reader UInt8 := fun c =>
  match c.rest with
  | b :: _ => .ok b c
  | [] => .error (.truncated c.offset 1) c

/-- Moves past the next octet, if there is one. -/
def skip : Reader Unit :=
  modify fun c => match c.rest with
    | [] => c
    | _ :: rest => ⟨c.offset + 1, rest⟩

/-- A number of `width` octets, most significant first. -/
def big (width : Nat) : Reader Nat := return Bytes.ofBig (← take width)

/-- A number of `width` octets, least significant first. -/
def little (width : Nat) : Reader Nat := return Bytes.ofLittle (← take width)

/-- A signed number of `width` octets, most significant first. -/
def signedBig (width : Nat) : Reader Int := return Bytes.signed width (← big width)

/-- A signed number of `width` octets, least significant first. -/
def signedLittle (width : Nat) : Reader Int := return Bytes.signed width (← little width)

/-- Fails with a defect found at an offset. -/
def malformed {α : Type} (offset : Nat) (defect : Defect) : Reader α :=
  throw (.malformed offset defect)

/-- Fails if anything is left. -/
def finished : Reader Unit := do
  match (← get).rest.length with
  | 0 => pure ()
  | remaining => throw (.trailingBytes remaining)

/-- What a reader makes of a whole input. -/
def whole {α : Type} (reader : Reader α) (input : Bytes) : Except Error α :=
  match (do let a ← reader; finished; return a : Reader α) (Cursor.start input) with
  | .ok a _ => .ok a
  | .error e _ => .error (.decode e)

end Reader

end TreeDigest
