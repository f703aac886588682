import TreeDigest.Bytes

/-!
# What commands need of a machine

Commands read and write files, list folders, look at the clock and print. A
machine is a monad in which these things can be done, so that commands can be run
on real files and, for reasoning, on files that are data.
-/

namespace TreeDigest.CommandLine

/-- Why a file or folder could not be used. -/
inductive DeviceFault where
  | missing
  | inTheWay
  | notFolder
  | isFolder
  /-- Any other reason, by its number and its wording. -/
  | other (number : Nat) (wording : String)

/-- The wording of a fault. -/
def DeviceFault.message : DeviceFault → String
  | .missing => "No such file or directory (os error 2)"
  | .inTheWay => "File exists (os error 17)"
  | .notFolder => "Not a directory (os error 20)"
  | .isFolder => "Is a directory (os error 21)"
  | .other number wording => s!"{wording} (os error {number})"

/-- A monad in which commands can be run. -/
class Machine (m : Type → Type) where
  readFile : (path : String) → m (Except DeviceFault Bytes)
  writeFile : (path : String) → Bytes → m (Except DeviceFault Unit)
  /-- Makes a folder and those above it, as far as they are not there. -/
  makeFolder : (path : String) → m (Except DeviceFault Unit)
  /-- Whether there is a file or a folder. -/
  isThere : (path : String) → m Bool
  isFolder : (path : String) → m Bool
  /-- The names in a folder, in any order. -/
  names : (path : String) → m (Except DeviceFault (List String))
  /-- The date and time. -/
  now : m String
  /-- Writes to the standard output. -/
  print : Bytes → m Unit
  /-- Writes to the standard error output. -/
  report : String → m Unit

/-- A machine in which steps can also fail. -/
instance {ε : Type} {m : Type → Type} [Monad m] [Machine m] : Machine (ExceptT ε m) where
  readFile path := ExceptT.lift (Machine.readFile path)
  writeFile path octets := ExceptT.lift (Machine.writeFile path octets)
  makeFolder path := ExceptT.lift (Machine.makeFolder path)
  isThere path := ExceptT.lift (Machine.isThere path)
  isFolder path := ExceptT.lift (Machine.isFolder path)
  names path := ExceptT.lift (Machine.names path)
  now := ExceptT.lift Machine.now
  print octets := ExceptT.lift (Machine.print octets)
  report text := ExceptT.lift (Machine.report text)

end TreeDigest.CommandLine
