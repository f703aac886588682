import TreeDigest.Json.Form

/-!
# JSON for reading by eye

Each entry of a container stands on a line of its own, two blanks further in than
the container. An empty container is written as in the form without blanks.
-/

namespace TreeDigest.Json

/-- The start of a line, some levels in. -/
def newLine (levels : Nat) : Bytes := 0x0A :: List.replicate (2 * levels) 0x20

/-- What stands before an entry of a container. -/
def entryStart (levels : Nat) (isFirst : Bool) : Bytes := separator isFirst ++ newLine levels

mutual

/-- Adds the form of a tree, some levels in, to what was written before. -/
def prettyOnto (levels : Nat) (written : Output) : Tree → Output
  | .list [] => written.append [0x5B, 0x5D]
  | .list (item :: items) =>
    let entries := prettyItemsOnto (levels + 1) true (written.append [0x5B]) (item :: items)
    entries.append (newLine levels ++ [0x5D])
  | .map [] => written.append [0x7B, 0x7D]
  | .map (pair :: pairs) =>
    let entries := prettyPairsOnto (levels + 1) true (written.append [0x7B]) (pair :: pairs)
    entries.append (newLine levels ++ [0x7D])
  | scalar => written.append (scalarForm scalar)

def prettyItemsOnto (levels : Nat) (isFirst : Bool) (written : Output) : List Tree → Output
  | [] => written
  | item :: items =>
    let headed := written.append (entryStart levels isFirst)
    prettyItemsOnto levels false (prettyOnto levels headed item) items

def prettyPairsOnto (levels : Nat) (isFirst : Bool) (written : Output) :
    List (Bytes × Tree) → Output
  | [] => written
  | (k, value) :: pairs =>
    let headed := written.append (entryStart levels isFirst ++ textForm k ++ [0x3A, 0x20])
    prettyPairsOnto levels false (prettyOnto levels headed value) pairs

end

/-- The form of a tree with each entry on its own line. -/
def pretty (t : Tree) : Bytes := (prettyOnto 0 Output.empty t).bytes

end TreeDigest.Json
