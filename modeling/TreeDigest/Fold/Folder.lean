import TreeDigest.Error
import TreeDigest.Fold.Options

/-!
# Folding events into a digest

A folder takes a document as a sequence of events, whether they come from
walking a tree or from reading bytes, and absorbs it in one canonical way:

- a scalar is absorbed once;
- a list is its elements in order, then their count;
- a map is, for each pair, the key and then the value, then the count of pairs.

It keeps the containers that are open, and refuses any event that no document
has at that point, any nesting beyond its limit, and any container whose declared
count is not the real one. A refusal says nothing about the folder being left as
it was: what each refused event leaves behind is part of its definition.

When the order of pairs does not count, each map holds back what its pairs would
absorb and releases it, sorted by key, when it closes. Held-back primitives of an
inner map go to the map around it, so sorting happens at every level.
-/

namespace TreeDigest

/-- One step of a traversal. A container may declare how many entries it has. -/
inductive Event where
  | null
  | bool (b : Bool)
  | int (i : Int64)
  | uint (u : UInt64)
  | double (bits : UInt64)
  | single (bits : UInt32)
  | text (octets : Bytes)
  | key (octets : Bytes)
  | beginList (declared : Option UInt32)
  | beginMap (declared : Option UInt32)
  | endList
  | endMap

/-- Whose limits a folder enforces, and so how their violation is reported. -/
inductive Side where
  | encode
  | decode
  deriving DecidableEq

/-- A pair of a map that is held back, with what its value absorbs, newest first. -/
structure HeldPair where
  key : Bytes
  primitives : List Primitive

/-- A container that is open. -/
inductive Frame where
  | list (declared : Option UInt32) (seen : UInt32)
  /-- `held`, newest first, is present if pairs are to be sorted. -/
  | map (declared : Option UInt32) (seen : UInt32) (keyPending : Bool)
      (held : Option (List HeldPair))

namespace Frame

def shape : Frame → Shape
  | .list _ _ => .list
  | .map _ _ _ _ => .map

/-- Holds a primitive back in the newest pair, if this is a sorting map that has one. -/
def hold? (p : Primitive) : Frame → Option Frame
  | .map declared seen keyPending (some (pair :: pairs)) =>
    some (.map declared seen keyPending
      (some ({ pair with primitives := p :: pair.primitives } :: pairs)))
  | _ => none

end Frame

/-- A fold under way. -/
structure Folder where
  side : Side
  keyOrder : KeyOrder
  limit : Nat
  digest : Digest
  /-- The open containers, innermost first. -/
  frames : List Frame
  /-- Whether the root value is complete. -/
  complete : Bool

namespace Folder

/-- A fold that has seen nothing yet. -/
def start (side : Side) (o : FoldOptions) : Folder where
  side := side
  keyOrder := o.keyOrder
  limit := o.depthLimit
  digest := ⟨o.seed⟩
  frames := []
  complete := false

/-- How many containers are open. -/
def depth (f : Folder) : Nat := f.frames.length

/-! ## Absorbing -/

/-- Holds a primitive back in the innermost sorting map that has a pair, if there is one. -/
def holdIn? (p : Primitive) : List Frame → Option (List Frame)
  | [] => none
  | frame :: frames =>
    match frame.hold? p with
    | some held => some (held :: frames)
    | none => (holdIn? p frames).map (frame :: ·)

/-- Absorbs a primitive, or holds it back while a map around it is being sorted. -/
def take (f : Folder) (p : Primitive) : Folder :=
  match holdIn? p f.frames with
  | some frames => { f with frames }
  | none => { f with digest := f.digest.absorb p }

/-- Pairs in the order in which they are absorbed: by key, those of one key as they came. -/
def sortPairs (newestFirst : List HeldPair) : List HeldPair :=
  newestFirst.reverse.mergeSort fun a b => decide (a.key ≤ b.key)

/-- What a map held back, in the order of its keys. -/
def released (newestFirst : List HeldPair) : List Primitive :=
  (sortPairs newestFirst).flatMap fun pair => .bytes pair.key :: pair.primitives.reverse

/-! ## Counting -/

/-- The error of a container that has more entries than it declared. -/
def surplus? (declared : Option UInt32) (seen : UInt32) : Option Error :=
  match declared with
  | some d => if d < seen then some (.decode (.countMismatch d seen)) else none
  | none => none

/-- The error of a container that closes with another count than it declared. -/
def mismatch? (declared : Option UInt32) (seen : UInt32) : Option Error :=
  match declared with
  | some d => if d = seen then none else some (.decode (.countMismatch d seen))
  | none => none

/-- The greatest count a container can have. -/
def greatestCount : UInt32 := 0xFFFFFFFF

/-- The number of entries of a container as a fold counts them. -/
def countOf (entries : Nat) : Except Error UInt32 :=
  if entries < 0x100000000 then .ok entries.toUInt32 else .error (.protocol .countOverflow)

end Folder

/-- A step of a fold: its result, and the folder it leaves behind, also on failure. -/
abbrev Folding := EStateM Error Folder

namespace Folding

/-- Fails with an error if there is one. -/
def check : Option Error → Folding Unit
  | none => pure ()
  | some e => throw e

/-- Refuses a value where none can stand. -/
def expectValue : Folding Unit := do
  let f ← get
  if f.complete then throw (.protocol .afterRoot)
  match f.frames with
  | .map _ _ false _ :: _ => throw (.protocol .valueWithoutKey)
  | _ => pure ()

/-- Refuses another open container beyond the limit. -/
def checkDepth : Folding Unit := do
  let f ← get
  if f.limit ≤ f.depth then
    match f.side with
    | .encode => throw (.encode (.depthExceeded f.limit))
    | .decode => throw (.decode (.depthExceeded f.limit))

/-- Counts a complete value in the container around it, or completes the root. -/
def closeValue : Folding Unit := do
  let f ← get
  match f.frames with
  | [] => set { f with complete := true }
  | .list declared seen :: frames =>
    if seen = Folder.greatestCount then throw (.protocol .countOverflow)
    set { f with frames := .list declared (seen + 1) :: frames }
    check (Folder.surplus? declared (seen + 1))
  | .map declared seen _ held :: frames =>
    if seen = Folder.greatestCount then
      set { f with frames := .map declared seen false held :: frames }
      throw (.protocol .countOverflow)
    set { f with frames := .map declared (seen + 1) false held :: frames }
    check (Folder.surplus? declared (seen + 1))

/-- A scalar: absorbed once. -/
def scalar (p : Primitive) : Folding Unit := do
  expectValue
  modify (·.take p)
  closeValue

def beginList (declared : Option UInt32) : Folding Unit := do
  expectValue
  checkDepth
  modify fun f => { f with frames := .list declared 0 :: f.frames }

def beginMap (declared : Option UInt32) : Folding Unit := do
  expectValue
  checkDepth
  modify fun f =>
    let held := match f.keyOrder with
      | .preserve => none
      | .sorted => some []
    { f with frames := .map declared 0 false held :: f.frames }

/-- The key of the next pair, absorbed at once unless pairs are sorted. -/
def key (octets : Bytes) : Folding Unit := do
  let f ← get
  match f.frames with
  | .map _ _ true _ :: _ => throw (.protocol .keyAfterKey)
  | .map declared seen false (some pairs) :: frames =>
    set { f with frames := .map declared seen true (some (⟨octets, []⟩ :: pairs)) :: frames }
  | .map declared seen false none :: frames =>
    set ({ f with frames := .map declared seen true none :: frames }.take (.bytes octets))
  | _ => throw (.protocol .keyOutsideMap)

/-- The end of a list. A list with a wrong count is closed all the same. -/
def endList : Folding Unit := do
  let f ← get
  match f.frames with
  | .list declared seen :: frames =>
    set { f with frames }
    check (Folder.mismatch? declared seen)
    modify (·.take (.count seen))
    closeValue
  | frame :: _ => throw (.protocol (.mismatchedEnd .list frame.shape))
  | [] => throw (.protocol (.unbalancedEnd .list))

/-- The end of a map. A map with a wrong count or a key without a value is closed all the same. -/
def endMap : Folding Unit := do
  let f ← get
  match f.frames with
  | .map _ _ true _ :: frames =>
    set { f with frames }
    throw (.protocol .danglingKey)
  | .map declared seen false held :: frames =>
    set { f with frames }
    check (Folder.mismatch? declared seen)
    modify fun f => (Folder.released (held.getD [])).foldl Folder.take f
    modify (·.take (.count seen))
    closeValue
  | frame :: _ => throw (.protocol (.mismatchedEnd .map frame.shape))
  | [] => throw (.protocol (.unbalancedEnd .map))

/-- Any event. -/
def event : Event → Folding Unit
  | .null => scalar .null
  | .bool b => scalar (.bool b)
  | .int i => scalar (.int i)
  | .uint u => scalar (.uint u)
  | .double bits => scalar (.double bits)
  | .single bits => scalar (.double (Binary.widen bits))
  | .text octets => scalar (.bytes octets)
  | .key octets => key octets
  | .beginList declared => beginList declared
  | .beginMap declared => beginMap declared
  | .endList => endList
  | .endMap => endMap

/-- The count of a container that is about to be declared. -/
def count (entries : Nat) : Folding UInt32 :=
  match Folder.countOf entries with
  | .ok n => pure n
  | .error e => throw e

mutual

/-- A tree as the events of its traversal, every container declaring its count. -/
def tree : Tree → Folding Unit
  | .null => event .null
  | .bool b => event (.bool b)
  | .int i => event (.int i)
  | .uint u => event (.uint u)
  | .double bits => event (.double bits)
  | .text octets => event (.text octets)
  | .list items => do
    let n ← count items.length
    event (.beginList (some n))
    trees items
    event .endList
  | .map pairs => do
    let n ← count pairs.length
    event (.beginMap (some n))
    members pairs
    event .endMap

/-- Trees one after the other. -/
def trees : List Tree → Folding Unit
  | [] => pure ()
  | item :: items => do
    tree item
    trees items

/-- Keys, each with its tree. -/
def members : List (Bytes × Tree) → Folding Unit
  | [] => pure ()
  | (k, value) :: pairs => do
    event (.key k)
    tree value
    members pairs

end

end Folding

/-- The digest of a fold that has seen a whole document. -/
def Folder.finish (f : Folder) : Except Error Digest :=
  if f.frames.isEmpty then
    if f.complete then .ok f.digest else .error (.protocol .noRoot)
  else .error (.protocol (.unterminated f.depth))

/-- The digest of a tree, by walking it on a side. -/
def foldTreeOn (side : Side) (t : Tree) (o : FoldOptions) : Except Error Digest :=
  match Folding.tree t (Folder.start side o) with
  | .ok _ f => f.finish
  | .error e _ => .error e

/-- The digest of a tree, by walking it. -/
def foldTree (t : Tree) (o : FoldOptions) : Except Error Digest := foldTreeOn .encode t o

end TreeDigest
