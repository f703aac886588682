import TreeDigest.Proofs.Input.Claims
import TreeDigest.Proofs.MessagePack.Spends

/-!
# MessagePack claims need not be checked

The two readers once more, told by an argument how they check what a head claims. That they
need the octets makes them the readers they are copies of. If they trust the head instead,
they give the same trees and fold to the same digests: every element takes an octet, its tag,
and every pair two, so that entries that are read to their end were all there.
-/

namespace TreeDigest.MessagePack

open Steps (Concurs)

variable {check : Nat → Reader Unit} {limit levels : Nat}

/-! ## Readers that are told how to check -/

/-- Hands one element to the folder and checks claims in a way that is given. -/
def foldWith (check : Nat → Reader Unit) (levels : Nat) : Decoder Cursor Unit := do
  match ← Decoder.read tag with
  | .null => Decoder.fold .null
  | .bool b => Decoder.fold (.bool b)
  | .int i => Decoder.fold (.int i)
  | .uint u => Decoder.fold (.uint u)
  | .single bits => Decoder.fold (.single bits)
  | .double bits => Decoder.fold (.double bits)
  | .text octets => Decoder.fold (.text octets)
  | .array count => do
    Decoder.fold (.beginList (some count))
    match levels with
    | 0 => pure ()
    | levels + 1 => do
      Decoder.read (check (count.toNat * 1))
      Loop.times (foldWith check levels) count.toNat
      Decoder.fold .endList
  | .map count => do
    Decoder.fold (.beginMap (some count))
    match levels with
    | 0 => pure ()
    | levels + 1 => do
      Decoder.read (check (count.toNat * 2))
      Loop.times (foldPair (foldWith check levels)) count.toNat
      Decoder.fold .endMap

/-- Builds the tree of one element and checks claims in a way that is given. -/
def readWith (check : Nat → Reader Unit) (limit levels : Nat) : Reader Tree := do
  match ← tag with
  | .null => return .null
  | .bool b => return .bool b
  | .int i => return .int i
  | .uint u => return .uint u
  | .single bits => return .double (Binary.widen bits)
  | .double bits => return .double bits
  | .text octets => return .text octets
  | .array count =>
    match levels with
    | 0 => throw (.depthExceeded limit)
    | levels + 1 => do
      check (count.toNat * 1)
      return .list (← Loop.collect (readWith check limit levels) count.toNat)
  | .map count =>
    match levels with
    | 0 => throw (.depthExceeded limit)
    | levels + 1 => do
      check (count.toNat * 2)
      return .map (← Loop.collect (readPair (readWith check limit levels)) count.toNat)

/-- The digest of an input, folded while it is read. -/
def decodeStreamWith (check : Nat → Reader Unit) (input : Bytes) (o : FoldOptions) :
    Except Error Digest :=
  Decoder.run (Decoder.whole (foldWith check o.depthLimit)) (Cursor.start input) o

/-- Reads a whole input as one tree with at most `limit` containers open at once. -/
def readTreeWith (check : Nat → Reader Unit) (input : Bytes) (limit : Nat) : Except Error Tree :=
  (readWith check limit limit).whole input

/-- Reads an input as one tree, at most to the ceiling. -/
def readValueWith (check : Nat → Reader Unit) (input : Bytes) (maxDepth : Nat) : Except Error Tree :=
  readTreeWith check input (min maxDepth FoldOptions.depthCeiling)

/-- The digest of an input, folded after it was read. -/
def decodeTreeWith (check : Nat → Reader Unit) (input : Bytes) (o : FoldOptions) :
    Except Error Digest := do
  let t ← readTreeWith check input o.depthLimit
  foldTree t o

/-! ## Readers that need what is claimed -/

theorem foldWith_need : foldWith Reader.need levels = fold levels := by
  induction levels with
  | zero =>
    unfold foldWith fold
    rfl
  | succ levels ih =>
    rw [foldWith, fold]
    dsimp only
    rw [ih]
    rfl

theorem readWith_need : readWith Reader.need limit levels = read limit levels := by
  induction levels with
  | zero =>
    unfold readWith read
    rfl
  | succ levels ih =>
    rw [readWith, read]
    dsimp only
    rw [ih]
    rfl

theorem decodeStreamWith_need (input : Bytes) (o : FoldOptions) :
    decodeStreamWith Reader.need input o = decodeStream input o := by
  rw [decodeStreamWith, foldWith_need]
  rfl

theorem readTreeWith_need (input : Bytes) :
    readTreeWith Reader.need input limit = readTree input limit := by
  rw [readTreeWith, readWith_need, readTree]

theorem decodeTreeWith_need (input : Bytes) (o : FoldOptions) :
    decodeTreeWith Reader.need input o = decodeTree input o := by
  rw [decodeTreeWith, readTreeWith_need]
  rfl

/-! ## Readers that trust what is claimed -/

theorem readWith_concurs :
    Concurs (fun _ => True) (read limit levels) (readWith Reader.trust limit levels) := by
  induction levels with
  | zero =>
    rw [read, readWith]
    exact .refl _
  | succ levels ih =>
    rw [read, readWith]
    refine .after (fun _ _ => trivial) fun tag => ?_
    cases tag with
    | array count =>
      exact Reader.claimed (.first (ih.collect _)) (spends_collect spends_read count.toNat .list)
    | map count =>
      have hpair : Concurs (fun _ => True) (readPair (read limit levels))
          (readPair (readWith Reader.trust limit levels)) :=
        .after (fun _ _ => trivial) fun k => .first ih
      exact Reader.claimed (.first (hpair.collect _))
        (spends_collect (spends_readPair spends_read) count.toNat .map)
    | _ => exact .refl _

theorem foldWith_concurs : Concurs (fun _ => True) (fold levels) (foldWith Reader.trust levels) := by
  induction levels with
  | zero =>
    rw [fold, foldWith]
    exact .refl _
  | succ levels ih =>
    rw [fold, foldWith]
    refine .after (fun _ _ => trivial) fun tag => ?_
    cases tag with
    | array count =>
      have hentries : Concurs (fun _ => True)
          (do Loop.times (fold levels) count.toNat; Decoder.fold .endList)
          (do Loop.times (foldWith Reader.trust levels) count.toNat; Decoder.fold .endList) :=
        .first (ih.times (fun _ _ => trivial) _)
      exact .after (fun _ _ => trivial) fun _ =>
        Decoder.claimed hentries fun _ hok =>
          (spends_times spends_fold count.toNat .endList).le hok
    | map count =>
      have hpair : Concurs (fun _ => True) (foldPair (fold levels))
          (foldPair (foldWith Reader.trust levels)) :=
        .after (fun _ _ => trivial) fun k => .after (fun _ _ => trivial) fun _ => ih
      have hentries : Concurs (fun _ => True)
          (do Loop.times (foldPair (fold levels)) count.toNat; Decoder.fold .endMap)
          (do Loop.times (foldPair (foldWith Reader.trust levels)) count.toNat; Decoder.fold .endMap) :=
        .first (hpair.times (fun _ _ => trivial) _)
      exact .after (fun _ _ => trivial) fun _ =>
        Decoder.claimed hentries fun _ hok =>
          (spends_times (spends_foldPair spends_fold) count.toNat .endMap).le hok
    | _ => exact .refl _

/-! ## Whole inputs -/

variable {input : Bytes} {o : FoldOptions} {digest : Digest} {t : Tree}

theorem decodeStreamWith_trust :
    decodeStreamWith Reader.trust input o = .ok digest ↔ decodeStream input o = .ok digest :=
  (Decoder.run_iff (.first foldWith_concurs) trivial).symm

theorem readTreeWith_trust :
    readTreeWith Reader.trust input limit = .ok t ↔ readTree input limit = .ok t := by
  rw [readTreeWith, readTree]
  exact (Reader.whole_iff readWith_concurs).symm

theorem decodeTreeWith_trust :
    decodeTreeWith Reader.trust input o = .ok digest ↔ decodeTree input o = .ok digest := by
  have hbind : ∀ {tree : Except Error Tree}, (tree >>= (foldTree · o)) = .ok digest ↔
      ∃ t, tree = .ok t ∧ foldTree t o = .ok digest := by
    intro tree
    cases tree with
    | ok t => exact ⟨fun h => ⟨t, rfl, h⟩, by rintro ⟨t', ⟨⟩, h⟩; exact h⟩
    | error e => exact ⟨nofun, by rintro ⟨t, ⟨⟩, h⟩⟩
  rw [decodeTreeWith, decodeTree, hbind, hbind]
  exact exists_congr fun t => and_congr_left fun _ => readTreeWith_trust

end TreeDigest.MessagePack
