/-!
# A source of random words

The words come from a stream cipher with a zero message: a key of eight words is
expanded, block by block, into as many words as are asked for. A block is four
rows of four words: constants, two rows of key, and a row that holds the number
of the block. Mixing works on the columns and on the diagonals in turn, six
times each, and the block as it was before is added at the end, so that mixing
cannot be undone.

The key itself is expanded from a 64-bit seed. So a seed fixes every word that
will ever be drawn.
-/

namespace TreeDigest.Random

/-! ## Blocks -/

/-- Four words. -/
structure Row where
  w0 : UInt32
  w1 : UInt32
  w2 : UInt32
  w3 : UInt32

namespace Row

/-- Word by word. -/
def zipWith (f : UInt32 → UInt32 → UInt32) (x y : Row) : Row :=
  ⟨f x.w0 y.w0, f x.w1 y.w1, f x.w2 y.w2, f x.w3 y.w3⟩

/-- The words in order. -/
def toList (x : Row) : List UInt32 := [x.w0, x.w1, x.w2, x.w3]

/-- The same words, each one place further to the left, the first one last. -/
def shift (x : Row) : Row := ⟨x.w1, x.w2, x.w3, x.w0⟩

end Row

/-- A word turned to the left by `k` places, for `k` strictly between 0 and 32. -/
def turn (k x : UInt32) : UInt32 := (x <<< k) ||| (x >>> (32 - k))

/-- Four rows of words. -/
structure Block where
  a : Row
  b : Row
  c : Row
  d : Row

namespace Block

/-- Row by row. -/
def zipWith (f : UInt32 → UInt32 → UInt32) (x y : Block) : Block :=
  ⟨x.a.zipWith f y.a, x.b.zipWith f y.b, x.c.zipWith f y.c, x.d.zipWith f y.d⟩

/-- The words in order, row by row. -/
def toList (x : Block) : List UInt32 := x.a.toList ++ x.b.toList ++ x.c.toList ++ x.d.toList

/-- Mixes the words of each column. -/
def mixColumns (x : Block) : Block :=
  let add := Row.zipWith (· + ·)
  let cross (k : UInt32) := Row.zipWith fun p q => turn k (p ^^^ q)
  let a := add x.a x.b
  let d := cross 16 x.d a
  let c := add x.c d
  let b := cross 12 x.b c
  let a := add a b
  let d := cross 8 d a
  let c := add c d
  let b := cross 7 b c
  ⟨a, b, c, d⟩

/-- Makes columns of the diagonals. -/
def slant (x : Block) : Block := ⟨x.a, x.b.shift, x.c.shift.shift, x.d.shift.shift.shift⟩

/-- Makes diagonals of the columns. -/
def straighten (x : Block) : Block := ⟨x.a, x.b.shift.shift.shift, x.c.shift.shift, x.d.shift⟩

/-- Mixes columns and then diagonals, `n` times. -/
def mix (x : Block) : (n : Nat) → Block
  | 0 => x
  | n + 1 => mix x.mixColumns.slant.mixColumns.straighten n

/-- The first row of every block before it is mixed. -/
def constants : Row := ⟨0x61707865, 0x3320646E, 0x79622D32, 0x6B206574⟩

end Block

/-- Eight words. -/
structure Key where
  low : Row
  high : Row

/-- The words of a block of a number. -/
def Key.block (key : Key) (number : UInt64) : List UInt32 :=
  let plain : Block :=
    ⟨Block.constants, key.low, key.high, ⟨number.toUInt32, (number >>> 32).toUInt32, 0, 0⟩⟩
  ((plain.mix 6).zipWith (· + ·) plain).toList

/-! ## Keys from seeds -/

/-- The state after a state in the expansion of a seed. -/
def nextSeed (s : UInt64) : UInt64 := s * 6364136223846793005 + 11634580027462260723

/-- The word that a state of the expansion gives. -/
def seedWord (s : UInt64) : UInt32 :=
  let x := (((s >>> 18) ^^^ s) >>> 27).toUInt32
  let k := (s >>> 59).toUInt32
  if k = 0 then x else turn (32 - k) x

/-- Four words of the expansion, and the state after them. -/
def seedRow (s : UInt64) : Row × UInt64 :=
  let s0 := nextSeed s
  let s1 := nextSeed s0
  let s2 := nextSeed s1
  let s3 := nextSeed s2
  (⟨seedWord s0, seedWord s1, seedWord s2, seedWord s3⟩, s3)

/-- The key of a seed. -/
def Key.ofSeed (seed : UInt64) : Key :=
  let (low, s) := seedRow seed
  ⟨low, (seedRow s).1⟩

/-! ## Words -/

/-- Where the words come from: the rest of one block and all further ones. -/
structure Source where
  key : Key
  /-- The words left of the last block. -/
  pending : List UInt32
  /-- The number of the next block. -/
  number : UInt64

/-- The source of a seed. -/
def Source.ofSeed (seed : UInt64) : Source := ⟨Key.ofSeed seed, [], 0⟩

/-- The next word, and the source after it. -/
def Source.next (s : Source) : UInt32 × Source :=
  match s.pending with
  | word :: pending => (word, { s with pending })
  | [] =>
    match s.key.block s.number with
    | word :: pending => (word, { s with pending, number := s.number + 1 })
    | [] => (0, s)

end TreeDigest.Random
