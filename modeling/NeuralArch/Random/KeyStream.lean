import NeuralArch.Random.Source

/-!
# A seeded source

A key stream: the words of successive blocks, each computed from a key and
its block number by six double rounds of additions, exclusive ors and
rotations (the ChaCha core). A block is kept as four rows of four words, so
that a round works on all columns at once, and works on the diagonals after
the rows are turned.

The key is derived from a seed of 64 bits. A word of 64 bits takes two of the
stream, the lower half first.
-/

namespace NeuralArch

/-- Four words. -/
structure Row where
  a : UInt32
  b : UInt32
  c : UInt32
  d : UInt32
deriving DecidableEq, Repr

namespace Row

def zip (f : UInt32 → UInt32 → UInt32) (x y : Row) : Row :=
  ⟨f x.a y.a, f x.b y.b, f x.c y.c, f x.d y.d⟩

def map (f : UInt32 → UInt32) (x : Row) : Row := ⟨f x.a, f x.b, f x.c, f x.d⟩

/-- The row turned left by one word. -/
def turn (x : Row) : Row := ⟨x.b, x.c, x.d, x.a⟩

def toList (x : Row) : List UInt32 := [x.a, x.b, x.c, x.d]

end Row

namespace KeyStream

/-- The bits of a word turned left. -/
def rotateLeft (x : UInt32) (n : UInt32) : UInt32 := (x <<< n) ||| (x >>> (32 - n))

/-- A block as four rows. -/
structure Block where
  r0 : Row
  r1 : Row
  r2 : Row
  r3 : Row
deriving DecidableEq, Repr

namespace Block

def add (x y : Row) : Row := x.zip (· + ·) y

/-- Exclusive or, then a rotation. -/
def mix (n : UInt32) (x y : Row) : Row := (x.zip (· ^^^ ·) y).map (rotateLeft · n)

/-- A round on the four columns. -/
def columnRound (b : Block) : Block :=
  let r0 := add b.r0 b.r1
  let r3 := mix 16 b.r3 r0
  let r2 := add b.r2 r3
  let r1 := mix 12 b.r1 r2
  let r0 := add r0 r1
  let r3 := mix 8 r3 r0
  let r2 := add r2 r3
  let r1 := mix 7 r1 r2
  ⟨r0, r1, r2, r3⟩

/-- Turns the rows so that diagonals become columns. -/
def turn (b : Block) : Block := ⟨b.r0, b.r1.turn, b.r2.turn.turn, b.r3.turn.turn.turn⟩

/-- Turns the rows back. -/
def turnBack (b : Block) : Block := ⟨b.r0, b.r1.turn.turn.turn, b.r2.turn.turn, b.r3.turn⟩

/-- A round on the columns and one on the diagonals. -/
def doubleRound (b : Block) : Block := b.columnRound.turn.columnRound.turnBack

def rounds : Nat → Block → Block
  | 0, b => b
  | n + 1, b => rounds n b.doubleRound

def toList (b : Block) : List UInt32 := b.r0.toList ++ b.r1.toList ++ b.r2.toList ++ b.r3.toList

@[simp] theorem turnBack_turn (b : Block) : b.turn.turnBack = b := rfl

end Block

/-- The words of a block: twelve rounds on constants, key and block number, added to what they
started from. -/
def blockWords (key0 key1 : Row) (number : UInt64) : List UInt32 :=
  let start : Block :=
    ⟨⟨0x61707865, 0x3320646e, 0x79622d32, 0x6b206574⟩, key0, key1,
      ⟨number.toUInt32, (number >>> 32).toUInt32, 0, 0⟩⟩
  let mixed := start.rounds 6
  Block.toList
    ⟨Block.add mixed.r0 start.r0, Block.add mixed.r1 start.r1, Block.add mixed.r2 start.r2,
      Block.add mixed.r3 start.r3⟩

/-- The state behind a seed, and the key word it gives. -/
def keyWord (state : UInt64) : UInt32 × UInt64 :=
  let state := state * 6364136223846793005 + 11634580027462260723
  let shifted := (((state >>> 18) ^^^ state) >>> 27).toUInt32
  let turned := (state >>> 59).toUInt32
  (rotateLeft shifted ((32 - turned) % 32), state)

/-- Four key words in a row. -/
def keyRow (state : UInt64) : Row × UInt64 :=
  let (a, state) := keyWord state
  let (b, state) := keyWord state
  let (c, state) := keyWord state
  let (d, state) := keyWord state
  (⟨a, b, c, d⟩, state)

end KeyStream

/-- A key stream: the key, the number of the next block, and the words not yet drawn. -/
structure KeyStream where
  key0 : Row
  key1 : Row
  number : UInt64
  pending : List UInt32
deriving Repr

namespace KeyStream

/-- The stream of a seed. -/
def ofSeed (seed : UInt64) : KeyStream :=
  let (key0, state) := keyRow seed
  let (key1, _) := keyRow state
  ⟨key0, key1, 0, []⟩

/-- The next word. -/
def next (s : KeyStream) : UInt32 × KeyStream :=
  match s.pending with
  | w :: pending => (w, { s with pending })
  | [] =>
    match blockWords s.key0 s.key1 s.number with
    | w :: pending => (w, { s with pending, number := s.number + 1 })
    | [] => (0, s)

instance : RandomSource KeyStream where
  nextWord s :=
    let (low, s) := next s
    let (high, s) := next s
    (low.toUInt64 ||| (high.toUInt64 <<< 32), s)
  nextHalf := next

end KeyStream

end NeuralArch
