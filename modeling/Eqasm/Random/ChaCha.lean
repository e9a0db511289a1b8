/-!
# A stream of random words

The ChaCha stream cipher with eight rounds, used as a generator: block `n` of the stream is the
cipher's block function at counter `n`. A key of 256 bits is derived from a seed of 64 bits by a
permuted congruential generator. `Stream.next` gives 64 bits at a time, and the stream depends on
the seed alone.
-/

namespace Eqasm.Random

/-! ## The block function -/

/-- A row of the cipher's state, which has four rows of four words. -/
structure Row where
  w₀ : UInt32
  w₁ : UInt32
  w₂ : UInt32
  w₃ : UInt32
  deriving DecidableEq, Repr

namespace Row

/-- Applies an operation word by word. -/
def zip (f : UInt32 → UInt32 → UInt32) (a b : Row) : Row :=
  ⟨f a.w₀ b.w₀, f a.w₁ b.w₁, f a.w₂ b.w₂, f a.w₃ b.w₃⟩

/-- The words of a row from the first to the last. -/
def toList (a : Row) : List UInt32 :=
  [a.w₀, a.w₁, a.w₂, a.w₃]

/-- Rotates each word `n` bits to the left. -/
def rotateWords (n : UInt32) (a : Row) : Row :=
  let rotate (w : UInt32) := (w <<< n) ||| (w >>> (32 - n))
  ⟨rotate a.w₀, rotate a.w₁, rotate a.w₂, rotate a.w₃⟩

/-- Moves the row one place to the left. -/
def turn (a : Row) : Row :=
  ⟨a.w₁, a.w₂, a.w₃, a.w₀⟩

end Row

/-- The state of the cipher. -/
structure Block where
  a : Row
  b : Row
  c : Row
  d : Row
  deriving DecidableEq, Repr

namespace Block

/-- The quarter round, on all four columns at once. -/
def round (s : Block) : Block :=
  let add := Row.zip (· + ·)
  let mix (n : UInt32) (x y : Row) := (Row.zip (· ^^^ ·) x y).rotateWords n
  let a := add s.a s.b
  let d := mix 16 s.d a
  let c := add s.c d
  let b := mix 12 s.b c
  let a := add a b
  let d := mix 8 d a
  let c := add c d
  let b := mix 7 b c
  ⟨a, b, c, d⟩

/-- A round on the columns and one on the diagonals. -/
def doubleRound (s : Block) : Block :=
  let s := s.round
  let s := (⟨s.a, s.b.turn, s.c.turn.turn, s.d.turn.turn.turn⟩ : Block).round
  ⟨s.a, s.b.turn.turn.turn, s.c.turn.turn, s.d.turn⟩

/-- The words of the block that is made from a state by eight rounds. -/
def output (s : Block) : List UInt32 :=
  let t := s.doubleRound.doubleRound.doubleRound.doubleRound
  let add := Row.zip (· + ·)
  (add s.a t.a).toList ++ (add s.b t.b).toList ++ (add s.c t.c).toList ++ (add s.d t.d).toList

end Block

/-! ## Keys -/

/-- A key of eight words. -/
structure Key where
  low : Row
  high : Row
  deriving DecidableEq, Repr

/-- One step of the generator that makes keys. -/
def stepSeed (s : UInt64) : UInt64 :=
  s * 6364136223846793005 + 11634580027462260723

/-- The word that the generator gives in a state: the high bits decide how far it is rotated. -/
def seedWord (s : UInt64) : UInt32 :=
  let word := (((s >>> 18) ^^^ s) >>> 27).toUInt32
  let n := (s >>> 59).toUInt32
  (word >>> n) ||| (word <<< ((32 - n) % 32))

/-- Four words and the state behind them. -/
def seedRow (s : UInt64) : Row × UInt64 :=
  let s₀ := stepSeed s
  let s₁ := stepSeed s₀
  let s₂ := stepSeed s₁
  let s₃ := stepSeed s₂
  (⟨seedWord s₀, seedWord s₁, seedWord s₂, seedWord s₃⟩, s₃)

/-- The key of a seed. -/
def Key.ofSeed (seed : UInt64) : Key :=
  let (low, s) := seedRow seed
  ⟨low, (seedRow s).1⟩

/-! ## Streams -/

/-- A place in the stream of a key. -/
structure Stream where
  key : Key
  /-- How often 64 bits were taken. -/
  taken : Nat
  deriving DecidableEq, Repr

namespace Stream

/-- The start of the stream of a seed. -/
def ofSeed (seed : UInt64) : Stream :=
  ⟨.ofSeed seed, 0⟩

/-- Block `n` of the stream. -/
def block (s : Stream) (n : Nat) : List UInt32 :=
  Block.output
    ⟨⟨0x61707865, 0x3320646e, 0x79622d32, 0x6b206574⟩, s.key.low, s.key.high,
      ⟨.ofNat n, .ofNat (n >>> 32), 0, 0⟩⟩

/-- The next 64 bits, of two words the first one in the low half. -/
def next (s : Stream) : UInt64 × Stream :=
  let words := (s.block (s.taken / 8)).drop (2 * (s.taken % 8))
  let low := words.headD 0
  let high := (words.drop 1).headD 0
  (low.toUInt64 ||| (high.toUInt64 <<< 32), { s with taken := s.taken + 1 })

end Stream

end Eqasm.Random
