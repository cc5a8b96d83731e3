import ParetoSearch.Random.Generator

/-!
# The seeded generator

The ChaCha stream cipher with twelve rounds, read as an endless stream of words of 32 bits: block
after block of sixteen words, counted from zero. A word of 64 bits is the next two words, the lower
half first. The key comes from a linear congruential sequence that the seed starts.
-/

namespace ParetoSearch

/-- A stream of words: the key, the number of the next block, and what is left of the last. -/
structure ChaCha where
  key : Vector UInt32 8
  counter : UInt64
  pending : List UInt32
  deriving Repr, DecidableEq

namespace ChaCha

/-! ### Blocks -/

/-- The word with its bits turned to the left by `k`, for `0 < k < 32`. -/
def rotateLeft (x k : UInt32) : UInt32 := (x <<< k) ||| (x >>> (32 - k))

/-- A quarter of a quarter round: `b` is added to `a`, which is then mixed into `d`. -/
def mix (a b d : Fin 16) (k : UInt32) (s : Vector UInt32 16) : Vector UInt32 16 :=
  let s := s.set a (s[a] + s[b])
  s.set d (rotateLeft (s[d] ^^^ s[a]) k)

/-- Mixes four words of the state. -/
def quarterRound (a b c d : Fin 16) (s : Vector UInt32 16) : Vector UInt32 16 :=
  mix c d b 7 (mix a b d 8 (mix c d b 12 (mix a b d 16 s)))

/-- A round on the columns of the state and one on its diagonals. -/
def doubleRound (s : Vector UInt32 16) : Vector UInt32 16 :=
  let s := quarterRound 3 7 11 15 (quarterRound 2 6 10 14 (quarterRound 1 5 9 13
    (quarterRound 0 4 8 12 s)))
  quarterRound 3 4 9 14 (quarterRound 2 7 8 13 (quarterRound 1 6 11 12
    (quarterRound 0 5 10 15 s)))

/-- The state before the rounds: four constants, the key, the number of the block, two zeros. -/
def start (key : Vector UInt32 8) (counter : UInt64) : Vector UInt32 16 :=
  let constants : Vector UInt32 4 := #v[0x61707865, 0x3320646e, 0x79622d32, 0x6b206574]
  constants ++ key ++ #v[counter.toUInt32, (counter >>> 32).toUInt32, 0, 0]

/-- The block with the given number. -/
def block (key : Vector UInt32 8) (counter : UInt64) : Vector UInt32 16 :=
  let s := start key counter
  (Nat.repeat doubleRound 6 s).zipWith (· + ·) s

/-! ### The key -/

/-- The sequence that the seed starts. -/
def advance (s : UInt64) : UInt64 := s * 6364136223846793005 + 11634580027462260723

/-- The word that a number of the sequence gives. -/
def keyWord (s : UInt64) : UInt32 :=
  let x := (((s >>> 18) ^^^ s) >>> 27).toUInt32
  let k := (s >>> 59).toUInt32
  (x >>> k) ||| (x <<< ((32 - k) % 32))

/-- The key of a seed. -/
def keyOfSeed (seed : UInt64) : Vector UInt32 8 :=
  Vector.ofFn fun i => keyWord (Nat.repeat advance (i + 1) seed)

/-- The stream that a seed starts. -/
def ofSeed (seed : UInt64) : ChaCha := ⟨keyOfSeed seed, 0, []⟩

/-! ### The stream -/

/-- The next word of the stream. -/
def next (g : ChaCha) : UInt32 × ChaCha :=
  match g.pending with
  | word :: rest => (word, { g with pending := rest })
  | [] =>
    let words := block g.key g.counter
    (words[0], { g with counter := g.counter + 1, pending := words.toList.drop 1 })

/-- The next two words of the stream as one, the lower half first. -/
def nextPair (g : ChaCha) : UInt64 × ChaCha :=
  let (low, g) := g.next
  let (high, g) := g.next
  ((high.toUInt64 <<< 32) ||| low.toUInt64, g)

instance : Seedable ChaCha where
  next32 := next
  next64 := nextPair
  ofSeed := ofSeed

end ChaCha

end ParetoSearch
