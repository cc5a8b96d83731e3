import ParetoSearch.Random.ChaCha

/-!
# Other generators

Two simple generators for rehearsing: a list of words repeated for ever, and the SplitMix sequence.
Both make words of 64 bits; a word of 32 bits is the lower half of one. `Source` is a generator of
any of the kinds.
-/

namespace ParetoSearch

/-- A list of words repeated for ever. -/
structure Cycle where
  words : List UInt64
  /-- What is left of the list in this turn. -/
  rest : List UInt64 := []
  deriving Repr, DecidableEq

/-- The next word; no words repeat as zeros. -/
def Cycle.next (g : Cycle) : UInt64 × Cycle :=
  match g.rest, g.words with
  | word :: rest, _ => (word, { g with rest })
  | [], word :: rest => (word, { g with rest })
  | [], [] => (0, g)

/-- The SplitMix sequence, by its last state. -/
structure SplitMix where
  state : UInt64
  deriving Repr, DecidableEq

/-- The next word. -/
def SplitMix.next (g : SplitMix) : UInt64 × SplitMix :=
  let s := g.state + 0x9E3779B97F4A7C15
  let z := (s ^^^ (s >>> 30)) * 0xBF58476D1CE4E5B9
  let z := (z ^^^ (z >>> 27)) * 0x94D049BB133111EB
  (z ^^^ (z >>> 31), ⟨s⟩)

/-- A generator of one of the kinds. -/
inductive Source where
  | seeded (stream : ChaCha)
  | cycle (words : Cycle)
  | splitMix (sequence : SplitMix)
  deriving Repr, DecidableEq

namespace Source

/-- The next word of 64 bits. -/
def nextLong : Source → UInt64 × Source
  | seeded g => g.nextPair.map id seeded
  | cycle g => g.next.map id cycle
  | splitMix g => g.next.map id splitMix

/-- The next word of 32 bits. -/
def nextShort : Source → UInt32 × Source
  | seeded g => g.next.map id seeded
  | cycle g => g.next.map UInt64.toUInt32 cycle
  | splitMix g => g.next.map UInt64.toUInt32 splitMix

instance : Generator Source where
  next32 := nextShort
  next64 := nextLong

end Source

end ParetoSearch
