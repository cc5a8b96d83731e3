import ParetoSearch.Solution

/-!
# Variation operators

An operator makes children of a number of parents. It draws from the generator, and it may remember
things of its own; what it remembers lives in a world `W` that the operators and the problem of a
search share. A child may come evaluated already.
-/

namespace ParetoSearch

/-- A way to make children. -/
structure Variation (ρ W D : Type) where
  /-- How many parents are chosen for each call. -/
  arity : Nat
  /-- The children of some parents. -/
  evolve : List (Solution D) → EStateM Fault (ρ × W) (List (Solution D))

namespace Variation

variable {ρ W D : Type}

/-- The most parents that can be chosen for one call: a list takes less than `2 ^ 63` bytes, and a
reference to a parent eight of them. -/
def maxParents : Nat := 0x7fffffffffffffff / 8

/-- The children that the second operator makes of each single child. -/
def evolveEach (second : Variation ρ W D) :
    List (Solution D) → EStateM Fault (ρ × W) (List (Solution D))
  | [] => return []
  | child :: rest => do
    let children ← second.evolve [child]
    let others ← evolveEach second rest
    return children ++ others

/-- One operator after the other: the second varies each child of the first by itself. -/
def compound (first second : Variation ρ W D) : Variation ρ W D where
  arity := first.arity
  evolve parents := do evolveEach second (← first.evolve parents)

/-- The clamp of a probability to `[0, 1]`; what is not a number stays so. -/
def clampProbability (p : Float) : Float := if p < 0.0 then 0.0 else if 1.0 < p then 1.0 else p

/-- A distribution index, which is never negative. -/
def clampIndex (eta : Float) : Float := if 0.0 < eta then eta else 0.0

end Variation

end ParetoSearch
