import ParetoSearch.Power
import ParetoSearch.Random.Generator
import ParetoSearch.Variation.Basic
import ParetoSearch.Variation.Interval

/-!
# Simulated binary crossover

Two children lie symmetrically about the midpoint of their parents, variable by variable. How far
apart they are is drawn from a distribution whose index keeps them near the parents when it is
large, cut off so that neither child leaves the variable's interval.
-/

namespace ParetoSearch

variable {ρ W : Type} [Generator ρ]

/-- Simulated binary crossover on decisions of real variables. -/
structure BinaryCrossover where
  /-- The intervals of the variables; variables without one are inherited as they are. -/
  bounds : List Interval
  /-- The probability that a pair of parents is crossed at all. -/
  probability : Float := 1.0
  /-- The distribution index. -/
  index : Float := 15.0

namespace BinaryCrossover

/-- The operator with another probability. -/
def withProbability (op : BinaryCrossover) (p : Float) : BinaryCrossover :=
  { op with probability := Variation.clampProbability p }

/-- The operator with another distribution index. -/
def withIndex (op : BinaryCrossover) (eta : Float) : BinaryCrossover :=
  { op with index := Variation.clampIndex eta }

/-- The spread of the children relative to their parents. The number `u` picks a point of the
distribution; `room` measures how far the interval reaches beyond the parent. -/
def spread (eta u room : Float) : Float :=
  let alpha := 2.0 - power room (-(eta + 1.0))
  let exponent := 1.0 / (eta + 1.0)
  if u ≤ 1.0 / alpha then power (u * alpha) exponent
  else power (1.0 / (2.0 - u * alpha)) exponent

/-- The lower and the upper child of two values. -/
def children (b : Interval) (eta u x y : Float) : Float × Float :=
  let low := if x < y then x else y
  let high := if x < y then y else x
  let gap := high - low
  let below := spread eta u (1.0 + 2.0 * (low - b.lower) / gap)
  let above := spread eta u (1.0 + 2.0 * (b.upper - high) / gap)
  (b.clamp (0.5 * ((low + high) - below * gap)), b.clamp (0.5 * ((low + high) + above * gap)))

/-- Crosses the values of one variable, with an even chance. Values that are too close to each other
stay. -/
def crossValue (b : Interval) (eta x y : Float) : StateM ρ (Float × Float) := do
  let chosen ← Draw.coin
  if chosen && 1e-14 < (x - y).abs then
    let u ← Draw.unit
    let (low, high) := children b eta u x y
    let exchanged ← Draw.coin
    return if exchanged then (high, low) else (low, high)
  else return (x, y)

/-- Crosses two decisions, variable by variable. -/
def crossAll (eta : Float) :
    List Interval → List Float → List Float → StateM ρ (List Float × List Float)
  | b :: bs, x :: xs, y :: ys => do
    let (x, y) ← crossValue b eta x y
    let (xs, ys) ← crossAll eta bs xs ys
    return (x :: xs, y :: ys)
  | _, xs, ys => return (xs, ys)

/-- Crosses two decisions, with the operator's probability. -/
def cross (op : BinaryCrossover) (xs ys : List Float) : StateM ρ (List Float × List Float) := do
  let u ← Draw.unit
  if u < op.probability then crossAll op.index op.bounds xs ys
  else return (xs, ys)

/-- The two children of the first two parents. -/
def evolve (op : BinaryCrossover) :
    List (Solution (List Float)) → EStateM Fault ρ (List (Solution (List Float)))
  | p :: q :: _ => do
    let (xs, ys) ← (op.cross p.decision q.decision : StateM ρ (List Float × List Float))
    return [Solution.ofDecision xs, Solution.ofDecision ys]
  | _ => throw .indexOutside

/-- The operator as a variation. -/
def toVariation (op : BinaryCrossover) : Variation ρ W (List Float) where
  arity := 2
  evolve parents := onFirst (op.evolve parents)

end BinaryCrossover

end ParetoSearch
