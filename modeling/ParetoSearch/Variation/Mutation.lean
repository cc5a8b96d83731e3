import ParetoSearch.Power
import ParetoSearch.Random.Generator
import ParetoSearch.Variation.Basic
import ParetoSearch.Variation.Interval

/-!
# Mutations

Two operators that change the variables of one parent, each variable with a given probability.
Polynomial mutation moves a variable by a share of its interval's width, drawn from a distribution
that keeps it near when the index is large; uniform mutation draws a new value from the interval.
-/

namespace ParetoSearch

variable {ρ W : Type} [Generator ρ]

/-! ### Polynomial mutation -/

/-- Polynomial mutation on decisions of real variables. -/
structure PolynomialMutation where
  /-- The intervals of the variables; variables without one are inherited as they are. -/
  bounds : List Interval
  /-- The probability that a variable is changed. -/
  probability : Float
  /-- The distribution index. -/
  index : Float := 20.0

namespace PolynomialMutation

/-- The operator that changes one variable on average. -/
def ofBounds (bounds : List Interval) : PolynomialMutation where
  bounds := bounds
  probability := 1.0 / Float.ofNat (max bounds.length 1)

/-- The operator with another probability. -/
def withProbability (op : PolynomialMutation) (p : Float) : PolynomialMutation :=
  { op with probability := Variation.clampProbability p }

/-- The operator with another distribution index. -/
def withIndex (op : PolynomialMutation) (eta : Float) : PolynomialMutation :=
  { op with index := Variation.clampIndex eta }

/-- By what share of the interval's width `x` moves. The number `u` picks a point of the
distribution: below one half it moves down, else up. -/
def shift (b : Interval) (eta u x : Float) : Float :=
  let exponent := 1.0 / (eta + 1.0)
  if u < 0.5 then
    let room := (x - b.lower) / b.width
    power (2.0 * u + (1.0 - 2.0 * u) * power (1.0 - room) (eta + 1.0)) exponent - 1.0
  else
    let room := (b.upper - x) / b.width
    1.0 - power (2.0 * (1.0 - u) + 2.0 * (u - 0.5) * power (1.0 - room) (eta + 1.0)) exponent

/-- Changes one value, with the operator's probability; a variable whose interval is a point takes
no draw. -/
def mutateValue (op : PolynomialMutation) (b : Interval) (x : Float) : StateM ρ Float := do
  if b.width ≤ 0.0 then return x
  else
    let u ← Draw.unit
    if op.probability ≤ u then return x
    else
      let u ← Draw.unit
      return b.clamp (x + shift b op.index u x * b.width)

/-- Changes the values one after another. -/
def mutateAll (op : PolynomialMutation) :
    List Interval → List Float → StateM ρ (List Float)
  | b :: bs, x :: xs => do
    let x ← op.mutateValue b x
    let xs ← op.mutateAll bs xs
    return x :: xs
  | _, xs => return xs

/-- The child of the first parent. -/
def evolve (op : PolynomialMutation) :
    List (Solution (List Float)) → EStateM Fault ρ (List (Solution (List Float)))
  | p :: _ => do
    let xs ← (op.mutateAll op.bounds p.decision : StateM ρ (List Float))
    return [Solution.ofDecision xs]
  | [] => throw .indexOutside

/-- The operator as a variation. -/
def toVariation (op : PolynomialMutation) : Variation ρ W (List Float) where
  arity := 1
  evolve parents := onFirst (op.evolve parents)

end PolynomialMutation

/-! ### Uniform mutation -/

/-- Uniform mutation on decisions of real variables. -/
structure UniformMutation where
  /-- The intervals of the variables; variables without one are inherited as they are. -/
  bounds : List Interval
  /-- The probability that a variable is changed. -/
  probability : Float

namespace UniformMutation

/-- The operator with the given probability. -/
def ofBounds (bounds : List Interval) (p : Float) : UniformMutation :=
  ⟨bounds, Variation.clampProbability p⟩

/-- Draws one value anew, with the operator's probability. -/
def mutateValue (op : UniformMutation) (b : Interval) (x : Float) : EStateM Fault ρ Float := do
  let u ← (Draw.unit : StateM ρ Float)
  if u < op.probability then Draw.closed b.lower b.upper else return x

/-- Changes the values one after another. -/
def mutateAll (op : UniformMutation) :
    List Interval → List Float → EStateM Fault ρ (List Float)
  | b :: bs, x :: xs => do
    let x ← op.mutateValue b x
    let xs ← op.mutateAll bs xs
    return x :: xs
  | _, xs => return xs

/-- The child of the first parent. -/
def evolve (op : UniformMutation) :
    List (Solution (List Float)) → EStateM Fault ρ (List (Solution (List Float)))
  | p :: _ => do return [Solution.ofDecision (← op.mutateAll op.bounds p.decision)]
  | [] => throw .indexOutside

/-- The operator as a variation. -/
def toVariation (op : UniformMutation) : Variation ρ W (List Float) where
  arity := 1
  evolve parents := onFirst (op.evolve parents)

end UniformMutation

end ParetoSearch
