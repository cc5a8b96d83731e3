import ParetoSearch.Failure

/-!
# Intervals of decision variables

The real-coded operators know for each decision variable a finite interval in which it is to stay.
-/

namespace ParetoSearch

/-- A finite interval that is not empty. -/
structure Interval where
  lower : Float
  upper : Float
  isFinite_lower : lower.isFinite = true
  isFinite_upper : upper.isFinite = true
  lower_le_upper : lower ≤ upper
  deriving DecidableEq

namespace Interval

/-- The interval between two bounds of the variable with the given index. -/
def ofPair (index : Nat) (bounds : Float × Float) : Except Fault Interval :=
  if h : bounds.1.isFinite = true ∧ bounds.2.isFinite = true then
    if hle : bounds.1 ≤ bounds.2 then .ok ⟨bounds.1, bounds.2, h.1, h.2, hle⟩
    else .error (.boundsInverted index)
  else .error (.boundsNotFinite index)

/-- The intervals of the variables from the given index on. -/
def ofPairsFrom : (index : Nat) → List (Float × Float) → Except Fault (List Interval)
  | _, [] => return []
  | index, bounds :: rest => do
    let first ← ofPair index bounds
    let others ← ofPairsFrom (index + 1) rest
    return first :: others

/-- The intervals of all variables. -/
def ofPairs (bounds : List (Float × Float)) : Except Fault (List Interval) := ofPairsFrom 0 bounds

/-- The width of the interval, which may be too great for a finite number. -/
def width (b : Interval) : Float := b.upper - b.lower

/-- The point of the interval closest to `x`; what is not a number stays so. -/
def clamp (b : Interval) (x : Float) : Float :=
  if x < b.lower then b.lower else if b.upper < x then b.upper else x

/-- Whether a value lies in the interval. -/
def holds (b : Interval) (x : Float) : Bool := b.lower ≤ x && x ≤ b.upper

end Interval

end ParetoSearch
