/-!
# Powers of non-negative numbers

The real-coded operators raise numbers to real powers. The platform's power function says nothing
that a proof can use, so its answer is taken only where it obeys the two laws that every correct
answer obeys: a base in `[0, 1]` with an exponent that is not negative, and a base from `1` up with
an exponent that is not positive, give a number in `[0, 1]`; with the exponent's sign turned round
they give a number that is at least `1`. Outside these cases the answer is passed on as it is.
-/

namespace ParetoSearch

/-- Whether a number lies in `[0, 1]`. -/
def inUnit (x : Float) : Bool := 0.0 ≤ x && x ≤ 1.0

/-- Whether the power of `base` to `exponent` lies in `[0, 1]`. -/
def powerShrinks (base exponent : Float) : Bool :=
  (inUnit base && 0.0 ≤ exponent) || (1.0 ≤ base && exponent ≤ 0.0)

/-- Whether the power of `base` to `exponent` is at least `1`. -/
def powerGrows (base exponent : Float) : Bool :=
  (inUnit base && exponent ≤ 0.0) || (1.0 ≤ base && 0.0 ≤ exponent)

/-- The power of `base` to `exponent`. -/
def power (base exponent : Float) : Float :=
  let result := Float.pow base exponent
  if powerShrinks base exponent && !inUnit result then 1.0
  else if powerGrows base exponent && !(1.0 ≤ result) then 1.0
  else result

/-- A power that shrinks lies in `[0, 1]`. -/
theorem inUnit_power {base exponent : Float} (h : powerShrinks base exponent = true) :
    inUnit (power base exponent) = true := by
  have one : inUnit 1.0 = true := by decide
  unfold power
  grind

/-- A power that grows is at least `1`. -/
theorem one_le_power {base exponent : Float} (h : powerGrows base exponent = true) :
    1.0 ≤ power base exponent := by
  have one : (1.0 : Float) ≤ 1.0 := by decide
  unfold power
  grind

end ParetoSearch
