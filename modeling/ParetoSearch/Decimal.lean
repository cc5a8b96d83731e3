import ParetoSearch.Binary64

/-!
# Decimal text of a value

`text x` writes a float with the fewest decimal digits that read back as the same float, in
positional notation only: `0.5`, `2`, `-0.0000001`. A grid of step `10 ^ p` is tried from coarse to
fine; on each the two neighbours of the number are compared with the interval of reals that round to
it, in exact arithmetic. The first grid with a point in the interval wins; of two points the nearer,
and of two equally near ones the greater.
-/

namespace ParetoSearch.Decimal

open Binary64

/-- The positive number `digits · 10 ^ power`. -/
structure Digits where
  /-- The digits, as a whole number. -/
  digits : Nat
  /-- The power of ten they are counted in. -/
  power : Int
  deriving Repr, DecidableEq

/-- The interval of reals that round to a float, with the float itself, as whole numbers in one
unit. -/
structure Interval where
  /-- The lower end. -/
  low : Nat
  /-- The float. -/
  value : Nat
  /-- The upper end. -/
  high : Nat
  /-- Whether the ends themselves round to the float. -/
  closed : Bool

/-- The interval of a float, counted in quarters of its last place. Below a power of two the
neighbour is only half as far, unless it is the least normal one. -/
def intervalOf (x : Scaled) : Interval where
  low := if x.significand = 0x10000000000000 ∧ x.exponent ≠ -1074 then 4 * x.significand - 1
    else 4 * x.significand - 2
  value := 4 * x.significand
  high := 4 * x.significand + 2
  closed := x.significand % 2 = 0

/-- Whether a point, in the interval's unit, rounds to the float. -/
def Interval.holds (i : Interval) (point : Nat) : Bool :=
  if i.closed then i.low ≤ point && point ≤ i.high else i.low < point && point < i.high

/-- The interval with every end multiplied by `k`. -/
def Interval.scale (i : Interval) (k : Nat) : Interval :=
  { i with low := i.low * k, value := i.value * k, high := i.high * k }

/-- The point of the grid with the given step that stands for the float, in steps, if one does. -/
def Interval.onGrid? (i : Interval) (step : Nat) : Option Nat :=
  let below := i.value / step
  let above := below + 1
  match i.holds (below * step), i.holds (above * step) with
  | true, true =>
    some (if above * step - i.value ≤ i.value - below * step then above else below)
  | true, false => some below
  | false, true => some above
  | false, false => none

/-- The digits of the float on the grid of step `10 ^ power`, if a point of it rounds to the
float. -/
def onPower? (x : Scaled) (power : Int) : Option Nat :=
  let unit := x.exponent - 2
  ((intervalOf x).scale (Nat.pow 2 unit.toNat * Nat.pow 10 (-power).toNat)).onGrid?
    (Nat.pow 2 (-unit).toNat * Nat.pow 10 power.toNat)

/-- Tries at most `n` grids, each ten times as fine as the one before. -/
def search (x : Scaled) : (n : Nat) → (power : Int) → Option Digits
  | 0, _ => none
  | n + 1, power =>
    match onPower? x power with
    | some digits => some ⟨digits, power⟩
    | none => search x n (power - 1)

/-- A power of ten above the number. -/
def topPower (x : Scaled) : Int :=
  ((Nat.log2 x.significand : Int) + x.exponent + 1) * 30103 / 100000 + 2

/-- The fewest digits that read back as the number. Twenty grids take in every power from above the
number down to the seventeenth digit, which always suffices. -/
def shortest (x : Scaled) : Digits := (search x 21 (topPower x)).getD ⟨0, 0⟩

/-- The digits written out without an exponent. -/
def Digits.positional (d : Digits) : String :=
  let written := Nat.toDigits 10 d.digits
  if 0 ≤ d.power then String.ofList (written ++ List.replicate d.power.toNat '0')
  else
    let places := (-d.power).toNat
    let padded := List.replicate (places + 1 - written.length) '0' ++ written
    let whole := padded.length - places
    String.ofList (padded.take whole ++ '.' :: padded.drop whole)

/-- A float as decimal text. -/
def text (x : Float) : String :=
  match decode x with
  | .nan => "NaN"
  | .infinite negative => if negative then "-inf" else "inf"
  | .finite number =>
    (if number.negative then "-" else "") ++
      if number.significand = 0 then "0" else (shortest number).positional

end ParetoSearch.Decimal
