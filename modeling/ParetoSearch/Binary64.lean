/-!
# Whole numbers from binary64 values

A `Float` is read through its 64 bits: a sign, a biased exponent and a fraction. `decode` gives the
number they stand for as `± significand · 2 ^ exponent`, and on that exact form this module rounds
to whole numbers in the two ways the search needs: down (`floorWithin`, box coordinates and counts)
and to the nearest with halves away from zero (`roundWithin`, population sizes). Both keep to a
given range of integers, and a value that is not a number becomes `0`.
-/

namespace ParetoSearch.Binary64

/-- The finite number `± significand · 2 ^ exponent`. -/
structure Scaled where
  /-- Whether the sign bit is set. -/
  negative : Bool
  /-- The digits, as a whole number. -/
  significand : Nat
  /-- The power of two the digits are counted in. -/
  exponent : Int
  deriving Repr, DecidableEq

/-- What the bits of a float stand for. -/
inductive Value where
  | nan
  | infinite (negative : Bool)
  | finite (number : Scaled)
  deriving Repr, DecidableEq

/-- The value of a float, read off its bits: the highest is the sign, the next eleven are the biased
exponent, and the lower 52 are the fraction. -/
def decode (x : Float) : Value :=
  let bits := x.toBits.toNat
  let negative := bits / 0x8000000000000000 == 1
  let biased : Nat := bits / 0x10000000000000 % 0x800
  let fraction := bits % 0x10000000000000
  if biased = 0x7ff then
    if fraction = 0 then .infinite negative else .nan
  else if biased = 0 then .finite ⟨negative, fraction, -1074⟩
  else .finite ⟨negative, 0x10000000000000 + fraction, (biased : Int) - 1075⟩

/-- The significand with its sign. -/
def Scaled.signed (x : Scaled) : Int :=
  if x.negative then -(x.significand : Int) else x.significand

/-- The largest integer not above the number. -/
def Scaled.floor (x : Scaled) : Int :=
  if 0 ≤ x.exponent then x.signed * Nat.pow 2 x.exponent.toNat
  else x.signed / Nat.pow 2 (-x.exponent).toNat

/-- The integer nearest to the number; of two the one further from zero. -/
def Scaled.round (x : Scaled) : Int :=
  let size : Int :=
    if 0 ≤ x.exponent then x.significand * Nat.pow 2 x.exponent.toNat
    else
      let half : Int := Nat.pow 2 ((-x.exponent).toNat - 1)
      (x.significand + half) / (2 * half)
  if x.negative then -size else size

/-- The integer of the range `low … high` that is closest to `n`. -/
def confine (low high n : Int) : Int := max low (min high n)

/-- Rounds with `f` and keeps the result in the range; infinities go to its ends. -/
def toIntWith (f : Scaled → Int) (low high : Int) (x : Float) : Int :=
  match decode x with
  | .nan => 0
  | .infinite negative => if negative then low else high
  | .finite number => confine low high (f number)

/-- The largest integer not above `x`, kept in the range. -/
def floorWithin : (low high : Int) → Float → Int := toIntWith Scaled.floor

/-- The integer nearest to `x`, halves away from zero, kept in the range. -/
def roundWithin : (low high : Int) → Float → Int := toIntWith Scaled.round

/-- The least coordinate a box can have: the least integer of 64 bits. -/
def minCoordinate : Int := -0x8000000000000000

/-- The greatest coordinate a box can have: the greatest integer of 64 bits. -/
def maxCoordinate : Int := 0x7fffffffffffffff

/-- The greatest count: 64 bits, all set. -/
def maxCount : Nat := 0xffffffffffffffff

/-- The coordinate of a box: the value rounded down. -/
def floorCoordinate (x : Float) : Int := floorWithin minCoordinate maxCoordinate x

/-- The count that a value is rounded down to. -/
def floorCount (x : Float) : Nat := (floorWithin 0 maxCount x).toNat

/-- The count nearest to a value. -/
def roundCount (x : Float) : Nat := (roundWithin 0 maxCount x).toNat

/-- The value above all finite ones. -/
def infinity : Float := 1.0 / 0.0

/-! ### Ranges -/

theorem le_confine {low high n : Int} : low ≤ confine low high n := Int.le_max_left ..

theorem confine_le {low high n : Int} (h : low ≤ high) : confine low high n ≤ high := by
  unfold confine; omega

theorem confine_mono {low high m n : Int} (h : m ≤ n) :
    confine low high m ≤ confine low high n := by
  unfold confine; omega

theorem toIntWith_mem (f : Scaled → Int) {low high : Int} (h₁ : low ≤ 0) (h₂ : 0 ≤ high)
    (x : Float) : low ≤ toIntWith f low high x ∧ toIntWith f low high x ≤ high := by
  unfold toIntWith
  split
  · exact ⟨h₁, h₂⟩
  · split <;> constructor <;> omega
  · exact ⟨le_confine, confine_le (by omega)⟩

/-- A coordinate lies in the range of coordinates. -/
theorem floorCoordinate_mem (x : Float) :
    minCoordinate ≤ floorCoordinate x ∧ floorCoordinate x ≤ maxCoordinate :=
  toIntWith_mem Scaled.floor (by decide) (by decide) x

end ParetoSearch.Binary64
