import ParetoSearch.Proofs.Random.Draws
import ParetoSearch.Proofs.Variation.Intervals
import ParetoSearch.Variation.Crossover
import ParetoSearch.Variation.Mutation

/-!
# How far the operators move a value

Crossover and polynomial mutation raise shares to powers. Of powers only two laws are known, so
what is shown here rests on where a base lies and not on how great a power is: a base from zero to
one or from one up gives a size (`zero_le_power`), which may be infinite. The spread of two
children is a size (`zero_le_spread`); that its divisor is not zero needs that a draw is not above
`1 - 2 ^ -52`. The shift of a mutation is a number (`isNaN_shift`) for a value in an interval whose
width is finite and not zero.
-/

namespace ParetoSearch

open Binary64

variable {x y : Float}

/-! ### Shares of one -/

theorem inUnit_iff : inUnit x = true ↔ 0.0 ≤ x ∧ x ≤ 1.0 := by
  simp [inUnit]

theorem isFinite_of_inUnit (h : inUnit x = true) : x.isFinite = true :=
  isFinite_of_le_of_le (by decide) (by decide) (inUnit_iff.1 h).1 (inUnit_iff.1 h).2

theorem inUnit_one_sub (h : inUnit x = true) : inUnit (1.0 - x) = true := by
  obtain ⟨hzero, hone⟩ := inUnit_iff.1 h
  refine inUnit_iff.2 ⟨zero_le_sub (by decide) (isNaN_of_le hzero).2 hone, ?_⟩
  exact float_le_trans (sub_anti (x := 1.0) (by decide) hzero) (by decide)

theorem inUnit_two_mul (h : 0.0 ≤ x) (hhalf : x ≤ 0.5) : inUnit (2.0 * x) = true := by
  have hfinite := isFinite_of_le_of_le (by decide) (by decide) h hhalf
  refine inUnit_iff.2 ⟨zero_le_mul (by decide) (by decide) h hfinite, ?_⟩
  exact float_le_trans (mul_mono (x := 2.0) (by decide) (by decide) hfinite (by decide) hhalf)
    (by decide)

theorem inUnit_div (hx : 0.0 ≤ x) (hxy : x ≤ y) (hy : y.isFinite = true) (hpos : 0.0 < y) :
    inUnit (x / y) = true :=
  inUnit_iff.2 ⟨zero_le_div_of_isFinite hx hy hpos, float_div_le_one hx hxy hy hpos⟩

/-! ### Powers -/

variable {eta u : Float}

theorem zero_le_power {base exponent : Float} (hbase : 0.0 ≤ base) (hexponent : 0.0 ≤ exponent) :
    0.0 ≤ power base exponent := by
  rcases float_le_total (x := base) (y := 1.0) (isNaN_of_zero_le hbase) (by decide) with h | h
  · exact (inUnit_iff.1 (inUnit_power (by simp [powerShrinks, inUnit, *]))).1
  · exact float_le_trans (by decide) (one_le_power (by simp [powerGrows, *]))

theorem power_of_one {base exponent : Float} (hlow : 1.0 ≤ base) (hhigh : base ≤ 1.0)
    (hexponent : 0.0 ≤ exponent) : 1.0 ≤ power base exponent ∧ power base exponent ≤ 1.0 := by
  have hunit : inUnit base = true := inUnit_iff.2 ⟨float_le_trans (by decide) hlow, hhigh⟩
  exact ⟨one_le_power (by simp [powerGrows, *]),
    (inUnit_iff.1 (inUnit_power (by simp [powerShrinks, *]))).2⟩

/-- The exponents that an index gives are not below one. -/
theorem one_le_exponent (h : 0.0 ≤ eta) : 1.0 ≤ eta + 1.0 := by
  have hsize : 0.0 ≤ eta + 1.0 := zero_le_add h (by decide)
  rw [le_iff_real_le (by decide) (isNaN_of_zero_le hsize)]
  exact real_le_add_left h (by decide)

theorem zero_le_inverse_exponent (h : 0.0 ≤ eta) : 0.0 ≤ 1.0 / (eta + 1.0) :=
  zero_le_div (by decide) (by decide) (float_lt_of_lt_of_le (by decide) (one_le_exponent h))

theorem neg_exponent_le_zero (h : 0.0 ≤ eta) : -(eta + 1.0) ≤ 0.0 := by
  have hsize : 0.0 ≤ eta + 1.0 := zero_le_add h (by decide)
  rw [le_iff_real_le (isNaN_neg (isNaN_of_zero_le hsize)) (by decide), real_neg, real_zero]
  exact EReal.neg_le_zero.2 (real_nonneg hsize)

/-! ### The spread of two children -/

namespace BinaryCrossover

/-- The spread of two children is a size. -/
theorem zero_le_spread {room : Float} (heta : 0.0 ≤ eta) (hu : 0.0 ≤ u)
    (hu' : u ≤ Draw.fraction 0xffffffffffffffff) (hroom : 1.0 ≤ room) :
    0.0 ≤ spread eta u room := by
  have hshrinks : powerShrinks room (-(eta + 1.0)) = true := by
    simp [powerShrinks, hroom, neg_exponent_le_zero heta]
  obtain ⟨hzero, hone⟩ := inUnit_iff.1 (inUnit_power hshrinks)
  have hfinite := isFinite_of_le_of_le (by decide) (by decide +kernel) hu hu'
  have hexponent := zero_le_inverse_exponent heta
  unfold spread
  dsimp only
  set alpha := 2.0 - power room (-(eta + 1.0)) with halpha
  -- The coefficient lies between one and two.
  have hlow : 1.0 ≤ alpha := float_le_trans (by decide) (sub_anti (x := 2.0) (by decide) hone)
  have hhigh : alpha ≤ 2.0 := float_le_trans (sub_anti (x := 2.0) (by decide) hzero) (by decide)
  have hcoefficient := isFinite_of_le_of_le (by decide) (by decide) hlow hhigh
  have hproduct := zero_le_mul hu hfinite (float_le_trans (by decide) hlow) hcoefficient
  split_ifs
  · exact zero_le_power hproduct hexponent
  · refine zero_le_power (zero_le_div (by decide) (by decide) ?_) hexponent
    have hle : u * alpha ≤ 2.0 * Draw.fraction 0xffffffffffffffff := by
      refine float_le_trans (mul_mono hu hfinite hcoefficient (by decide) hhigh) ?_
      rw [float_mul_comm]
      exact mul_mono (by decide) (by decide) hfinite (by decide +kernel) hu'
    exact float_lt_of_lt_of_le (by decide +kernel) (sub_anti (x := 2.0) (by decide) hle)

/-- How far the interval reaches beyond a parent is measured from one up. -/
theorem one_le_room {d gap : Float} (hd : 0.0 ≤ d) (hfinite : d.isFinite = true)
    (hgap : gap.isFinite = true) (hpos : 0.0 < gap) : 1.0 ≤ 1.0 + 2.0 * d / gap := by
  have hshare := zero_le_div_of_isFinite (zero_le_mul (x := 2.0) (by decide) (by decide) hd hfinite)
    hgap hpos
  have hroom : 0.0 ≤ 1.0 + 2.0 * d / gap := zero_le_add (by decide) hshare
  exact (le_iff_real_le (by decide) (isNaN_of_zero_le hroom)).2
    (real_le_add_right (by decide) hshare)

theorem lt_of_far (hx : x.isFinite = true) (hy : y.isFinite = true) (hle : y ≤ x)
    (hfar : 1e-14 < (x - y).abs) : y < x := by
  by_contra hnot
  have heq : real x = real y :=
    le_antisymm (real_le_real (float_le_of_not_lt (isNaN_of_le hle).1 (isNaN_of_le hle).2 hnot))
      (real_le_real hle)
  obtain ⟨a, ha⟩ := real_of_isFinite hy
  have hzero : real (x - y).abs = 0 := by
    rw [real_abs, real_sub (isNaN_sub hx (isNaN_of_isFinite hy)), heq, ha, ← EReal.coe_sub,
      sub_self, EReal.coe_zero, rounded_zero, neg_zero, max_self]
  have hpos := real_lt_real (float_lt_of_lt_of_le (x := 0.0) (by decide) (float_le_of_lt hfar))
  rw [hzero, real_zero] at hpos
  exact lt_irrefl _ hpos

/-- About the middle of two parents there are numbers on both sides, as far away as a spread says,
if the sum and the distance of the parents are finite. -/
theorem isNaN_sides {sum spread gap : Float} (hsum : sum.isFinite = true) (hspread : 0.0 ≤ spread)
    (hgap : gap.isFinite = true) (hpos : 0.0 < gap) :
    (0.5 * (sum - spread * gap)).isNaN = false ∧ (0.5 * (sum + spread * gap)).isNaN = false := by
  have hsum' := isNaN_of_isFinite hsum
  have hmove := isNaN_mul (isNaN_of_zero_le hspread) hgap hpos
  rw [float_mul_comm 0.5, float_mul_comm 0.5]
  exact ⟨isNaN_mul (isNaN_sub hsum hmove) (by decide) (by decide),
    isNaN_mul (isNaN_add (.inl hsum) hsum' hmove) (by decide) (by decide)⟩

/-- Two values that are far apart are taken in order. -/
theorem exists_low_high {b : Interval} (hx : b.holds x = true) (hy : b.holds y = true)
    (hfar : 1e-14 < (x - y).abs) : ∃ low high, (if x < y then x else y) = low ∧
      (if x < y then y else x) = high ∧ b.holds low = true ∧ b.holds high = true ∧ low < high := by
  have hx' := Interval.isFinite_of_holds hx
  have hy' := Interval.isFinite_of_holds hy
  by_cases hlt : x < y
  · exact ⟨x, y, if_pos hlt, if_pos hlt, hx, hy, hlt⟩
  · refine ⟨y, x, if_neg hlt, if_neg hlt, hy, hx, lt_of_far hx' hy' ?_ hfar⟩
    exact float_le_of_not_lt (isNaN_of_isFinite hx') (isNaN_of_isFinite hy') hlt

/-- **Both children of two values in a moderate interval lie in it.** -/
theorem holds_children {b : Interval} (hb : b.IsModerate) (heta : 0.0 ≤ eta) (hu : 0.0 ≤ u)
    (hu' : u ≤ Draw.fraction 0xffffffffffffffff) (hx : b.holds x = true) (hy : b.holds y = true)
    (hfar : 1e-14 < (x - y).abs) : b.holds (children b eta u x y).1 = true ∧
      b.holds (children b eta u x y).2 = true := by
  obtain ⟨low, high, hlow, hhigh, hlowHolds, hhighHolds, hlt⟩ := exists_low_high hx hy hfar
  have hlower := (Interval.holds_iff.1 hlowHolds).1
  have hupper := (Interval.holds_iff.1 hhighHolds).2
  have hgap := hb.isNarrow.isFinite_sub hlowHolds hhighHolds (float_le_of_lt hlt)
  have hpos := zero_lt_sub (Interval.isFinite_of_holds hlowHolds)
    (Interval.isFinite_of_holds hhighHolds) hlt
  have hsum := hb.isFinite_add hlowHolds hhighHolds
  have hbelow := zero_le_spread heta hu hu' <| one_le_room
    (Interval.sub_bounds b.holds_lower hlowHolds hlower).1
    (hb.isNarrow.isFinite_sub b.holds_lower hlowHolds hlower) hgap hpos
  have habove := zero_le_spread heta hu hu' <| one_le_room
    (Interval.sub_bounds hhighHolds b.holds_upper hupper).1
    (hb.isNarrow.isFinite_sub hhighHolds b.holds_upper hupper) hgap hpos
  unfold children
  rw [hlow, hhigh]
  exact ⟨Interval.holds_clamp (isNaN_sides hsum hbelow hgap hpos).1,
    Interval.holds_clamp (isNaN_sides hsum habove hgap hpos).2⟩

end BinaryCrossover

/-! ### The shift of a mutation -/

namespace PolynomialMutation

theorem zero_le_mix {a c p : Float} (ha : inUnit a = true) (hc : inUnit c = true)
    (hp : inUnit p = true) : 0.0 ≤ a + c * p :=
  zero_le_add (inUnit_iff.1 ha).1 (zero_le_mul (inUnit_iff.1 hc).1 (isFinite_of_inUnit hc)
    (inUnit_iff.1 hp).1 (isFinite_of_inUnit hp))

/-- The distance from an end of the interval, as a share of the width, gives a share of one. -/
theorem inUnit_power_one_sub {d width : Float} (heta : 0.0 ≤ eta) (hd : 0.0 ≤ d ∧ d ≤ width)
    (hwidth : width.isFinite = true) (hpos : 0.0 < width) :
    inUnit (power (1.0 - d / width) (eta + 1.0)) = true := by
  have hroom := inUnit_one_sub (inUnit_div hd.1 hd.2 hwidth hpos)
  have hexponent : 0.0 ≤ eta + 1.0 := float_le_trans (by decide) (one_le_exponent heta)
  exact inUnit_power (by simp [powerShrinks, hroom, hexponent])

/-- **A value in an interval that is neither a point nor too wide moves by a number.** -/
theorem isNaN_shift {b : Interval} (heta : 0.0 ≤ eta) (hu : inUnit u = true)
    (hx : b.holds x = true) (hwidth : b.IsNarrow) (hpos : 0.0 < b.width) :
    (shift b eta u x).isNaN = false := by
  obtain ⟨hlow, hhigh⟩ := Interval.holds_iff.1 hx
  obtain ⟨hzero, hone⟩ := inUnit_iff.1 hu
  have hexponent := zero_le_inverse_exponent heta
  unfold shift
  dsimp only
  split_ifs with hhalf
  · have hpower := inUnit_power_one_sub heta (Interval.sub_bounds b.holds_lower hx hlow) hwidth hpos
    have hdouble := inUnit_two_mul hzero (float_le_of_lt hhalf)
    have hbase := zero_le_power (zero_le_mix hdouble (inUnit_one_sub hdouble) hpower) hexponent
    exact isNaN_sub_of_isFinite (.inr (by decide)) (isNaN_of_zero_le hbase) (by decide)
  · have hpower := inUnit_power_one_sub heta (Interval.sub_bounds hx b.holds_upper hhigh) hwidth hpos
    have hhalf' := float_le_of_not_lt (isNaN_of_le hzero).2 (by decide) hhalf
    have hfirst : inUnit (2.0 * (1.0 - u)) = true :=
      inUnit_two_mul (inUnit_iff.1 (inUnit_one_sub hu)).1
        (float_le_trans (sub_anti (x := 1.0) (by decide) hhalf') (by decide))
    have hsecond : inUnit (2.0 * (u - 0.5)) = true :=
      inUnit_two_mul (zero_le_sub (isFinite_of_inUnit hu) (by decide) hhalf')
        (float_le_trans (sub_mono (isFinite_of_inUnit hu) (by decide) (by decide) hone) (by decide))
    have hbase := zero_le_power (zero_le_mix hfirst hsecond hpower) hexponent
    exact isNaN_sub (by decide) (isNaN_of_zero_le hbase)

end PolynomialMutation

end ParetoSearch
