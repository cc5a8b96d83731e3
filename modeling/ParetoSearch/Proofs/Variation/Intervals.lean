import ParetoSearch.Proofs.Binary64.Monotone
import ParetoSearch.Variation.Interval

/-!
# Values in intervals

Pairs are accepted as bounds if they are the ends of intervals (`Interval.ofPairs_eq_ok_iff`). A
number that is clamped lies in the interval (`Interval.holds_clamp`), but what is no number stays so
(`Interval.clamp_eq_self`).

That the ends are finite says nothing of differences and sums: they may overflow. In an interval
that is narrow all differences are finite (`Interval.IsNarrow.isFinite_sub`), and in a moderate one
all sums as well (`Interval.IsModerate.isFinite_add`); a moderate interval is narrow.
-/

namespace ParetoSearch

open Binary64

namespace Interval

/-! ### Pairs that make intervals -/

theorem ofPair_eq_ok_iff {index : ℕ} {pair : Float × Float} {b : Interval} :
    ofPair index pair = .ok b ↔ pair = (b.lower, b.upper) := by
  constructor
  · intro h
    unfold ofPair at h
    split_ifs at h
    cases h
    rfl
  · rintro rfl
    rw [ofPair, dif_pos ⟨b.isFinite_lower, b.isFinite_upper⟩, dif_pos b.lower_le_upper]

theorem ofPairsFrom_eq_ok_iff {index : ℕ} {pairs : List (Float × Float)} {bounds : List Interval} :
    ofPairsFrom index pairs = .ok bounds ↔ pairs = bounds.map fun b => (b.lower, b.upper) := by
  induction pairs generalizing index bounds with
  | nil => cases bounds <;> simp [ofPairsFrom, pure, Except.pure]
  | cons pair rest ih =>
    constructor
    · intro h
      obtain ⟨first, hfirst, h⟩ := bind_eq_ok.1 h
      obtain ⟨others, hothers, h⟩ := bind_eq_ok.1 h
      cases h
      rw [List.map_cons, ofPair_eq_ok_iff.1 hfirst, ← ih.1 hothers]
    · cases bounds with
      | nil => nofun
      | cons b others =>
        intro h
        obtain ⟨hfirst, hothers⟩ := List.cons.inj h
        exact bind_eq_ok.2 ⟨b, ofPair_eq_ok_iff.2 hfirst,
          bind_eq_ok.2 ⟨others, ih.2 hothers, rfl⟩⟩

/-- **The pairs that are accepted are the ends of intervals**, and these are made of them. -/
theorem ofPairs_eq_ok_iff {pairs : List (Float × Float)} {bounds : List Interval} :
    ofPairs pairs = .ok bounds ↔ pairs = bounds.map fun b => (b.lower, b.upper) :=
  ofPairsFrom_eq_ok_iff

variable {b : Interval} {x y : Float}

/-! ### What an interval holds -/

theorem holds_iff : b.holds x = true ↔ b.lower ≤ x ∧ x ≤ b.upper := by
  simp [holds]

theorem isFinite_of_holds (h : b.holds x = true) : x.isFinite = true :=
  isFinite_of_le_of_le b.isFinite_lower b.isFinite_upper (holds_iff.1 h).1 (holds_iff.1 h).2

theorem holds_lower (b : Interval) : b.holds b.lower = true :=
  holds_iff.2 ⟨float_le_refl (isNaN_of_isFinite b.isFinite_lower), b.lower_le_upper⟩

theorem holds_upper (b : Interval) : b.holds b.upper = true :=
  holds_iff.2 ⟨b.lower_le_upper, float_le_refl (isNaN_of_isFinite b.isFinite_upper)⟩

/-- A number is kept in the interval. -/
theorem holds_clamp (hx : x.isNaN = false) : b.holds (b.clamp x) = true := by
  have hlower := isNaN_of_isFinite b.isFinite_lower
  have hupper := isNaN_of_isFinite b.isFinite_upper
  unfold clamp
  split_ifs with hbelow habove
  · exact b.holds_lower
  · exact b.holds_upper
  · exact holds_iff.2 ⟨float_le_of_not_lt hx hlower hbelow, float_le_of_not_lt hupper hx habove⟩

/-- What is no number is passed on. -/
theorem clamp_eq_self (hx : x.isNaN = true) : b.clamp x = x := by
  rw [clamp, if_neg fun h => ?_, if_neg fun h => ?_]
  · exact Bool.eq_false_iff.1 (isNaN_of_lt h).2 hx
  · exact Bool.eq_false_iff.1 (isNaN_of_lt h).1 hx

/-! ### Intervals that are not too wide -/

/-- The width is finite. -/
def IsNarrow (b : Interval) : Prop := b.width.isFinite = true

/-- The doubles of both ends are finite. -/
def IsModerate (b : Interval) : Prop :=
  (b.lower + b.lower).isFinite = true ∧ (b.upper + b.upper).isFinite = true

instance (b : Interval) : Decidable b.IsNarrow := inferInstanceAs (Decidable (_ = _))

instance (b : Interval) : Decidable b.IsModerate := inferInstanceAs (Decidable (_ ∧ _))

/-- A difference lies between zero and the width. -/
theorem sub_bounds (hx : b.holds x = true) (hy : b.holds y = true) (hle : x ≤ y) :
    0.0 ≤ y - x ∧ y - x ≤ b.width := by
  have hx' := isNaN_of_isFinite (isFinite_of_holds hx)
  refine ⟨zero_le_sub (isFinite_of_holds hy) hx' hle, ?_⟩
  exact float_le_trans (sub_mono (isFinite_of_holds hy) b.isFinite_upper hx' (holds_iff.1 hy).2)
    (sub_anti b.isFinite_upper (holds_iff.1 hx).1)

theorem IsNarrow.isFinite_sub (h : b.IsNarrow) (hx : b.holds x = true) (hy : b.holds y = true)
    (hle : x ≤ y) : (y - x).isFinite = true :=
  isFinite_of_le_of_le (by decide) h (sub_bounds hx hy hle).1 (sub_bounds hx hy hle).2

/-- A sum lies between the doubles of the ends. -/
theorem IsModerate.isFinite_add (h : b.IsModerate) (hx : b.holds x = true)
    (hy : b.holds y = true) : (x + y).isFinite = true := by
  obtain ⟨hlower, hupper⟩ := h
  have hlower' := isNaN_of_isFinite hlower
  have hupper' := isNaN_of_isFinite hupper
  have hnumber := isNaN_add (.inl (isFinite_of_holds hx)) (isNaN_of_isFinite (isFinite_of_holds hx))
    (isNaN_of_isFinite (isFinite_of_holds hy))
  rw [holds_iff] at hx hy
  refine isFinite_of_le_of_le hlower hupper ?_ ?_
  · rw [le_iff_real_le hlower' hnumber, real_add hlower', real_add hnumber]
    exact rounded_mono (add_le_add (real_le_real hx.1) (real_le_real hy.1))
  · rw [le_iff_real_le hnumber hupper', real_add hupper', real_add hnumber]
    exact rounded_mono (add_le_add (real_le_real hx.2) (real_le_real hy.2))

/-- The width is not above the greater double, its sign left aside. -/
theorem IsModerate.isNarrow (h : b.IsModerate) : b.IsNarrow := by
  obtain ⟨hlower, hupper⟩ := h
  have hlower' := isNaN_of_isFinite hlower
  have hzero : 0.0 ≤ b.width := (sub_bounds b.holds_lower b.holds_upper b.lower_le_upper).1
  obtain ⟨l, hl⟩ := real_of_isFinite b.isFinite_lower
  obtain ⟨u, hu⟩ := real_of_isFinite b.isFinite_upper
  obtain ⟨c, hc⟩ := real_of_isFinite hlower
  have hwidth : real b.width = rounded ((u - l : ℝ) : EReal) := by
    rw [width, real_sub (isNaN_of_zero_le hzero), hl, hu, EReal.coe_sub]
  rcases le_total (-l) u with hle | hle
  · refine isFinite_of_real_le hzero hupper ?_
    rw [hwidth, real_add (isNaN_of_isFinite hupper), hu]
    exact rounded_mono (by exact_mod_cast (by linarith : u - l ≤ u + u))
  · refine isFinite_of_real_le (y := -(b.lower + b.lower)) hzero ?_ ?_
    · exact isFinite_of_real_eq (a := -c) (isNaN_neg hlower') (by rw [real_neg, hc, EReal.coe_neg])
    · rw [hwidth, real_neg, real_add hlower', hl, ← rounded_neg]
      exact rounded_mono (by exact_mod_cast (by linarith : u - l ≤ -(l + l)))

end Interval

end ParetoSearch
