import ParetoSearch.Proofs.Binary64.Quotients

/-!
# Operations that keep the order

Rounding is monotone, so an operation on floats keeps the order wherever the exact
operation does: dividing by a width, taking away the same number or from the same one,
multiplying by a size, squaring sizes, adding sizes and taking their roots (`div_mono`,
`sub_mono`, `sub_anti`, `mul_mono`, `mul_self_mono`, `add_mono`, `sqrt_mono`). A sum of sizes
is not below either of them (`real_le_add_left`, `real_le_add_right`), so it is zero only if
both are, and a difference of finite values is zero only if they are the same
(`zero_lt_sub`). What is kept between two bounds is the middle one of three numbers
(`real_clamp`).
-/

namespace ParetoSearch.Binary64

open Float.Model Float.Model.UnpackedFloat

variable {x y z : Float}

/-! ### Sizes and finite values as real numbers -/

theorem real_zero : real 0.0 = 0 := by
  rw [real_eq_realOf]
  exact realOf_zero .positive

theorem zero_le_iff_real (hx : x.isNaN = false) : 0.0 ≤ x ↔ 0 ≤ real x := by
  rw [le_iff_real_le (by decide) hx, real_zero]

theorem real_nonneg (h : 0.0 ≤ x) : 0 ≤ real x := (zero_le_iff_real (isNaN_of_zero_le h)).1 h

theorem real_pos (hx : x.isNaN = false) (h : 0.0 < x) : 0 < real x := by
  rwa [lt_iff_real_lt (by decide) hx, real_zero] at h

theorem real_eq_number {n : Scaled} (h : decode x = .finite n) :
    real x = ((n.number : ℝ) : EReal) := by
  rw [real, h, Value.real]

theorem real_of_isFinite (h : x.isFinite = true) : ∃ a : ℝ, real x = a := by
  obtain ⟨n, hn⟩ := isFinite_iff.1 h
  exact ⟨n.number, real_eq_number hn⟩

/-- A finite value is a whole multiple of the least number. -/
theorem exists_real_eq_units {x : Float} (h : x.isFinite = true) :
    ∃ n : ℤ, real x = ((n * 2 ^ (-1074 : ℤ) : ℝ) : EReal) := by
  obtain ⟨m, hm⟩ := isFinite_iff.1 h
  obtain ⟨d, hd⟩ := Int.eq_ofNat_of_zero_le (a := m.exponent + 1074)
    (by have := (canonical_of_decode hm).exponent_ge; omega)
  have hexponent : m.exponent = d + -1074 := by omega
  refine ⟨m.signed * 2 ^ d, ?_⟩
  rw [real_eq_number hm, Scaled.number, hexponent, zpow_add₀ two_ne_zero]
  simp only [Rat.cast_mul, Rat.cast_intCast, Rat.cast_zpow, Rat.cast_pow, Rat.cast_ofNat,
    Int.cast_mul, Int.cast_pow, Int.cast_ofNat, zpow_natCast, mul_assoc]

theorem real_one : real 1.0 = 1 := by
  have hdecode : decode 1.0 = .finite ⟨false, 2 ^ 52, -52⟩ := by decide
  rw [real_eq_number hdecode, ← EReal.coe_one]
  norm_num [Scaled.number, Scaled.signed]

/-- A number that stands for a real number is finite. -/
theorem isFinite_of_real_eq {a : ℝ} (hx : x.isNaN = false) (h : real x = a) :
    x.isFinite = true := by
  rw [isFinite_iff]
  rw [real] at h
  cases hd : decode x with
  | nan => exact absurd hd (isNaN_eq_false_iff.1 hx)
  | infinite negative => cases negative <;> simp [hd, Value.real] at h
  | finite n => exact ⟨n, rfl⟩

/-! ### The order of numbers

Only numbers compare, so what is shown of a comparison that holds assumes nothing else. -/

theorem real_le_real (h : x ≤ y) : real x ≤ real y :=
  (le_iff_real_le (isNaN_of_le h).1 (isNaN_of_le h).2).1 h

theorem real_lt_real (h : x < y) : real x < real y :=
  (lt_iff_real_lt (isNaN_of_lt h).1 (isNaN_of_lt h).2).1 h

theorem float_le_refl (hx : x.isNaN = false) : x ≤ x :=
  (le_iff_real_le hx hx).2 le_rfl

theorem float_le_trans (hxy : x ≤ y) (hyz : y ≤ z) : x ≤ z :=
  (le_iff_real_le (isNaN_of_le hxy).1 (isNaN_of_le hyz).2).2
    ((real_le_real hxy).trans (real_le_real hyz))

theorem float_lt_of_lt_of_le (hxy : x < y) (hyz : y ≤ z) : x < z :=
  (lt_iff_real_lt (isNaN_of_lt hxy).1 (isNaN_of_le hyz).2).2
    ((real_lt_real hxy).trans_le (real_le_real hyz))

theorem float_le_total (hx : x.isNaN = false) (hy : y.isNaN = false) : x ≤ y ∨ y ≤ x := by
  rw [le_iff_real_le hx hy, le_iff_real_le hy hx]
  exact le_total _ _

theorem float_le_of_lt (h : x < y) : x ≤ y :=
  (le_iff_real_le (isNaN_of_lt h).1 (isNaN_of_lt h).2).2 (real_lt_real h).le

theorem float_le_of_not_lt (hx : x.isNaN = false) (hy : y.isNaN = false) (h : ¬x < y) : y ≤ x :=
  (le_iff_real_le hy hx).2 (not_lt.1 (mt (lt_iff_real_lt hx hy).2 h))

theorem float_lt_of_not_le (hx : x.isNaN = false) (hy : y.isNaN = false) (h : ¬x ≤ y) : y < x :=
  (lt_iff_real_lt hy hx).2 (not_le.1 (mt (le_iff_real_le hx hy).2 h))

theorem isFinite_of_le_of_le (hx : x.isFinite = true) (hz : z.isFinite = true) (hxy : x ≤ y)
    (hyz : y ≤ z) : y.isFinite = true := by
  obtain ⟨a, ha⟩ := real_of_isFinite hx
  obtain ⟨c, hc⟩ := real_of_isFinite hz
  have hlow := ha ▸ real_le_real hxy
  have hhigh := hc ▸ real_le_real hyz
  cases hr : real y with
  | bot => simp [hr] at hlow
  | top => simp [hr] at hhigh
  | coe b => exact isFinite_of_real_eq (isNaN_of_le hxy).2 hr

theorem isFinite_of_real_le (hx : 0.0 ≤ x) (hy : y.isFinite = true) (h : real x ≤ real y) :
    x.isFinite = true :=
  isFinite_of_le_of_le (by decide) hy hx
    ((le_iff_real_le (isNaN_of_zero_le hx) (isNaN_of_isFinite hy)).2 h)

/-! ### Quotients and whole numbers -/

theorem isNaN_div (hx : x.isNaN = false) (hy : y.isFinite = true) (hpos : 0.0 < y) :
    (x / y).isNaN = false := by
  have hne : real y ≠ 0 := (real_pos (isNaN_of_isFinite hy) hpos).ne'
  rw [real_eq_realOf] at hne
  change x.toModel.unpack.isNaN = false at hx
  change y.toModel.unpack.isFinite = true at hy
  refine isNaN_repack (u := UnpackedFloat.div Format.binary64 _ _) ?_
  cases hv : y.toModel.unpack with
  | notANumber | infinity => simp [hv, UnpackedFloat.isFinite] at hy
  | zero t => exact absurd (hv ▸ realOf_zero t) hne
  | finite t k f hk =>
    cases hu : x.toModel.unpack with
    | notANumber => simp [hu, UnpackedFloat.isNaN] at hx
    | infinity | zero => rfl
    | finite => exact (hasSign_roundWithAccuracy ..).isNaN

/-- Zero times what is not finite is no number. -/
theorem isNaN_zero_mul (hx : real x = 0) (hy : y.isFinite = false) :
    (x * y).isNaN = true := by
  rw [real_eq_realOf] at hx
  change y.toModel.unpack.isFinite = false at hy
  refine isNaN_repack_of_isNaN (u := UnpackedFloat.mul Format.binary64 _ _) ?_
  cases hu : x.toModel.unpack with
  | notANumber => rfl
  | infinity s => cases s <;> simp [hu, realOf, Value.ofUnpacked, isNegative, Value.real] at hx
  | finite s m e hm =>
    have hpos : (0 : ℝ) < m * 2 ^ e := mul_pos (by exact_mod_cast hm) (two_zpow_pos e)
    rw [hu, realOf_finite _ hm, EReal.coe_eq_zero] at hx
    cases s
    · exact absurd hx (neg_ne_zero.2 hpos.ne')
    · exact absurd hx hpos.ne'
  | zero s =>
    cases hv : y.toModel.unpack with
    | zero | finite => simp [hv, UnpackedFloat.isFinite] at hy
    | notANumber | infinity => rfl

theorem div_mono (hx : x.isFinite = true) (hy : y.isFinite = true) (hz : z.isFinite = true)
    (hpos : 0.0 < z) (h : x ≤ y) : x / z ≤ y / z := by
  have hzero := real_pos (isNaN_of_isFinite hz) hpos
  have hx' := isNaN_div (isNaN_of_isFinite hx) hz hpos
  have hy' := isNaN_div (isNaN_of_isFinite hy) hz hpos
  rw [le_iff_real_le (isNaN_of_isFinite hx) (isNaN_of_isFinite hy)] at h
  rw [le_iff_real_le hx' hy', real_div hzero.ne' hx', real_div hzero.ne' hy']
  exact rounded_mono (EReal.div_le_div_right_of_nonneg hzero.le h)

theorem zero_le_div_of_isFinite (hx : 0.0 ≤ x) (hy : y.isFinite = true) (hpos : 0.0 < y) :
    0.0 ≤ x / y := by
  have hpos' := real_pos (isNaN_of_isFinite hy) hpos
  have hnumber := isNaN_div (isNaN_of_zero_le hx) hy hpos
  rw [zero_le_iff_real hnumber, real_div hpos'.ne' hnumber, ← rounded_zero]
  exact rounded_mono (EReal.div_nonneg (real_nonneg hx) hpos'.le)

theorem float_div_le_one (hx : 0.0 ≤ x) (hxy : x ≤ y) (hy : y.isFinite = true) (hpos : 0.0 < y) :
    x / y ≤ 1.0 := by
  have hnumber := isNaN_div (isNaN_of_zero_le hx) hy hpos
  have hpos' := real_pos (isNaN_of_isFinite hy) hpos
  obtain ⟨b, hb⟩ := real_of_isFinite hy
  obtain ⟨a, ha⟩ := real_of_isFinite (isFinite_of_le_of_le (by decide) hy hx hxy)
  have hle := real_le_real hxy
  rw [le_iff_real_le hnumber (by decide), real_div hpos'.ne' hnumber]
  refine rounded_le_real ?_
  rw [ha, hb, EReal.coe_le_coe_iff] at hle
  rw [hb, ← EReal.coe_zero, EReal.coe_lt_coe_iff] at hpos'
  rw [real_one, ha, hb, ← EReal.coe_div, ← EReal.coe_one, EReal.coe_le_coe_iff]
  exact (div_le_one hpos').2 hle

/-- The digits are rounded down as the number is. -/
theorem Scaled.floor_eq (n : Scaled) : n.floor = ⌊n.number⌋ := by
  unfold Scaled.floor Scaled.number
  split_ifs with hexp
  · obtain ⟨d, hd⟩ := Int.eq_ofNat_of_zero_le hexp
    rw [hd, zpow_natCast]
    exact_mod_cast (Int.floor_intCast (R := ℚ) (n.signed * 2 ^ d)).symm
  · obtain ⟨d, hd⟩ := Int.eq_ofNat_of_zero_le (a := -n.exponent) (by omega)
    have hexponent : n.exponent = -(d : ℤ) := by omega
    have hfloor := Rat.floor_intCast_div_natCast n.signed (2 ^ d)
    rw [hd, hexponent, zpow_neg, zpow_natCast, ← div_eq_mul_inv]
    exact_mod_cast hfloor.symm

theorem floorCoordinate_mono (hx : x.isNaN = false) (hy : y.isNaN = false) (h : x ≤ y) :
    floorCoordinate x ≤ floorCoordinate y := by
  rw [le_iff_place_le hx hy, place, place] at h
  have hlow := (floorCoordinate_mem y).1
  have hhigh := (floorCoordinate_mem x).2
  simp only [floorCoordinate, floorWithin, toIntWith] at hlow hhigh ⊢
  cases hdx : decode x with
  | nan => exact absurd hdx (isNaN_eq_false_iff.1 hx)
  | infinite negative =>
    cases negative with
    | true => exact hlow
    | false =>
      cases hdy : decode y with
      | nan => exact absurd hdy (isNaN_eq_false_iff.1 hy)
      | infinite negative =>
        cases negative with
        | true =>
          rw [hdx, hdy] at h
          exact absurd h bot_lt_top.not_ge
        | false => exact le_rfl
      | finite n =>
        rw [hdx, hdy] at h
        exact absurd h (coe_lt_top n.number).not_ge
  | finite m =>
    cases hdy : decode y with
    | nan => exact absurd hdy (isNaN_eq_false_iff.1 hy)
    | infinite negative =>
      cases negative with
      | true =>
        rw [hdx, hdy] at h
        exact absurd h (WithBot.bot_lt_coe _).not_ge
      | false => exact confine_le (by decide)
    | finite n =>
      rw [hdx, hdy] at h
      apply confine_mono
      rw [Scaled.floor_eq, Scaled.floor_eq]
      exact Int.floor_mono (coe_le_coe_iff.1 h)

/-! ### Differences, squares, sums and roots -/

theorem zero_le_sub (hx : x.isFinite = true) (hz : z.isNaN = false) (h : z ≤ x) : 0.0 ≤ x - z := by
  have hx' := isNaN_sub hx hz
  obtain ⟨a, ha⟩ := real_of_isFinite hx
  rw [le_iff_real_le hz (isNaN_of_isFinite hx), ha] at h
  rw [zero_le_iff_real hx', real_sub hx', ← rounded_zero, ha]
  apply rounded_mono
  exact (EReal.sub_nonneg (.inl (EReal.coe_ne_top a)) (.inl (EReal.coe_ne_bot a))).2 h

/-- Different finite values have a difference, since there are numbers enough near zero. -/
theorem zero_lt_sub (hx : x.isFinite = true) (hy : y.isFinite = true) (h : x < y) :
    0.0 < y - x := by
  have hnumber := isNaN_sub hy (isNaN_of_isFinite hx)
  obtain ⟨k, hk⟩ := exists_real_eq_units hx
  obtain ⟨n, hn⟩ := exists_real_eq_units hy
  have hunit := two_zpow_pos (-1074)
  have hlt := real_lt_real h
  rw [hk, hn, EReal.coe_lt_coe_iff, mul_lt_mul_iff_left₀ hunit, Int.cast_lt] at hlt
  have hstep : ((1 : ℤ) : ℝ) * 2 ^ (-1074 : ℤ) ≤ n * 2 ^ (-1074 : ℤ) - k * 2 ^ (-1074 : ℤ) := by
    rw [← sub_mul]
    exact mul_le_mul_of_nonneg_right (by exact_mod_cast (by omega : 1 ≤ n - k)) hunit.le
  rw [lt_iff_real_lt (by decide) hnumber, real_zero, real_sub hnumber, hk, hn, ← EReal.coe_sub]
  refine lt_of_lt_of_le ?_ (rounded_mono (EReal.coe_le_coe_iff.2 hstep))
  rw [rounded_coe_eq_self (by norm_num) le_rfl (by norm_num), Int.cast_one, one_mul]
  exact_mod_cast hunit

theorem sub_mono (hx : x.isFinite = true) (hy : y.isFinite = true) (hz : z.isNaN = false)
    (h : x ≤ y) : x - z ≤ y - z := by
  have hx' := isNaN_sub hx hz
  have hy' := isNaN_sub hy hz
  rw [le_iff_real_le (isNaN_of_isFinite hx) (isNaN_of_isFinite hy)] at h
  rw [le_iff_real_le hx' hy', real_sub hx', real_sub hy']
  exact rounded_mono (EReal.sub_le_sub h le_rfl)

theorem sub_anti (hx : x.isFinite = true) (h : y ≤ z) : x - z ≤ x - y := by
  have hy' := isNaN_sub hx (isNaN_of_le h).1
  have hz' := isNaN_sub hx (isNaN_of_le h).2
  rw [le_iff_real_le hz' hy', real_sub hy', real_sub hz']
  exact rounded_mono (EReal.sub_le_sub le_rfl (real_le_real h))

theorem zero_le_mul (hx : 0.0 ≤ x) (hx' : x.isFinite = true) (hy : 0.0 ≤ y)
    (hy' : y.isFinite = true) : 0.0 ≤ x * y := by
  have hnumber := isNaN_mul_of_isFinite hx' hy'
  rw [zero_le_iff_real hnumber, real_mul hnumber, ← rounded_zero]
  exact rounded_mono (mul_nonneg (real_nonneg hx) (real_nonneg hy))

theorem mul_mono (hx : 0.0 ≤ x) (hx' : x.isFinite = true) (hy : y.isFinite = true)
    (hz : z.isFinite = true) (h : y ≤ z) : x * y ≤ x * z := by
  have hy' := isNaN_mul_of_isFinite hx' hy
  have hz' := isNaN_mul_of_isFinite hx' hz
  rw [le_iff_real_le hy' hz', real_mul hy', real_mul hz']
  exact rounded_mono (mul_le_mul_of_nonneg_left (real_le_real h) (real_nonneg hx))

theorem real_mul_le (hx : 0.0 ≤ x) (hx' : x.isFinite = true) (hy : y.isFinite = true)
    (h : real y ≤ 1) : real (x * y) ≤ real x := by
  rw [real_mul (isNaN_mul_of_isFinite hx' hy)]
  exact rounded_le_real ((mul_le_mul_of_nonneg_left h (real_nonneg hx)).trans_eq (mul_one _))

theorem real_le_mul (hx : 0.0 ≤ x) (hx' : x.isFinite = true) (hy : y.isFinite = true)
    (h : 1 ≤ real y) : real x ≤ real (x * y) := by
  rw [real_mul (isNaN_mul_of_isFinite hx' hy)]
  exact real_le_rounded ((mul_one _).ge.trans (mul_le_mul_of_nonneg_left h (real_nonneg hx)))

theorem mul_self_mono (hx : 0.0 ≤ x) (hy : y.isNaN = false) (h : x ≤ y) :
    x * x ≤ y * y := by
  have hx' := isNaN_of_zero_le (zero_le_mul_self (isNaN_of_zero_le hx))
  have hy' := isNaN_of_zero_le (zero_le_mul_self hy)
  rw [le_iff_real_le (isNaN_of_zero_le hx) hy] at h
  rw [le_iff_real_le hx' hy', real_mul hx', real_mul hy']
  exact rounded_mono (mul_le_mul h h (real_nonneg hx) ((real_nonneg hx).trans h))

theorem add_mono {x' y' : Float} (hx : 0.0 ≤ x) (hy : 0.0 ≤ y) (hx' : x'.isNaN = false)
    (hy' : y'.isNaN = false) (hxx : x ≤ x') (hyy : y ≤ y') : x + y ≤ x' + y' := by
  have hsum := isNaN_of_zero_le (zero_le_add hx hy)
  have hsum' := isNaN_of_zero_le (zero_le_add (float_le_trans hx hxx) (float_le_trans hy hyy))
  rw [le_iff_real_le (isNaN_of_zero_le hx) hx'] at hxx
  rw [le_iff_real_le (isNaN_of_zero_le hy) hy'] at hyy
  rw [le_iff_real_le hsum hsum', real_add hsum, real_add hsum']
  exact rounded_mono (add_le_add hxx hyy)

theorem real_le_add_right (hx : 0.0 ≤ x) (hy : 0.0 ≤ y) : real x ≤ real (x + y) := by
  rw [real_add (isNaN_of_zero_le (zero_le_add hx hy))]
  exact real_le_rounded (le_add_of_nonneg_right (real_nonneg hy))

theorem real_le_add_left (hx : 0.0 ≤ x) (hy : 0.0 ≤ y) : real y ≤ real (x + y) := by
  rw [real_add (isNaN_of_zero_le (zero_le_add hx hy))]
  exact real_le_rounded (le_add_of_nonneg_left (real_nonneg hx))

theorem sqrt_mono (hx : 0.0 ≤ x) (hy : y.isNaN = false) (h : x ≤ y) : x.sqrt ≤ y.sqrt := by
  have hsize := float_le_trans hx h
  have hx' := isNaN_of_zero_le (zero_le_sqrt hx)
  have hy' := isNaN_of_zero_le (zero_le_sqrt hsize)
  have hzero := real_nonneg hx
  rw [le_iff_real_le (isNaN_of_zero_le hx) hy] at h
  rw [le_iff_real_le hx' hy']
  cases hb : real y with
  | bot => exact absurd (hb ▸ hzero.trans h) (by simp)
  | top =>
    rw [real_sqrt_top hb]
    exact le_top
  | coe b =>
    cases ha : real x with
    | bot => exact absurd (ha ▸ hzero) (by simp)
    | top => exact absurd (ha ▸ hb ▸ h) (by simp)
    | coe a =>
      rw [ha, hb, EReal.coe_le_coe_iff] at h
      rw [ha, ← EReal.coe_zero, EReal.coe_le_coe_iff] at hzero
      rw [real_sqrt ha hzero, real_sqrt hb (hzero.trans h)]
      exact rounded_mono (EReal.coe_le_coe_iff.2 (Real.sqrt_le_sqrt h))

/-! ### Values kept between two bounds -/

/-- A number that is kept between two bounds is the middle one of the three. -/
theorem real_clamp {low high : Float} (hlow : low.isNaN = false) (hhigh : high.isNaN = false)
    (hx : x.isNaN = false) (hbounds : low ≤ high) :
    (if x < low then low else if high < x then high else x).isNaN = false ∧
      real (if x < low then low else if high < x then high else x) =
        max (real low) (min (real high) (real x)) := by
  rw [le_iff_real_le hlow hhigh] at hbounds
  split_ifs with hbelow habove
  · rw [lt_iff_real_lt hx hlow] at hbelow
    exact ⟨hlow, (max_eq_left (min_le_of_right_le hbelow.le)).symm⟩
  · rw [lt_iff_real_lt hhigh hx] at habove
    exact ⟨hhigh, by rw [min_eq_left habove.le, max_eq_right hbounds]⟩
  · rw [lt_iff_real_lt hx hlow, not_lt] at hbelow
    rw [lt_iff_real_lt hhigh hx, not_lt] at habove
    exact ⟨hx, by rw [min_eq_right habove, max_eq_right hbelow]⟩

end ParetoSearch.Binary64
