import ParetoSearch.Proofs.Binary64.Monotone

/-!
# Counts as floats and floats as counts

A count of up to 53 bits is a float (`real_ofNat`), so what is computed from counts is
the exact result, rounded once. On the way back a value is rounded down or to the nearest
count, and both keep the order towards counts: a value that is not above a count is not
made a greater one (`floorCount_le_of_real_le`, `roundCount_le_of_real_le`), and a value
that is not below a count is not rounded to a lesser one (`le_roundCount_of_le_real`),
also where it is infinite.
-/

namespace ParetoSearch.Binary64

open Float.Model Float.Model.UnpackedFloat

variable {x : Float} {n : ℕ}

/-! ### Counts as floats -/

theorem real_toFloat {w : UInt64} (h : w.toNat < 2 ^ 53) :
    real w.toFloat = ((w.toNat : ℝ) : EReal) := by
  have hnormalize := realOf_repack_normalize w.toNat 0 .positive
  have hfixed := rounded_coe_eq_self (k := w.toNat) (f := 0) (by exact_mod_cast h) (by norm_num)
    (by norm_num)
  rw [real_eq_realOf]
  refine hnormalize.trans (hfixed.trans ?_)
  rw [zpow_zero, mul_one, Int.cast_natCast]

/-- **A count of up to 53 bits is a float.** -/
theorem real_ofNat (h : n ≤ 2 ^ 53) : real (Float.ofNat n) = ((n : ℝ) : EReal) := by
  rcases h.lt_or_eq with hlt | rfl
  · have heq : Float.ofNat n = n.toUInt64.toFloat * 1.0 := by
      change Float.ofScientific n false 0 = _
      rw [Float.ofScientific, dif_pos ⟨hlt, by decide⟩]
      rfl
    have hword : n.toUInt64.toNat = n := Nat.mod_eq_of_lt (hlt.trans (by norm_num))
    have hfactor := real_toFloat (w := n.toUInt64) (hword.symm ▸ hlt)
    have hnumber : (n.toUInt64.toFloat * 1.0).isNaN = false :=
      isNaN_mul (isNaN_toFloat _) (by decide) (by decide)
    rw [heq, real_mul hnumber, real_one, mul_one, rounded_real, hfactor, hword]
  · have hdecode : decode (Float.ofNat (2 ^ 53)) = .finite ⟨false, 2 ^ 52, 1⟩ := by decide +kernel
    rw [real_eq_number hdecode]
    norm_num [Scaled.number, Scaled.signed]

theorem isFinite_ofNat (h : n ≤ 2 ^ 53) : (Float.ofNat n).isFinite = true :=
  isFinite_of_real_eq (isNaN_ofNat n) (real_ofNat h)

theorem zero_le_ofNat (h : n ≤ 2 ^ 53) : 0.0 ≤ Float.ofNat n := by
  rw [zero_le_iff_real (isNaN_ofNat n), real_ofNat h]
  exact_mod_cast n.cast_nonneg

theorem ofNat_le_ofNat {m : ℕ} (h : m ≤ n) (hn : n ≤ 2 ^ 53) : Float.ofNat m ≤ Float.ofNat n := by
  rw [le_iff_real_le (isNaN_ofNat m) (isNaN_ofNat n), real_ofNat (h.trans hn), real_ofNat hn]
  exact_mod_cast h

/-- Counting on ends at the greatest count of 53 bits, which one more does not change. -/
theorem ofNat_add_one_le :
    Float.ofNat (min n (2 ^ 53)) + 1.0 ≤ Float.ofNat (min (n + 1) (2 ^ 53)) := by
  rcases lt_or_ge n (2 ^ 53) with hlt | hge
  · rw [min_eq_left hlt.le, min_eq_left (Nat.succ_le_of_lt hlt)]
    have hsum := isNaN_of_zero_le (zero_le_add (zero_le_ofNat hlt.le) (y := 1.0) (by decide))
    have hreal : real (Float.ofNat n) + real 1.0 = real (Float.ofNat (n + 1)) := by
      rw [real_ofNat hlt.le, real_ofNat (Nat.succ_le_of_lt hlt), real_one]
      push_cast
      rfl
    rw [le_iff_real_le hsum (isNaN_ofNat _), real_add hsum, hreal, rounded_real]
  · rw [min_eq_right hge, min_eq_right (hge.trans n.le_succ)]
    decide +kernel

/-- A quotient of counts is the exact one, rounded. -/
theorem real_ofNat_div_ofNat {m : ℕ} (hm : m ≤ 2 ^ 53) (hn : n ≤ 2 ^ 53) (hpos : n ≠ 0) :
    (Float.ofNat m / Float.ofNat n).isNaN = false ∧
      real (Float.ofNat m / Float.ofNat n) = rounded ((m / n : ℝ) : EReal) := by
  have hzero : 0 < real (Float.ofNat n) := by
    rw [real_ofNat hn]
    exact_mod_cast Nat.pos_of_ne_zero hpos
  have hdivisor : 0.0 < Float.ofNat n := by
    rwa [lt_iff_real_lt (by decide) (isNaN_ofNat n), real_zero]
  have hnumber := isNaN_div (isNaN_ofNat m) (isFinite_ofNat hn) hdivisor
  rw [real_div hzero.ne' hnumber, real_ofNat hm, real_ofNat hn, EReal.coe_div]
  exact ⟨hnumber, rfl⟩

/-! ### Rounding digits to the nearest count -/

/-- The digits of a number that is not negative are rounded as the number is, halves upwards. -/
theorem Scaled.round_eq {m : Scaled} (h : m.negative = false) : m.round = ⌊m.number + 1 / 2⌋ := by
  have hsigned : m.signed = m.significand := by simp [Scaled.signed, h]
  unfold Scaled.round Scaled.number
  rw [h, if_neg Bool.false_ne_true, hsigned]
  split_ifs with hexp
  · obtain ⟨d, hd⟩ := Int.eq_ofNat_of_zero_le hexp
    have hfloor := Int.floor_intCast_add (m.significand * 2 ^ d) (1 / 2 : ℚ)
    have hhalf : ⌊(1 / 2 : ℚ)⌋ = 0 := by norm_num
    rw [hhalf, add_zero] at hfloor
    rw [hd, zpow_natCast]
    exact_mod_cast hfloor.symm
  · obtain ⟨d, hd⟩ := Int.eq_ofNat_of_zero_le (a := -m.exponent - 1) (by omega)
    have hexponent : m.exponent = -((d + 1 : ℕ) : ℤ) := by omega
    have hshift : (-m.exponent).toNat - 1 = d := by omega
    have hfloor := Rat.floor_intCast_div_natCast (m.significand + 2 ^ d) (2 ^ (d + 1))
    have hnumber : ((m.significand + 2 ^ d : ℤ) : ℚ) / ((2 ^ (d + 1) : ℕ) : ℚ) =
        m.significand * 2 ^ (-((d + 1 : ℕ) : ℤ)) + 1 / 2 := by
      rw [zpow_neg, zpow_natCast]
      push_cast
      field_simp
      ring
    rw [hshift, hexponent, Int.cast_natCast, ← hnumber, hfloor, pow_succ']
    rfl

theorem Scaled.round_true (m : ℕ) (e : ℤ) :
    Scaled.round ⟨true, m, e⟩ = -Scaled.round ⟨false, m, e⟩ := rfl

theorem Scaled.number_nonneg (m : ℕ) (e : ℤ) : 0 ≤ Scaled.number ⟨false, m, e⟩ := by
  rw [Scaled.number, Scaled.signed, if_neg Bool.false_ne_true, Int.cast_natCast]
  positivity

theorem Scaled.round_nonneg (m : ℕ) (e : ℤ) : 0 ≤ Scaled.round ⟨false, m, e⟩ := by
  rw [Scaled.round_eq rfl]
  exact Int.floor_nonneg.2 (by linarith [Scaled.number_nonneg m e])

theorem Scaled.floor_le_natCast {m : Scaled} (h : m.number ≤ n) : m.floor ≤ n := by
  rw [Scaled.floor_eq]
  exact (Int.floor_mono h).trans (Int.floor_natCast n).le

theorem Scaled.round_le_natCast {m : Scaled} (h : m.number ≤ n) : m.round ≤ n := by
  obtain ⟨_ | _, k, e⟩ := m
  · rw [Scaled.round_eq rfl]
    refine Int.lt_add_one_iff.1 (Int.floor_lt.2 ?_)
    push_cast
    linarith
  · rw [Scaled.round_true]
    have := Scaled.round_nonneg k e
    omega

theorem Scaled.natCast_le_round {m : Scaled} (h : n ≤ m.number) : n ≤ m.round := by
  obtain ⟨_ | _, k, e⟩ := m
  · rw [Scaled.round_eq rfl]
    refine Int.le_floor.2 ?_
    push_cast
    linarith
  · -- A number with a minus that is not below a count is zero.
    rw [Scaled.number_true] at h
    have hzero : Scaled.number ⟨false, k, e⟩ = 0 := by
      have := Scaled.number_nonneg k e
      have := n.cast_nonneg (α := ℚ)
      linarith
    have hn : n = 0 := by
      rw [hzero, neg_zero] at h
      exact_mod_cast le_antisymm h n.cast_nonneg
    rw [Scaled.round_true, Scaled.round_eq rfl, hzero, hn]
    norm_num

/-! ### Floats as counts -/

variable {f : Scaled → ℤ}

theorem toIntWith_le_natCast (hf : ∀ m : Scaled, m.number ≤ n → f m ≤ n)
    (h : real x ≤ ((n : ℝ) : EReal)) : (toIntWith f 0 maxCount x).toNat ≤ n := by
  unfold toIntWith
  rw [real] at h
  cases hx : decode x with
  | nan => exact n.zero_le
  | infinite negative =>
    cases negative with
    | true => exact n.zero_le
    | false => exact absurd (hx ▸ h) (EReal.coe_lt_top _).not_ge
  | finite m =>
    rw [hx, Value.real, EReal.coe_le_coe_iff] at h
    have hm : f m ≤ n := hf m (by exact_mod_cast h)
    simp only [confine]
    omega

theorem natCast_le_toIntWith (hf : ∀ m : Scaled, n ≤ m.number → n ≤ f m) (hn : n ≤ maxCount)
    (h : ((n : ℝ) : EReal) ≤ real x) : n ≤ (toIntWith f 0 maxCount x).toNat := by
  unfold toIntWith
  rw [real] at h
  cases hx : decode x with
  | nan =>
    rw [hx, Value.real, ← EReal.coe_zero, EReal.coe_le_coe_iff] at h
    exact_mod_cast h
  | infinite negative =>
    cases negative with
    | true => exact absurd (hx ▸ h) (EReal.bot_lt_coe _).not_ge
    | false => exact hn
  | finite m =>
    rw [hx, Value.real, EReal.coe_le_coe_iff] at h
    have hm : n ≤ f m := hf m (by exact_mod_cast h)
    simp only [confine]
    omega

/-- **A value that is not above a count is not rounded down to a greater one.** -/
theorem floorCount_le_of_real_le (h : real x ≤ ((n : ℝ) : EReal)) : floorCount x ≤ n :=
  toIntWith_le_natCast (fun _ => Scaled.floor_le_natCast) h

/-- **A value that is not above a count is not rounded to a greater one.** -/
theorem roundCount_le_of_real_le (h : real x ≤ ((n : ℝ) : EReal)) : roundCount x ≤ n :=
  toIntWith_le_natCast (fun _ => Scaled.round_le_natCast) h

/-- **A value that is not below a count is not rounded to a lesser one.** -/
theorem le_roundCount_of_le_real (hn : n ≤ maxCount) (h : ((n : ℝ) : EReal) ≤ real x) :
    n ≤ roundCount x :=
  natCast_le_toIntWith (fun _ => Scaled.natCast_le_round) hn h

end ParetoSearch.Binary64
