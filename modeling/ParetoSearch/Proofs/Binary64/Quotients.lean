import ParetoSearch.Proofs.Binary64.Arithmetic

/-!
# Quotients and roots round their exact values

The digits of a quotient or a root need not end. What is computed are enough of them, and
how they compare with the exact value: from the remainder one can tell whether it is
reached, and on which side of the next half it lies. This is all that rounding asks for
(`Marks`), so quotients and roots are rounded from their exact values too (`real_div`,
`real_sqrt`).
-/

namespace ParetoSearch.Binary64

open Float.Model Float.Model.UnpackedFloat

variable {u w : UnpackedFloat} {m k : ℕ} {e f : ℤ}

/-! ### Quotients -/

/-- The remainder tells where a quotient lies behind its whole part. -/
theorem marks_quotient (m : ℕ) (hk : 0 < k) :
    Marks (ExtendedMantissa.ofMantissaAndAccuracy (m / k) (accuracyOfFraction (m % k) k))
      ((m : ℝ) / k) := by
  have hk' : (0 : ℝ) < k := by exact_mod_cast hk
  have hvalue : (m : ℝ) / k = (m / k : ℕ) + ((m % k : ℕ) : ℝ) / k := by
    rw [eq_comm, add_div_eq_mul_add_div _ _ hk'.ne', div_left_inj' hk'.ne']
    exact_mod_cast Nat.div_add_mod' m k
  have hbelow : ((m % k : ℕ) : ℝ) / k < 1 := by
    rw [div_lt_one hk']
    exact_mod_cast Nat.mod_lt m hk
  have hnonneg : 0 ≤ ((m % k : ℕ) : ℝ) / k := by positivity
  rw [hvalue]
  unfold accuracyOfFraction
  split_ifs with hzero
  · rw [hzero]
    simpa using marks_exact (m / k)
  · have hpos : 0 < ((m % k : ℕ) : ℝ) / k := by
      have hrest : (0 : ℝ) < (m % k : ℕ) := by exact_mod_cast Nat.pos_of_ne_zero hzero
      positivity
    refine marks_inexact (by linarith) (by linarith) ?_
    rcases lt_trichotomy (2 * (m % k)) k with h | h | h
    · rw [compare_lt_iff_lt.2 h]
      have hrest : ((m % k : ℕ) : ℝ) / k < 1 / 2 := by
        rw [div_lt_div_iff₀ hk' two_pos]
        exact_mod_cast (by omega : m % k * 2 < 1 * k)
      exact add_lt_add_right hrest _
    · rw [compare_eq_iff_eq.2 h]
      have hrest : ((m % k : ℕ) : ℝ) / k = 1 / 2 := by
        rw [div_eq_div_iff hk'.ne' two_ne_zero]
        exact_mod_cast (by omega : m % k * 2 = 1 * k)
      exact congrArg _ hrest
    · rw [compare_gt_iff_gt.2 h]
      have hrest : 1 / 2 < ((m % k : ℕ) : ℝ) / k := by
        rw [div_lt_div_iff₀ two_pos hk']
        exact_mod_cast (by omega : 1 * k < m % k * 2)
      exact add_lt_add_right hrest _

/-- The exponent that the digits of a quotient are computed for. -/
def quotientExponent (m : ℕ) (e : ℤ) (k : ℕ) (f : ℤ) : ℤ :=
  min (e - f) (max ((m.log2 + e) - (k.log2 + f) - 53) (-1074))

/-- The digits of a dividend, with the zeros that the exponent of the quotient asks for. -/
def dividend (m : ℕ) (e : ℤ) (k : ℕ) (f : ℤ) : ℕ :=
  m * 2 ^ (e - f - quotientExponent m e k f).toNat

theorem divCore_eq (m : ℕ) (e : ℤ) (k : ℕ) (f : ℤ) : divCore Format.binary64 m e k f =
    (dividend m e k f / k, quotientExponent m e k f,
      accuracyOfFraction (dividend m e k f % k) k) := by
  have hexponent : min (e - f) (Format.binary64.targetExponent
      (totalExponent m e - totalExponent k f)) = quotientExponent m e k f := by
    simp only [Format.targetExponent, totalExponent, Format.mantissaBits, Format.minExponent,
      quotientExponent]
    omega
  simp only [divCore, hexponent, Nat.shiftLeft_eq]
  rfl

/-- The digits of a quotient reach below those that are kept. -/
theorem quotientExponent_le_target (hm : 0 < m) (hk : 0 < k) :
    quotientExponent m e k f ≤ target (dividend m e k f / k) (quotientExponent m e k f) ∧
      (0 < dividend m e k f / k ∨ quotientExponent m e k f ≤ -1074) := by
  rcases le_or_gt (quotientExponent m e k f) (-1074) with hleast | hgt
  · exact ⟨hleast.trans (le_max_right _ _), .inr hleast⟩
  · have hdigits : k.log2 + 1 + 52 ≤ m.log2 + (e - f - quotientExponent m e k f).toNat := by
      unfold quotientExponent at hgt ⊢
      omega
    have hbig : 2 ^ 52 ≤ dividend m e k f / k := by
      rw [Nat.le_div_iff_mul_le hk]
      calc 2 ^ 52 * k ≤ 2 ^ 52 * 2 ^ (k.log2 + 1) :=
            Nat.mul_le_mul_left _ (Nat.lt_log2_self (n := k)).le
        _ = 2 ^ (k.log2 + 1 + 52) := by rw [← pow_add, add_comm]
        _ ≤ 2 ^ (m.log2 + (e - f - quotientExponent m e k f).toNat) :=
            Nat.pow_le_pow_right two_pos hdigits
        _ ≤ dividend m e k f := by
            rw [pow_add]
            exact Nat.mul_le_mul_right _ (Nat.log2_self_le hm.ne')
    have hpos : 0 < dividend m e k f / k := lt_of_lt_of_le (by positivity) hbig
    have hlog := (Nat.le_log2 hpos.ne').2 hbig
    refine ⟨le_max_of_le_left ?_, .inl hpos⟩
    omega

/-- The quotient of the digits, with its exponent, is the quotient of the numbers. -/
theorem dividend_div (hk : 0 < k) : (dividend m e k f : ℝ) / k * 2 ^ quotientExponent m e k f =
    m * 2 ^ e / (k * 2 ^ f) := by
  have hk' : (k : ℝ) ≠ 0 := by exact_mod_cast hk.ne'
  have hshift : 0 ≤ e - f - quotientExponent m e k f := by
    have := min_le_left (e - f) (max ((m.log2 + e) - (k.log2 + f) - 53) (-1074))
    unfold quotientExponent
    omega
  have hpower : ((2 : ℝ) ^ (e - f - quotientExponent m e k f).toNat) =
      2 ^ (e - f - quotientExponent m e k f) := by
    rw [← zpow_natCast, Int.toNat_of_nonneg hshift]
  rw [dividend, Nat.cast_mul, Nat.cast_pow, Nat.cast_ofNat, hpower, zpow_sub₀ two_ne_zero,
    zpow_sub₀ two_ne_zero]
  field_simp

theorem Sign.div_eq_mul (s t : Sign) : s / t = s * t := by
  cases s <;> cases t <;> rfl

theorem signed_inv (s : Sign) (a : ℝ) : (signed s a)⁻¹ = signed s a⁻¹ := by
  cases s
  · exact inv_neg
  · rfl

theorem signed_div_signed (s t : Sign) (a b : ℝ) :
    signed s a / signed t b = signed (s / t) (a / b) := by
  rw [div_eq_mul_inv, signed_inv, signed_mul_signed, Sign.div_eq_mul, div_eq_mul_inv]

theorem realOf_div (hw : realOf w ≠ 0)
    (h : (UnpackedFloat.div Format.binary64 u w).isNaN = false) :
    realOf (repack (UnpackedFloat.div Format.binary64 u w)) = rounded (realOf u / realOf w) := by
  cases w with
  | notANumber => exact absurd rfl hw
  | infinity t =>
    have hquotient : realOf u / realOf (.infinity t) = 0 := by
      cases t
      · exact EReal.div_bot
      · exact EReal.div_top
    rw [hquotient, rounded_zero]
    cases u with
    | notANumber | infinity => cases h
    | zero | finite => rw [UnpackedFloat.div, repack_zero, realOf_zero]
  | zero t => exact absurd (realOf_zero t) hw
  | finite t k f hk =>
    cases u with
    | notANumber => cases h
    | infinity s =>
      rw [realOf_finite, div_eq_mul_inv, ← EReal.coe_inv, signed_inv,
        infinity_mul_signed s t (by positivity), rounded_infinity, UnpackedFloat.div,
        repack_infinity, Sign.div_eq_mul]
    | zero s =>
      rw [UnpackedFloat.div, repack_zero, realOf_zero, realOf_zero, EReal.zero_div, rounded_zero]
    | finite s m e hm =>
      obtain ⟨htarget, hpos⟩ := quotientExponent_le_target (e := e) (f := f) hm hk
      have hquotient := realOf_repack_roundWithAccuracy (s / t)
        (marks_quotient (dividend m e k f) hk) htarget hpos
      rw [dividend_div hk] at hquotient
      simp only [UnpackedFloat.div, divCore_eq]
      rw [hquotient, realOf_finite, realOf_finite, ← EReal.coe_div, signed_div_signed]

/-! ### Roots -/

/-- What a square root computes beside its digits. -/
def rootAccuracy (m : ℕ) : Accuracy :=
  if m - m.sqrt * m.sqrt = 0 then .exact
  else .inexact (if m - m.sqrt * m.sqrt ≤ m.sqrt then .lt else .gt)

/-- The rest of a square tells where its root lies behind the whole part. -/
theorem marks_sqrt (m : ℕ) :
    Marks (ExtendedMantissa.ofMantissaAndAccuracy m.sqrt (rootAccuracy m)) (√m) := by
  generalize hq : m.sqrt = q
  have hle : q * q ≤ m := hq ▸ Nat.sqrt_le m
  have hlt : m < (q + 1) * (q + 1) := hq ▸ Nat.lt_succ_sqrt m
  rw [rootAccuracy, hq]
  split_ifs with hrest hhalf
  · have hsquare : m = q * q := by omega
    rw [hsquare, Nat.cast_mul, Real.sqrt_mul_self q.cast_nonneg]
    exact marks_exact q
  all_goals
    have hlow : (q : ℝ) < √m := by
      rw [Real.lt_sqrt q.cast_nonneg, sq]
      exact_mod_cast (by omega : q * q < m)
    have hhigh : √m < q + 1 := by
      rw [Real.sqrt_lt' (by positivity), sq]
      exact_mod_cast hlt
    refine marks_inexact hlow hhigh ?_
  · have hbelow : (m : ℝ) ≤ q * q + q := by exact_mod_cast (by omega : m ≤ q * q + q)
    refine (Real.sqrt_lt' (by positivity)).2 ?_
    linarith
  · have habove : (q : ℝ) * q + q + 1 ≤ m := by
      exact_mod_cast (by omega : q * q + q + 1 ≤ m)
    refine (Real.lt_sqrt (by positivity)).2 ?_
    linarith

/-- The exponent that the digits of a root are computed for. -/
def rootExponent (m : ℕ) (e : ℤ) : ℤ :=
  min (e.ediv 2) (max ((m.log2 + e + 2).ediv 2 - 53) (-1074))

/-- The digits of a radicand, with the zeros that the exponent of the root asks for. -/
def radicand (m : ℕ) (e : ℤ) : ℕ := m * 2 ^ (e - 2 * rootExponent m e).toNat

theorem sqrtCore_eq (m : ℕ) (e : ℤ) : sqrtCore Format.binary64 m e =
    ((radicand m e).sqrt, rootExponent m e, rootAccuracy (radicand m e)) := by
  have hexponent : min (e.ediv 2) (Format.binary64.targetExponent
      ((totalExponent m e + 1).ediv 2)) = rootExponent m e := by
    have hsum : (m.log2 : ℤ) + 1 + e + 1 = m.log2 + e + 2 := by ring
    simp only [Format.targetExponent, totalExponent, Format.mantissaBits, Format.minExponent,
      rootExponent, hsum]
    omega
  simp only [sqrtCore, hexponent, Nat.shiftLeft_eq]
  rfl

theorem two_mul_rootExponent_le (m : ℕ) (e : ℤ) : 2 * rootExponent m e ≤ e := by
  have hle : rootExponent m e ≤ e / 2 := min_le_left _ _
  omega

/-- The digits of a root reach below those that are kept. -/
theorem rootExponent_le_target (hm : 0 < m) :
    rootExponent m e ≤ target (radicand m e).sqrt (rootExponent m e) ∧
      (0 < (radicand m e).sqrt ∨ rootExponent m e ≤ -1074) := by
  rcases le_or_gt (rootExponent m e) (-1074) with hleast | hgt
  · exact ⟨hleast.trans (le_max_right _ _), .inr hleast⟩
  · have hdigits : 52 + 52 ≤ m.log2 + (e - 2 * rootExponent m e).toNat := by
      have hle : rootExponent m e ≤ max ((m.log2 + e + 2) / 2 - 53) (-1074) := min_le_right _ _
      have := two_mul_rootExponent_le m e
      omega
    have hbig : 2 ^ 52 ≤ (radicand m e).sqrt := by
      rw [Nat.le_sqrt, ← pow_add]
      calc 2 ^ (52 + 52) ≤ 2 ^ (m.log2 + (e - 2 * rootExponent m e).toNat) :=
            Nat.pow_le_pow_right two_pos hdigits
        _ ≤ radicand m e := by
            rw [pow_add]
            exact Nat.mul_le_mul_right _ (Nat.log2_self_le hm.ne')
    have hpos : 0 < (radicand m e).sqrt := lt_of_lt_of_le (by positivity) hbig
    have hlog := (Nat.le_log2 hpos.ne').2 hbig
    refine ⟨le_max_of_le_left ?_, .inl hpos⟩
    omega

/-- The root of the digits, with its exponent, is the root of the number. -/
theorem sqrt_radicand (m : ℕ) (e : ℤ) :
    √(radicand m e) * 2 ^ rootExponent m e = √(m * 2 ^ e) := by
  have hpower : ((2 : ℝ) ^ (e - 2 * rootExponent m e).toNat) = 2 ^ (e - 2 * rootExponent m e) := by
    rw [← zpow_natCast, Int.toNat_of_nonneg (sub_nonneg.2 (two_mul_rootExponent_le m e))]
  have hsquare : (m : ℝ) * 2 ^ e =
      radicand m e * (2 ^ rootExponent m e * 2 ^ rootExponent m e) := by
    rw [radicand, Nat.cast_mul, Nat.cast_pow, Nat.cast_ofNat, hpower, ← zpow_add₀ two_ne_zero,
      mul_assoc, ← zpow_add₀ two_ne_zero]
    congr 2
    ring
  rw [hsquare, Real.sqrt_mul (Nat.cast_nonneg _), Real.sqrt_mul_self (two_zpow_pos _).le]

/-! ### Operations on floats -/

variable {x y : Float}

/-- **A quotient is the exact quotient, rounded**, if the divisor is not zero. -/
theorem real_div (hy : real y ≠ 0) (h : (x / y).isNaN = false) :
    real (x / y) = rounded (real x / real y) := by
  simp only [real_eq_realOf] at hy ⊢
  exact realOf_div hy (isNaN_of_repack h)

/-- **A root is the exact root, rounded.** -/
theorem real_sqrt {a : ℝ} (h : real x = a) (ha : 0 ≤ a) : real x.sqrt = rounded (√a : ℝ) := by
  have hzero : (0 : EReal) = a → rounded (√a : ℝ) = 0 := by
    intro h
    rw [← EReal.coe_eq_coe_iff.1 h, Real.sqrt_zero, EReal.coe_zero, rounded_zero]
  rw [real_eq_realOf] at h ⊢
  change realOf (repack (UnpackedFloat.sqrt Format.binary64 x.toModel.unpack)) = _
  cases hx : x.toModel.unpack with
  | notANumber =>
    rw [hx] at h
    exact (hzero h).symm
  | infinity s =>
    rw [hx] at h
    cases s
    · exact absurd h.symm (EReal.coe_ne_bot a)
    · exact absurd h.symm (EReal.coe_ne_top a)
  | zero s =>
    rw [hx, realOf_zero] at h
    rw [UnpackedFloat.sqrt, repack_zero, realOf_zero, hzero h]
  | finite s m e hm =>
    rw [hx, realOf_finite, EReal.coe_eq_coe_iff] at h
    have hpos : (0 : ℝ) < m * 2 ^ e := by positivity
    cases s with
    | negative =>
      rw [signed] at h
      linarith
    | positive =>
      obtain ⟨htarget, hdigits⟩ := rootExponent_le_target (e := e) hm
      have hroot := realOf_repack_roundWithAccuracy .positive (marks_sqrt (radicand m e)) htarget
        hdigits
      rw [sqrt_radicand] at hroot
      rw [← h]
      simp only [UnpackedFloat.sqrt, sqrtCore_eq]
      exact hroot

theorem real_sqrt_top (h : real x = ⊤) : real x.sqrt = ⊤ := by
  rw [real_eq_realOf] at h ⊢
  change realOf (repack (UnpackedFloat.sqrt Format.binary64 x.toModel.unpack)) = _
  cases hx : x.toModel.unpack with
  | notANumber =>
    rw [hx] at h
    exact absurd h EReal.zero_ne_top
  | infinity s =>
    cases s
    · rw [hx] at h
      exact absurd h bot_ne_top
    · rfl
  | zero s =>
    rw [hx, realOf_zero] at h
    exact absurd h EReal.zero_ne_top
  | finite s m e hm =>
    rw [hx, realOf_finite] at h
    exact absurd h (EReal.coe_ne_top _)

end ParetoSearch.Binary64
