import ParetoSearch.Proofs.Binary64.Reals

/-!
# Operations round their exact results

Sums, differences and products of floats are what the exact results are rounded to
(`real_add`, `real_sub`, `real_mul`), wherever the outcome is a number. The exact result
is taken among the reals with two infinities, so operands may be infinite, and the sign of
a zero does not matter. Sizes are exact (`real_abs`).
-/

namespace ParetoSearch.Binary64

open Float.Model Float.Model.UnpackedFloat

/-! ### Digits as floats have them -/

/-- The digits are those of a float: 53 of them, of which the first is set unless the exponent is
the least one. -/
def Canonical : UnpackedFloat → Prop
  | .finite _ m e _ => m < 2 ^ 53 ∧ -1074 ≤ e ∧ e ≤ 971 ∧ (2 ^ 52 ≤ m ∨ e = -1074)
  | _ => True

theorem canonical_unpack (x : Float) : Canonical x.toModel.unpack := by
  cases hu : x.toModel.unpack with
  | notANumber | infinity | zero => trivial
  | finite s m e hm =>
    have hdecode : decode x = .finite ⟨isNegative s, m, e⟩ := by
      rw [decode_eq_ofUnpacked, hu, Value.ofUnpacked]
    obtain ⟨hlt, hge, hnormal⟩ := canonical_of_decode hdecode
    refine ⟨hlt, hge, ?_, hnormal⟩
    have hle : ∀ n, decode x = .finite n → n.exponent ≤ 971 := by
      intro n hn
      simp only [decode] at hn
      split_ifs at hn <;> obtain rfl := Value.finite.inj hn <;> simp; omega
    exact hle _ hdecode

@[simp] theorem realOf_positive_infinity : realOf (.infinity .positive) = ⊤ := rfl

@[simp] theorem realOf_negative_infinity : realOf (.infinity .negative) = ⊥ := rfl

variable {u w : UnpackedFloat} {m k : ℕ} {e f : ℤ}

theorem Canonical.repack_eq (h : Canonical u) : repack u = u := by
  cases u with
  | notANumber => rfl
  | infinity s => cases s <;> rfl
  | zero s => cases s <;> rfl
  | finite s m e hm =>
    obtain ⟨hlt, hge, hle, hnormal⟩ := h
    exact repack_finite s hm hlt hge hle hnormal

theorem Canonical.rounded_realOf (h : Canonical u) : rounded (realOf u) = realOf u := by
  cases u with
  | notANumber => exact rounded_zero
  | infinity s =>
    cases s
    · exact rounded_bot
    · exact rounded_top
  | zero s => rw [realOf_zero, rounded_zero]
  | finite s m e hm =>
    obtain ⟨hlt, hge, hle, -⟩ := h
    have hfixed := rounded_coe_eq_self (k := m) (by exact_mod_cast hlt) hge hle
    rw [Int.cast_natCast] at hfixed
    rw [realOf_finite]
    cases s with
    | positive => exact hfixed
    | negative => rw [signed, EReal.coe_neg, rounded_neg, hfixed]

theorem rounded_real (x : Float) : rounded (real x) = real x := by
  rw [real_eq_realOf, (canonical_unpack x).rounded_realOf]

/-- Rounding passes no float upwards. -/
theorem rounded_le_real {r : EReal} {x : Float} (h : r ≤ real x) : rounded r ≤ real x :=
  (rounded_mono h).trans_eq (rounded_real x)

/-- Rounding passes no float downwards. -/
theorem real_le_rounded {r : EReal} {x : Float} (h : real x ≤ r) : real x ≤ rounded r :=
  (rounded_real x).ge.trans (rounded_mono h)

/-! ### Rounding exact digits -/

theorem marks_exact (m : ℕ) : Marks (ExtendedMantissa.ofMantissaAndAccuracy m .exact) m := by
  constructor <;> simp [ExtendedMantissa.ofMantissaAndAccuracy]

/-- A number that is not whole has its whole part as digits, and the accuracy by which it compares
with the next half. -/
theorem marks_inexact {v : ℝ} {o : Ordering} (hlow : m < v) (hhigh : v < m + 1)
    (ho : o.Compares v (m + 1 / 2)) :
    Marks (ExtendedMantissa.ofMantissaAndAccuracy m (.inexact o)) v := by
  cases o with
  | lt =>
    have hlt : v < m + 1 / 2 := ho
    exact ⟨hlow.le, hhigh, iff_of_false Bool.false_ne_true hlt.not_ge,
      iff_of_true rfl ⟨hlow.ne', hlt.ne⟩⟩
  | eq =>
    have heq : v = m + 1 / 2 := ho
    exact ⟨hlow.le, hhigh, iff_of_true rfl heq.ge,
      iff_of_false Bool.false_ne_true fun h => h.2 heq⟩
  | gt =>
    have hgt : m + 1 / 2 < v := ho
    exact ⟨hlow.le, hhigh, iff_of_true rfl hgt.le, iff_of_true rfl ⟨hlow.ne', hgt.ne'⟩⟩

/-- Rounding digits with a power of two rounds their product, wherever the last digit is. -/
theorem realOf_repack_round (s : Sign) (hm : 0 < m) :
    realOf (repack (UnpackedFloat.round Format.binary64 s m e)) =
      rounded (signed s (m * 2 ^ e) : ℝ) := by
  unfold UnpackedFloat.round
  simp only [targetExponent_eq, decreaseExponent, Nat.shiftLeft_eq]
  generalize hk : (e - target m e).toNat = k
  have htarget : e - (k : ℤ) ≤ target (m * 2 ^ k) (e - k) := by
    rw [target, log2_mul_two_pow hm]
    rw [target] at hk
    omega
  rw [realOf_repack_roundWithAccuracy s (marks_exact _) htarget
    (.inl (Nat.mul_pos hm (by positivity)))]
  congr 3
  rw [zpow_sub₀ two_ne_zero, zpow_natCast]
  push_cast
  field_simp

/-- The same for digits with a sign. -/
theorem realOf_repack_normalize (n e : ℤ) (s : Sign) :
    realOf (repack (UnpackedFloat.normalize Format.binary64 n e s)) =
      rounded ((n * 2 ^ e : ℝ)) := by
  rcases lt_trichotomy n 0 with h | rfl | h
  · rw [UnpackedFloat.normalize, compare_lt_iff_lt.2 h]
    have hdigits : (((-n).toNat : ℕ) : ℝ) = -n := by
      exact_mod_cast Int.toNat_of_nonneg (neg_nonneg.2 h.le)
    rw [realOf_repack_round _ (by omega), hdigits, signed, neg_mul, neg_neg]
  · rw [UnpackedFloat.normalize, compare_eq_iff_eq.2 rfl, repack_zero, realOf_zero, Int.cast_zero,
      zero_mul, EReal.coe_zero, rounded_zero]
  · rw [UnpackedFloat.normalize, compare_gt_iff_gt.2 h]
    have hdigits : ((n.toNat : ℕ) : ℝ) = n := by
      exact_mod_cast Int.toNat_of_nonneg h.le
    rw [realOf_repack_round _ (by omega), hdigits, signed]

/-! ### Sums and differences -/

/-- Lowering the exponent of digits changes them by the power of two. -/
theorem apply_decreaseExponent (s : Sign) (m : ℕ) (h : f ≤ e) :
    ((s.apply (decreaseExponent m e f).1 : ℤ) : ℝ) * 2 ^ f = signed s (m * 2 ^ e) := by
  obtain ⟨d, hd⟩ := Int.eq_ofNat_of_zero_le (sub_nonneg.2 h)
  have he : e = f + d := by omega
  have hdigits : (decreaseExponent m e f).1 = m * 2 ^ d := by
    simp only [decreaseExponent, Nat.shiftLeft_eq]
    rw [hd]
    rfl
  rw [hdigits, he, zpow_add₀ two_ne_zero, zpow_natCast]
  cases s <;> simp only [Sign.apply, signed] <;> push_cast <;> ring

theorem realOf_add (hu : Canonical u) (hw : Canonical w)
    (h : (UnpackedFloat.add Format.binary64 u w).isNaN = false) :
    realOf (repack (UnpackedFloat.add Format.binary64 u w)) = rounded (realOf u + realOf w) := by
  cases u with
  | notANumber => cases h
  | infinity s =>
    cases w with
    | notANumber => cases h
    | infinity t =>
      cases s <;> cases t
      · simp [UnpackedFloat.add]
      · exact absurd h (by decide)
      · exact absurd h (by decide)
      · simp [UnpackedFloat.add]
    | zero t => cases s <;> simp [UnpackedFloat.add, realOf_zero]
    | finite t k f hk => cases s <;> simp [UnpackedFloat.add, realOf_finite]
  | zero s =>
    cases w with
    | notANumber => cases h
    | infinity t => cases t <;> simp [UnpackedFloat.add, realOf_zero]
    | zero t => cases s <;> cases t <;> simp [UnpackedFloat.add, realOf_zero, rounded_zero]
    | finite t k f hk =>
      rw [realOf_zero, zero_add, hw.rounded_realOf]
      exact congrArg realOf hw.repack_eq
  | finite s m e hm =>
    cases w with
    | notANumber => cases h
    | infinity t => cases t <;> simp [UnpackedFloat.add, realOf_finite]
    | zero t =>
      rw [realOf_zero, add_zero, hu.rounded_realOf]
      exact congrArg realOf hu.repack_eq
    | finite t k f hk =>
      have hsum := realOf_repack_normalize
        (s.apply (decreaseExponent m e (min e f)).1 + t.apply (decreaseExponent k f (min e f)).1)
        (min e f) .positive
      rw [Int.cast_add, add_mul, apply_decreaseExponent s m (min_le_left e f),
        apply_decreaseExponent t k (min_le_right e f)] at hsum
      rw [realOf_finite, realOf_finite, ← EReal.coe_add]
      exact hsum

@[simp] theorem realOf_neg (u : UnpackedFloat) : realOf u.neg = -realOf u := by
  cases u with
  | notANumber => exact neg_zero.symm
  | infinity s =>
    cases s
    · exact EReal.neg_bot.symm
    · exact EReal.neg_top.symm
  | zero s => simp [UnpackedFloat.neg, realOf_zero]
  | finite s m e hm =>
    rw [UnpackedFloat.neg, realOf_finite, realOf_finite, ← EReal.coe_neg]
    cases s
    · exact congrArg _ (neg_neg _).symm
    · rfl

theorem Canonical.neg (h : Canonical u) : Canonical u.neg := by
  cases u <;> exact h

/-! ### Products -/

theorem signed_mul_signed (s t : Sign) (a b : ℝ) :
    signed s a * signed t b = signed (s * t) (a * b) := by
  cases s <;> cases t
  · exact neg_mul_neg a b
  · exact neg_mul a b
  · exact mul_neg a b
  · rfl

theorem infinity_mul_infinity (s t : Sign) :
    realOf (.infinity s) * realOf (.infinity t) = realOf (.infinity (s * t)) := by
  cases s <;> cases t
  · exact EReal.bot_mul_bot
  · exact EReal.bot_mul_top
  · exact EReal.top_mul_bot
  · exact EReal.top_mul_top

theorem infinity_mul_signed (s t : Sign) {a : ℝ} (ha : 0 < a) :
    realOf (.infinity s) * (signed t a : ℝ) = realOf (.infinity (s * t)) := by
  cases s <;> cases t
  · exact EReal.bot_mul_coe_of_neg (neg_neg_of_pos ha)
  · exact EReal.bot_mul_coe_of_pos ha
  · exact EReal.top_mul_coe_of_neg (neg_neg_of_pos ha)
  · exact EReal.top_mul_coe_of_pos ha

theorem rounded_infinity (s : Sign) : rounded (realOf (.infinity s)) = realOf (.infinity s) := by
  cases s
  · exact rounded_bot
  · exact rounded_top

theorem realOf_mul (hu : Canonical u) (hw : Canonical w)
    (h : (UnpackedFloat.mul Format.binary64 u w).isNaN = false) :
    realOf (repack (UnpackedFloat.mul Format.binary64 u w)) = rounded (realOf u * realOf w) := by
  cases u with
  | notANumber => cases h
  | infinity s =>
    cases w with
    | notANumber | zero => cases h
    | infinity t => rw [infinity_mul_infinity, rounded_infinity, UnpackedFloat.mul, repack_infinity]
    | finite t k f hk =>
      rw [realOf_finite, infinity_mul_signed s t (by positivity), rounded_infinity,
        UnpackedFloat.mul, repack_infinity]
  | zero s =>
    cases w with
    | notANumber | infinity => cases h
    | zero | finite => simp [UnpackedFloat.mul, realOf_zero, rounded_zero]
  | finite s m e hm =>
    cases w with
    | notANumber => cases h
    | infinity t =>
      rw [realOf_finite, mul_comm, infinity_mul_signed t s (by positivity), rounded_infinity,
        UnpackedFloat.mul, repack_infinity, Sign.mul_comm]
    | zero => simp [UnpackedFloat.mul, realOf_zero, rounded_zero]
    | finite t k f hk =>
      have htarget := add_le_target hm hk hu.2.2.2 hw.2.2.2
      have hproduct := realOf_repack_roundWithAccuracy (s * t) (marks_exact (m * k)) htarget
        (.inl (Nat.mul_pos hm hk))
      rw [realOf_finite, realOf_finite, ← EReal.coe_mul, signed_mul_signed, mul_mul_mul_comm,
        ← zpow_add₀ two_ne_zero, ← Nat.cast_mul]
      exact hproduct

/-! ### Sizes of numbers -/

theorem Canonical.abs (h : Canonical u) : Canonical u.abs := by
  cases u <;> exact h

theorem realOf_abs (u : UnpackedFloat) : realOf u.abs = max (realOf u) (-realOf u) := by
  have hsigned : ∀ (s : Sign) (v : ℝ), 0 ≤ v →
      (v : EReal) = max (signed s v : EReal) (-(signed s v : EReal)) := by
    intro s v hv
    have hle : ((-v : ℝ) : EReal) ≤ v := EReal.coe_le_coe_iff.2 (by linarith)
    cases s with
    | negative => rw [signed, ← EReal.coe_neg, neg_neg, max_eq_right hle]
    | positive => rw [signed, ← EReal.coe_neg, max_eq_left hle]
  cases u with
  | notANumber => simp [UnpackedFloat.abs, realOf, Value.ofUnpacked, Value.real]
  | infinity s => cases s <;> simp [UnpackedFloat.abs]
  | zero s => simp [UnpackedFloat.abs, realOf_zero]
  | finite s m e hm =>
    rw [UnpackedFloat.abs, realOf_finite, realOf_finite]
    exact hsigned s (m * 2 ^ e) (by positivity)

/-! ### Operations on floats -/

theorem isNaN_of_repack (h : (repack u).isNaN = false) : u.isNaN = false := by
  cases u with
  | notANumber => exact h
  | infinity | zero | finite => rfl

variable {x y : Float}

/-- **A sum is the exact sum, rounded.** -/
theorem real_add (h : (x + y).isNaN = false) : real (x + y) = rounded (real x + real y) := by
  simp only [real_eq_realOf]
  exact realOf_add (canonical_unpack x) (canonical_unpack y) (isNaN_of_repack h)

theorem real_neg (x : Float) : real (-x) = -real x := by
  rw [real_eq_realOf, real_eq_realOf x, ← realOf_neg]
  exact congrArg realOf (canonical_unpack x).neg.repack_eq

/-- **A difference is the exact difference, rounded.** -/
theorem real_sub (h : (x - y).isNaN = false) : real (x - y) = rounded (real x - real y) := by
  have h := isNaN_of_repack h
  rw [sub_eq_add_neg] at h
  have hsum := realOf_add (canonical_unpack x) (canonical_unpack y).neg h
  rw [← sub_eq_add_neg, realOf_neg] at hsum
  simp only [real_eq_realOf]
  exact hsum

/-- A size is exact. -/
theorem real_abs (x : Float) : real x.abs = max (real x) (-real x) := by
  rw [real_eq_realOf, real_eq_realOf x, ← realOf_abs]
  exact congrArg realOf (canonical_unpack x).abs.repack_eq

/-- **A product is the exact product, rounded.** -/
theorem real_mul (h : (x * y).isNaN = false) : real (x * y) = rounded (real x * real y) := by
  simp only [real_eq_realOf]
  exact realOf_mul (canonical_unpack x) (canonical_unpack y) (isNaN_of_repack h)

end ParetoSearch.Binary64
