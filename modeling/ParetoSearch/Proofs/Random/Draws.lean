import ParetoSearch.Proofs.Binary64.Monotone
import ParetoSearch.Random.Generator

/-!
# What is drawn

A fraction is a whole number of 52 digits in units of `2 ^ -52` (`Draw.real_fraction`), so it stays
below one by that much, and a number drawn between two ends lies between them, both included
(`Draw.between_bounds`). For the upper end this is not plain: the width is rounded and may be more
than the exact one. But then a fraction of it loses at least as much as has been added
(`Draw.exists_real_share`).

`Always` and `Meets` say what holds of every answer of an operation, whatever the generator gives,
and what may go wrong on the way.
-/

namespace ParetoSearch

open Binary64

/-! ### Answers of operations -/

variable {ε σ α β : Type} {Q : α → Prop} {R : β → Prop} {E : ε → Prop}

/-- Every answer of the operation, which never fails, has the property. -/
def Always (Q : α → Prop) (x : StateM σ α) : Prop := ∀ s, Q (x s).1

namespace Always

variable {x : StateM σ α} {f : α → StateM σ β}

theorem pure {a : α} (h : Q a) : Always Q (Pure.pure a : StateM σ α) := fun _ => h

theorem bind (hx : Always Q x) (hf : ∀ a, Q a → Always R (f a)) : Always R (x >>= f) :=
  fun s => hf _ (hx s) (x s).2

/-- What goes on whatever the answer is. -/
theorem bind_of_forall (hf : ∀ a, Always R (f a)) : Always R (x >>= f) :=
  fun s => hf _ (x s).2

end Always

/-- Every answer of the operation has the one property, and everything that it raises the other. -/
def Meets (Q : α → Prop) (E : ε → Prop) (x : EStateM ε σ α) : Prop :=
  ∀ s, match x s with
    | .ok a _ => Q a
    | .error e _ => E e

namespace Meets

variable {x : EStateM ε σ α} {f : α → EStateM ε σ β}

theorem pure {a : α} (h : Q a) : Meets Q E (Pure.pure a : EStateM ε σ α) := fun _ => h

theorem throw {e : ε} (h : E e) : Meets Q E (MonadExcept.throw e : EStateM ε σ α) := fun _ => h

theorem bind (hx : Meets Q E x) (hf : ∀ a, Q a → Meets R E (f a)) : Meets R E (x >>= f) := by
  intro s
  have hs := hx s
  rw [bind_apply]
  cases h : x s with
  | error e t =>
    rw [h] at hs
    exact hs
  | ok a t =>
    rw [h] at hs
    exact hf a hs t

theorem mono {Q' : α → Prop} {E' : ε → Prop} (h : Meets Q E x) (hQ : ∀ a, Q a → Q' a)
    (hE : ∀ e, E e → E' e) : Meets Q' E' x := by
  intro s
  have hs := h s
  cases hx : x s with
  | error e t =>
    rw [hx] at hs
    exact hE e hs
  | ok a t =>
    rw [hx] at hs
    exact hQ a hs

/-- An operation that never fails has nothing to raise. -/
theorem lift {x : StateM σ α} (h : Always Q x) : Meets Q E (liftM x : EStateM ε σ α) := h

/-- What draws with the generator does the same with a world beside it. -/
theorem onFirst {τ : Type} (h : Meets Q E x) :
    Meets Q E (ParetoSearch.onFirst x : EStateM ε (σ × τ) α) := by
  intro s
  have hs := h s.1
  unfold ParetoSearch.onFirst focus
  cases hx : x s.1 with
  | error e t =>
    rw [hx] at hs
    exact hs
  | ok a t =>
    rw [hx] at hs
    exact hs

theorem exists_eq_ok (h : Meets Q (fun _ => False) x) (s : σ) : ∃ a t, x s = .ok a t ∧ Q a := by
  have hs := h s
  cases hx : x s with
  | error e t =>
    rw [hx] at hs
    exact hs.elim
  | ok a t =>
    rw [hx] at hs
    exact ⟨a, t, rfl, hs⟩

end Meets

/-! ### Fractions -/

namespace Draw

open Float.Model Float.Model.UnpackedFloat

variable {b : BitVec Format.binary64.numBits}

/-- Bits with the sign and the exponent of one stand for a number from one up to two. -/
theorem unpack_of_exponent (h : b.toNat / 0x10000000000000 = 0x3ff) :
    UnpackedFloat.unpack Format.binary64 b =
      .finite .positive (2 ^ 52 + b.toNat % 0x10000000000000) (-52) (by omega) := by
  have hexponent : (unpackExponent b).toNat = 0x3ff := by
    rw [toNat_unpackExponent, h]
  have hsign : Sign.ofBitVec (unpackSign b) = .positive := by
    have hnegative := isNegative_unpackSign b
    have hbit : b.toNat / 0x8000000000000000 = 0 := by omega
    rw [hbit] at hnegative
    revert hnegative
    cases Sign.ofBitVec (unpackSign b) <;> simp [isNegative]
  have hones : unpackExponent b ≠ -1#_ := by
    intro heq
    rw [heq] at hexponent
    exact absurd hexponent (by decide)
  have hzero : unpackExponent b ≠ 0#_ := by
    intro heq
    rw [heq] at hexponent
    exact absurd hexponent (by decide)
  have hdigits : (1#1 ++ unpackMantissa b).toNat = 2 ^ 52 + b.toNat % 0x10000000000000 := by
    rw [BitVec.toNat_append, ← Nat.shiftLeft_add_eq_or_of_lt (BitVec.isLt _), toNat_unpackMantissa]
    rfl
  unfold UnpackedFloat.unpack
  simp only [if_neg hones, if_neg hzero, hexponent, hsign, hdigits]
  rfl

theorem unpack_ofBits {bits : UInt64} (h : bits.toNat / 0x10000000000000 = 0x3ff) :
    (Float.ofBits bits).toModel.unpack =
      .finite .positive (2 ^ 52 + bits.toNat % 0x10000000000000) (-52) (by omega) := by
  have hlt : bits.toNat % 0x10000000000000 < 0x10000000000000 := Nat.mod_lt _ (by norm_num)
  have hunpack := unpack_of_exponent h
  change repack (UnpackedFloat.unpack Format.binary64 bits.toBitVec) = _
  rw [hunpack]
  exact repack_finite _ _ (by omega) (by norm_num) (by norm_num) (.inl (by omega))

/-- The upper 52 bits of a word are put behind the sign and the exponent of one. -/
theorem toNat_bits (word : UInt64) :
    ((word >>> 12) ||| 0x3ff0000000000000).toNat = 0x3ff0000000000000 + word.toNat / 0x1000 := by
  have hlt : word.toNat / 0x1000 < 2 ^ 52 := by
    have := word.toNat_lt
    omega
  have hor := Nat.shiftLeft_add_eq_or_of_lt hlt 0x3ff
  rw [UInt64.toNat_or, UInt64.toNat_shiftRight, Nat.lor_comm]
  change 0x3ff <<< 52 ||| word.toNat >>> 12 = _
  rw [Nat.shiftRight_eq_div_pow, ← hor, Nat.shiftLeft_eq]

/-- **A fraction is a number of 52 digits behind the point**, the upper ones of the word. -/
theorem real_fraction (word : UInt64) : (fraction word).isFinite = true ∧
    real (fraction word) = (((word.toNat / 0x1000 : ℕ) * 2 ^ (-52 : ℤ) : ℝ) : EReal) := by
  have hbits := toNat_bits word
  have hn : word.toNat / 0x1000 < 2 ^ 52 := by
    have := word.toNat_lt
    omega
  have hunpack := unpack_ofBits (show ((word >>> 12) ||| 0x3ff0000000000000).toNat /
    0x10000000000000 = 0x3ff by omega)
  have hfraction : ((word >>> 12) ||| 0x3ff0000000000000).toNat % 0x10000000000000 =
      word.toNat / 0x1000 := by omega
  simp only [hfraction] at hunpack
  have hfinite : (Float.ofBits ((word >>> 12) ||| 0x3ff0000000000000)).isFinite = true := by
    change (Float.ofBits _).toModel.unpack.isFinite = true
    rw [hunpack]
    rfl
  have hnumber : (fraction word).isNaN = false := isNaN_sub hfinite (by decide)
  have hfixed := rounded_coe_eq_self (k := (word.toNat / 0x1000 : ℕ)) (f := -52)
    (by rw [Nat.abs_cast]; omega) (by norm_num) (by norm_num)
  have hreal : real (fraction word) =
      (((word.toNat / 0x1000 : ℕ) * 2 ^ (-52 : ℤ) : ℝ) : EReal) := by
    rw [fraction, real_sub hnumber, real_one, real_eq_realOf, hunpack, realOf_finite, signed,
      ← EReal.coe_one, ← EReal.coe_sub]
    rw [Int.cast_natCast] at hfixed
    refine Eq.trans (congrArg (fun r : ℝ => rounded r) ?_) hfixed
    push_cast
    rw [add_mul]
    norm_num
  exact ⟨isFinite_of_real_eq hnumber hreal, hreal⟩

/-- A fraction stays below one by a digit. -/
theorem real_fraction_le (word : UInt64) :
    real (fraction word) ≤ ((1 - 2 ^ (-52 : ℤ) : ℝ) : EReal) := by
  have hn : word.toNat / 0x1000 + 1 ≤ 2 ^ 52 := by
    have := word.toNat_lt
    omega
  have hn' : ((word.toNat / 0x1000 : ℕ) : ℝ) ≤ 2 ^ (52 : ℤ) - 1 := by
    have : ((word.toNat / 0x1000 : ℕ) : ℝ) + 1 ≤ 2 ^ 52 := by exact_mod_cast hn
    norm_num at this ⊢
    linarith
  rw [(real_fraction word).2, EReal.coe_le_coe_iff]
  calc ((word.toNat / 0x1000 : ℕ) : ℝ) * 2 ^ (-52 : ℤ) ≤ (2 ^ (52 : ℤ) - 1) * 2 ^ (-52 : ℤ) :=
        mul_le_mul_of_nonneg_right hn' (two_zpow_pos (-52)).le
    _ = 1 - 2 ^ (-52 : ℤ) := by norm_num

theorem fraction_mono {word word' : UInt64} (h : word ≤ word') :
    fraction word ≤ fraction word' := by
  obtain ⟨hfinite, hreal⟩ := real_fraction word
  obtain ⟨hfinite', hreal'⟩ := real_fraction word'
  rw [le_iff_real_le (isNaN_of_isFinite hfinite) (isNaN_of_isFinite hfinite'), hreal, hreal',
    EReal.coe_le_coe_iff]
  refine mul_le_mul_of_nonneg_right ?_ (two_zpow_pos (-52)).le
  exact_mod_cast Nat.div_le_div_right (UInt64.le_iff_toNat_le.1 h)

theorem fraction_bounds (word : UInt64) :
    0.0 ≤ fraction word ∧ fraction word ≤ fraction 0xffffffffffffffff := by
  refine ⟨?_, fraction_mono ?_⟩
  · have hleast : 0.0 ≤ fraction 0 := by decide +kernel
    exact float_le_trans hleast (fraction_mono (UInt64.zero_le ..))
  · exact UInt64.le_iff_toNat_le.2 (Nat.le_of_lt_succ word.toNat_lt)

/-! ### Numbers between two ends -/

variable {low high : Float}

/-- **A fraction of the width is not above the distance of the ends**, though the width may be. -/
theorem exists_real_share (hlow : low.isFinite = true) (hhigh : high.isFinite = true)
    (hle : low ≤ high) (hwidth : (high - low).isFinite = true) (word : UInt64) :
    ∃ l h q : ℝ, real low = l ∧ real high = h ∧ real (fraction word * (high - low)) = q ∧
      0 ≤ q ∧ q ≤ h - l := by
  obtain ⟨hsize, -⟩ := fraction_bounds word
  obtain ⟨hfinite, -⟩ := real_fraction word
  have hone := real_fraction_le word
  have hwidthSize := zero_le_sub hhigh (isNaN_of_isFinite hlow) hle
  obtain ⟨k, hk⟩ := exists_real_eq_units hlow
  obtain ⟨n, hn⟩ := exists_real_eq_units hhigh
  obtain ⟨r, hr⟩ := real_of_isFinite hfinite
  obtain ⟨s, hs⟩ := real_of_isFinite hwidth
  set l : ℝ := k * 2 ^ (-1074 : ℤ) with hl
  set h : ℝ := n * 2 ^ (-1074 : ℤ) with hh
  have hunits : h - l = ((n - k : ℤ) : ℝ) * 2 ^ (-1074 : ℤ) := by
    rw [hl, hh]
    push_cast
    ring
  have hr₀ := real_nonneg hsize
  rw [hr, ← EReal.coe_zero, EReal.coe_le_coe_iff] at hr₀
  rw [hr, EReal.coe_le_coe_iff] at hone
  have hends := real_le_real hle
  rw [hk, hn, EReal.coe_le_coe_iff] at hends
  have hshareSize : 0.0 ≤ fraction word * (high - low) :=
    zero_le_mul hsize hfinite hwidthSize hwidth
  have hshareLe : real (fraction word * (high - low)) ≤ real (high - low) := by
    rw [float_mul_comm]
    refine real_mul_le hwidthSize hwidth hfinite ?_
    rw [hr]
    exact_mod_cast hone.trans (by linarith [two_zpow_pos (-52)] : (1 : ℝ) - 2 ^ (-52 : ℤ) ≤ 1)
  obtain ⟨q, hq⟩ := real_of_isFinite (isFinite_of_real_le hshareSize hwidth hshareLe)
  have hq₀ := real_nonneg hshareSize
  rw [hq, ← EReal.coe_zero, EReal.coe_le_coe_iff] at hq₀
  refine ⟨l, h, q, hk, hn, hq, hq₀, ?_⟩
  -- The width and its share are the exact ones, rounded.
  have hnearest : nearest (h - l) = s := by
    refine nearest_eq_of_rounded ?_
    rw [← hs, real_sub (isNaN_of_isFinite hwidth), hn, hk, EReal.coe_sub]
  rw [real_mul (isNaN_of_zero_le hshareSize), hr, hs, ← EReal.coe_mul] at hq
  rw [← nearest_eq_of_rounded hq, ← hnearest]
  exact nearest_mul_nearest_le (sub_nonneg.2 hends) hunits hr₀ hone

/-- **What is drawn lies between the two ends.** -/
theorem between_bounds (hlow : low.isFinite = true) (hhigh : high.isFinite = true)
    (hle : low ≤ high) (hwidth : (high - low).isFinite = true) (word : UInt64) :
    low ≤ fraction word * (high - low) + low ∧ fraction word * (high - low) + low ≤ high := by
  obtain ⟨l, h, q, hl, hh, hq, hzero, hqle⟩ := exists_real_share hlow hhigh hle hwidth word
  have hlow' := isNaN_of_isFinite hlow
  have hshare : (fraction word * (high - low)).isNaN = false :=
    isNaN_mul_of_isFinite (real_fraction word).1 hwidth
  have hsum := isNaN_add (.inr hlow) hshare hlow'
  rw [le_iff_real_le hlow' hsum, le_iff_real_le hsum (isNaN_of_isFinite hhigh), real_add hsum]
  constructor
  · refine real_le_rounded ?_
    rw [hq, hl]
    exact_mod_cast (by linarith : l ≤ q + l)
  · refine rounded_le_real ?_
    rw [hq, hl, hh]
    exact_mod_cast (by linarith : q + l ≤ h)

variable {ρ : Type} [Generator ρ]

theorem always_unit : Always (fun u => 0.0 ≤ u ∧ u ≤ fraction 0xffffffffffffffff)
    (unit : StateM ρ Float) :=
  Always.bind_of_forall fun word => .pure (fraction_bounds word)

/-- **A number drawn between two ends lies between them**, and the draw fails only if their
distance is not finite. -/
theorem meets_closed (hlow : low.isFinite = true) (hhigh : high.isFinite = true)
    (hle : low ≤ high) : Meets (fun x => low ≤ x ∧ x ≤ high)
      (fun f => f = Fault.infiniteRange ∧ (high - low).isFinite = false)
      (closed low high : EStateM Fault ρ Float) := by
  rw [closed, if_pos hle, between]
  split_ifs with hwidth
  · refine Meets.bind (Q := fun _ => True) (.lift fun _ => trivial) fun word _ => .pure ?_
    exact between_bounds hlow hhigh hle hwidth word
  · exact .throw ⟨rfl, Bool.eq_false_iff.2 hwidth⟩

end Draw

end ParetoSearch
