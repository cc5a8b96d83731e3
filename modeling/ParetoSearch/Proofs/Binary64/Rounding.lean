import ParetoSearch.Proofs.Binary64.Sizes

/-!
# Digits that are kept

The exact result of an operation is digits times a power of two, of which the lower
digits are dropped and the rest is rounded. At most 53 digits are kept, counted in units
of the last place (`keptOf_le`, `le_keptOf_or`), and where rounding carries into a new
digit the exponent moves (`roundWithAccuracy_eq`). Packing does nothing to digits in this
form (`repack_finite`).
-/

namespace ParetoSearch.Binary64

open Float.Model Float.Model.UnpackedFloat

/-! ### Dropping digits -/

theorem mantissa_shiftRight (em : ExtendedMantissa) (k : ℕ) :
    (em >>> k).mantissa = em.mantissa / 2 ^ k := by
  induction k with
  | zero => exact (Nat.div_one _).symm
  | succ k ih =>
    change (em >>> k).mantissa / 2 = _
    rw [ih, Nat.div_div_eq_div_mul, pow_succ]

theorem roundedMantissa_bounds (em : ExtendedMantissa) :
    em.mantissa ≤ em.roundedMantissa ∧ em.roundedMantissa ≤ em.mantissa + 1 := by
  obtain ⟨m, round, sticky⟩ := em
  cases round <;> cases sticky <;>
    simp only [ExtendedMantissa.roundedMantissa, ExtendedMantissa.accuracy,
      Accuracy.roundToNearestEven] <;> omega

/-! ### Rounding to 53 digits -/

/-- The exponent of the last digit that is kept. -/
def target (m : ℕ) (e : ℤ) : ℤ := max ((m.log2 : ℤ) + e - 52) (-1074)

theorem targetExponent_eq (m : ℕ) (e : ℤ) :
    Format.binary64.targetExponent (totalExponent m e) = target m e := by
  simp only [Format.targetExponent, totalExponent, Format.mantissaBits, Format.minExponent, target]
  omega

/-- The digits that are kept, rounded. The accuracy tells what was dropped before. -/
def keptOf (a : Accuracy) (m : ℕ) (e : ℤ) : ℕ :=
  (ExtendedMantissa.ofMantissaAndAccuracy m a >>> (target m e - e).toNat).roundedMantissa

variable {a : Accuracy} {m : ℕ} {e : ℤ}

theorem mantissa_ofMantissaAndAccuracy (m : ℕ) (a : Accuracy) :
    (ExtendedMantissa.ofMantissaAndAccuracy m a).mantissa = m := by
  rcases a with _ | o
  · rfl
  · cases o <;> rfl

theorem shiftToTargetExponent_eq (a : Accuracy) (m : ℕ) (e : ℤ) :
    shiftToTargetExponent Format.binary64 m e a =
      (ExtendedMantissa.ofMantissaAndAccuracy m a >>> (target m e - e).toNat,
        e + (target m e - e).toNat) := by
  rw [shiftToTargetExponent, targetExponent_eq]
  rfl

theorem log2_le_of_lt (h : m < 2 ^ 53) : m.log2 ≤ 52 := by
  rcases Nat.eq_zero_or_pos m with rfl | hm
  · simp
  · exact Nat.le_of_lt_succ ((Nat.log2_lt hm.ne').2 h)

/-- At most 53 digits are kept, or a one with zeros behind it. -/
theorem keptOf_le : keptOf a m e ≤ 2 ^ 53 := by
  have hm : m < 2 ^ (m.log2 + 1) := Nat.lt_log2_self
  have hquotient : m / 2 ^ (target m e - e).toNat < 2 ^ 53 := by
    rw [Nat.div_lt_iff_lt_mul (by positivity), ← pow_add]
    refine hm.trans_le (Nat.pow_le_pow_right two_pos ?_)
    unfold target
    omega
  refine (roundedMantissa_bounds _).2.trans ?_
  rw [mantissa_shiftRight, mantissa_ofMantissaAndAccuracy]
  exact hquotient

/-- The first digit is kept, unless the exponent is the least one. -/
theorem le_keptOf_or (hm : 0 < m) (he : e ≤ target m e) :
    2 ^ 52 ≤ keptOf a m e ∨ target m e = -1074 := by
  refine or_iff_not_imp_right.2 fun hne => ?_
  have hshift : m.log2 = 52 + (target m e - e).toNat := by
    unfold target at he hne ⊢
    omega
  refine le_trans ?_ (roundedMantissa_bounds _).1
  rw [mantissa_shiftRight, mantissa_ofMantissaAndAccuracy]
  refine (Nat.le_div_iff_mul_le (by positivity)).2 ?_
  rw [← pow_add, ← hshift]
  exact Nat.log2_self_le hm.ne'

/-- What is rounded has the digits that are kept; a carry into a new digit moves the exponent. -/
theorem roundWithAccuracy_eq (s : Sign) (he : e ≤ target m e) :
    roundWithAccuracy Format.binary64 s m e a =
      if h : keptOf a m e = 0 then .zero s
      else if keptOf a m e < 2 ^ 53 then
        .finite s (keptOf a m e) (target m e) (Nat.pos_of_ne_zero h)
      else .finite s (2 ^ 52) (target m e + 1) (by decide) := by
  have hfirst : e + ((target m e - e).toNat : ℤ) = target m e := by omega
  have hmin : -1074 ≤ target m e := le_max_right _ _
  unfold roundWithAccuracy
  simp only [shiftToTargetExponent_eq, hfirst, ← keptOf.eq_def]
  by_cases hlt : keptOf a m e < 2 ^ 53
  · have hlog := log2_le_of_lt hlt
    have hshift : (target (keptOf a m e) (target m e) - target m e).toNat = 0 := by
      rw [target]
      omega
    simp only [hshift, hlt, if_true, Nat.cast_zero, add_zero]
    rfl
  · have hkept : keptOf a m e = 2 ^ 53 := le_antisymm keptOf_le (not_lt.1 hlt)
    have hshift : (target (2 ^ 53) (target m e) - target m e).toNat = 1 := by
      rw [target, Nat.log2_two_pow]
      omega
    simp only [hkept, hshift]
    rfl

/-! ### Packing canonical digits -/

/-- Packing keeps digits of which the first is set. -/
theorem repack_normal (s : Sign) (hm : 0 < m) (hbig : 2 ^ 52 ≤ m) (hlt : m < 2 ^ 53)
    (hge : -1074 ≤ e) (hle : e ≤ 971) : repack (.finite s m e hm) = .finite s m e hm := by
  have hlog : m.log2 + 1 = Format.binary64.mantissaBits := by
    rw [(Nat.log2_eq_iff hm.ne').2 ⟨hbig, hlt⟩]
    rfl
  have hbiased : (e + (Format.binary64.exponentBias : ℤ) + (52 : ℕ)).toNat = (e + 1075).toNat := by
    rw [show Format.binary64.exponentBias = 1023 from rfl]
    omega
  have hexponent : (BitVec.ofNat 11 (e + 1075).toNat).toNat = (e + 1075).toNat := by
    rw [BitVec.toNat_ofNat]
    omega
  have hones : BitVec.ofNat 11 (e + 1075).toNat ≠ -1#_ := by
    intro h
    have : (e + 1075).toNat = 0x7ff := hexponent.symm.trans (congrArg BitVec.toNat h)
    omega
  have hzero : BitVec.ofNat 11 (e + 1075).toNat ≠ 0#_ := by
    intro h
    have : (e + 1075).toNat = 0 := hexponent.symm.trans (congrArg BitVec.toNat h)
    omega
  have hdigits : (1#1 ++ BitVec.ofNat 52 m).toNat = m := by
    rw [BitVec.toNat_append, ← Nat.shiftLeft_add_eq_or_of_lt (BitVec.isLt _), BitVec.toNat_ofNat]
    change 0x10000000000000 + m % 0x10000000000000 = m
    omega
  change UnpackedFloat.unpack Format.binary64 (UnpackedFloat.pack Format.binary64 _) = _
  simp only [UnpackedFloat.pack, hbiased]
  rw [if_neg (by norm_num; omega), if_pos hlog]
  simp only [UnpackedFloat.unpack, unpackMantissa_packComponents, unpackExponent_packComponents,
    unpackSign_packComponents, Sign.ofBitVec_toBitVec, if_neg hones, if_neg hzero, hexponent,
    hdigits]
  congr 1
  rw [show Format.binary64.exponentBias = 1023 from rfl]
  omega

/-- Packing keeps fewer digits, at the least exponent. -/
theorem repack_subnormal (s : Sign) (hm : 0 < m) (hlt : m < 2 ^ 52) :
    repack (.finite s m (-1074) hm) = .finite s m (-1074) hm := by
  have hlog : ¬m.log2 + 1 = Format.binary64.mantissaBits := by
    have := (Nat.log2_lt hm.ne').2 hlt
    change ¬m.log2 + 1 = 53
    omega
  have hdigits : (BitVec.ofNat 52 m).toNat = m := by
    rw [BitVec.toNat_ofNat]
    omega
  have hne : BitVec.ofNat 52 m ≠ 0#_ := by
    intro h
    exact hm.ne' (hdigits.symm.trans (congrArg BitVec.toNat h))
  change UnpackedFloat.unpack Format.binary64 (UnpackedFloat.pack Format.binary64 _) = _
  simp only [UnpackedFloat.pack]
  rw [if_neg (by decide), if_neg hlog]
  simp only [UnpackedFloat.unpack, unpackMantissa_packComponents, unpackExponent_packComponents,
    unpackSign_packComponents, Sign.ofBitVec_toBitVec, hdigits, dif_neg hne]
  rfl

theorem repack_finite (s : Sign) (hm : 0 < m) (hlt : m < 2 ^ 53) (hge : -1074 ≤ e) (hle : e ≤ 971)
    (hnormal : 2 ^ 52 ≤ m ∨ e = -1074) : repack (.finite s m e hm) = .finite s m e hm := by
  by_cases hbig : 2 ^ 52 ≤ m
  · exact repack_normal s hm hbig hlt hge hle
  · obtain rfl := hnormal.resolve_left hbig
    exact repack_subnormal s hm (not_le.1 hbig)

/-! ### Digits of products -/

/-- The digits of a product reach below those that are kept, if they are canonical. -/
theorem add_le_target {k : ℕ} {f : ℤ} (hm : 0 < m) (hk : 0 < k)
    (hnormal : 2 ^ 52 ≤ m ∨ e = -1074) (hnormal' : 2 ^ 52 ≤ k ∨ f = -1074) :
    e + f ≤ target (m * k) (e + f) := by
  have hlog : 52 ≤ (m * k).log2 ∨ e = -1074 ∧ f = -1074 := by
    have hne : m * k ≠ 0 := (Nat.mul_pos hm hk).ne'
    rcases hnormal with hbig | he
    · exact .inl ((Nat.le_log2 hne).2 (hbig.trans (Nat.le_mul_of_pos_right m hk)))
    rcases hnormal' with hbig | hf
    · exact .inl ((Nat.le_log2 hne).2 (hbig.trans (Nat.le_mul_of_pos_left k hm)))
    · exact .inr ⟨he, hf⟩
  unfold target
  omega

theorem log2_mul_two_pow {n : ℕ} (hn : 0 < n) (k : ℕ) : (n * 2 ^ k).log2 = n.log2 + k := by
  have hpos : 0 < 2 ^ k := by positivity
  rw [Nat.log2_eq_iff (Nat.mul_pos hn hpos).ne', Nat.add_right_comm, pow_add, pow_add _ (_ + 1)]
  exact ⟨Nat.mul_le_mul_right _ (Nat.log2_self_le hn.ne'),
    Nat.mul_lt_mul_of_pos_right Nat.lt_log2_self hpos⟩

end ParetoSearch.Binary64
