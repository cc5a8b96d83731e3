import ParetoSearch.Proofs.Binary64.Nearest
import ParetoSearch.Proofs.Binary64.Rounding

/-!
# Floats as real numbers

A float that is a number stands for a real number or an infinity (`real`), and compares
as that does. The operations work on digits: they drop some, remember in two bits what
was dropped (`Marks`), round, and pack what is left. All of this together is the rounding
of the exact result (`realOf_repack_roundWithAccuracy`).
-/

namespace ParetoSearch.Binary64

open Float.Model Float.Model.UnpackedFloat

/-! ### What a float stands for -/

/-- The real number or infinity that a value stands for. -/
noncomputable def Value.real : Value → EReal
  | .nan => 0
  | .infinite true => ⊥
  | .infinite false => ⊤
  | .finite x => ((x.number : ℝ) : EReal)

/-- The real number or infinity that a float stands for. -/
noncomputable def real (x : Float) : EReal := (decode x).real

/-- The rationals with two infinities among the reals with two infinities. -/
noncomputable def embed : WithBot (WithTop ℚ) → EReal :=
  WithBot.map (WithTop.map (Rat.cast : ℚ → ℝ))

theorem embed_strictMono : StrictMono embed :=
  (Rat.cast_strictMono (K := ℝ)).withTop_map.withBot_map

theorem embed_place (x : Float) : embed (place x) = real x := by
  rw [place, real]
  rcases decode x with _ | (_ | _) | n
  · exact congrArg (fun r : ℝ => (r : EReal)) Rat.cast_zero
  · rfl
  · rfl
  · rfl

variable {x y : Float}

theorem le_iff_real_le (hx : x.isNaN = false) (hy : y.isNaN = false) :
    x ≤ y ↔ real x ≤ real y := by
  rw [le_iff_place_le hx hy, ← embed_place, ← embed_place, embed_strictMono.le_iff_le]

theorem lt_iff_real_lt (hx : x.isNaN = false) (hy : y.isNaN = false) :
    x < y ↔ real x < real y := by
  rw [lt_iff_place_lt hx hy, ← embed_place, ← embed_place, embed_strictMono.lt_iff_lt]

theorem place_eq_iff_real_eq : place x = place y ↔ real x = real y := by
  rw [← embed_place, ← embed_place, embed_strictMono.injective.eq_iff]

/-- What an unpacked float stands for. -/
noncomputable def realOf (u : UnpackedFloat) : EReal := (Value.ofUnpacked u).real

theorem real_eq_realOf (x : Float) : real x = realOf x.toModel.unpack := by
  rw [real, decode_eq_ofUnpacked, realOf]

/-- A magnitude with a sign. -/
def signed : Sign → ℝ → ℝ
  | .negative, v => -v
  | .positive, v => v

theorem realOf_zero (s : Sign) : realOf (.zero s) = 0 := by
  simp [realOf, Value.ofUnpacked, Value.real]

theorem realOf_finite (s : Sign) {m : ℕ} {e : ℤ} (hm : 0 < m) :
    realOf (.finite s m e hm) = (signed s (m * 2 ^ e) : ℝ) := by
  cases s <;> simp [realOf, Value.ofUnpacked, Value.real, isNegative, signed, Scaled.number,
    Scaled.signed]

/-! ### Digits that stand for a number -/

/-- The digits are those of the number before the point, and the two bits tell what is behind it:
whether it is at least a half, and whether it is anything else than nothing or a half. -/
structure Marks (em : ExtendedMantissa) (v : ℝ) : Prop where
  le : em.mantissa ≤ v
  lt : v < em.mantissa + 1
  round_iff : em.roundBit = true ↔ em.mantissa + 1 / 2 ≤ v
  sticky_iff : em.stickyBit = true ↔ v ≠ em.mantissa ∧ v ≠ em.mantissa + 1 / 2

variable {em : ExtendedMantissa} {v : ℝ}

/-- The two bits together tell whether the number is whole. -/
theorem Marks.or_iff (h : Marks em v) :
    (em.roundBit || em.stickyBit) = true ↔ v ≠ em.mantissa := by
  rw [Bool.or_eq_true, h.round_iff, h.sticky_iff]
  constructor
  · rintro (hround | ⟨hne, -⟩)
    · linarith
    · exact hne
  · intro hne
    by_cases hhalf : v = em.mantissa + 1 / 2
    · exact .inl hhalf.ge
    · exact .inr ⟨hne, hhalf⟩

/-- Dropping a digit is halving the number. -/
theorem Marks.shiftRightOne (h : Marks em v) : Marks em.shiftRightOne (v / 2) := by
  have hwhole := h.or_iff
  obtain ⟨hle, hlt, -, -⟩ := h
  obtain ⟨m, round, sticky⟩ := em
  simp only [ExtendedMantissa.shiftRightOne] at *
  obtain ⟨q, rfl | rfl⟩ := m.even_or_odd'
  · have hq : 2 * q / 2 = q := by omega
    push_cast at hle hlt hwhole
    constructor <;> simp only [hq, Nat.mul_mod_right]
    · linarith
    · linarith
    · simp only [bne_self_eq_false, Bool.false_eq_true, false_iff]
      linarith
    · rw [hwhole]
      constructor
      · intro hne
        exact ⟨fun heq => hne (by linarith), by linarith⟩
      · rintro ⟨hne, -⟩ heq
        exact hne (by linarith)
  · have hq : (2 * q + 1) / 2 = q := by omega
    have hlast : (2 * q + 1) % 2 = 1 := by omega
    push_cast at hle hlt hwhole
    constructor <;> simp only [hq, hlast]
    · linarith
    · linarith
    · simp only [Nat.one_ne_zero, bne_iff_ne, ne_eq, not_false_iff, true_iff]
      linarith
    · rw [hwhole]
      constructor
      · intro hne
        exact ⟨by linarith, fun heq => hne (by linarith)⟩
      · rintro ⟨-, hne⟩ heq
        exact hne (by linarith)

/-- Dropping digits is dividing by a power of two. -/
theorem Marks.shiftRight (h : Marks em v) (k : ℕ) : Marks (em >>> k) (v / 2 ^ k) := by
  induction k with
  | zero =>
    rw [pow_zero, div_one]
    exact h
  | succ k ih =>
    rw [pow_succ, div_mul_eq_div_div]
    exact ih.shiftRightOne

/-- The two bits decide to which side the number is rounded. -/
theorem Marks.roundedMantissa_eq (h : Marks em v) :
    (em.roundedMantissa : ℤ) = nearestEven v := by
  obtain ⟨hle, hlt, hround, hsticky⟩ := h
  obtain ⟨m, round, sticky⟩ := em
  simp only at hle hlt hround hsticky
  have hfloor : ⌊v⌋ = m := Int.floor_eq_iff.2 ⟨by exact_mod_cast hle, by exact_mod_cast hlt⟩
  have hfract : Int.fract v = v - m := by rw [Int.fract, hfloor, Int.cast_natCast]
  rw [nearestEven, hfract, hfloor]
  cases round with
  | false =>
    have hbelow : v - m < 1 / 2 := by
      have := mt hround.2 Bool.false_ne_true
      linarith
    rw [if_pos hbelow]
    cases sticky <;> rfl
  | true =>
    have habove := hround.1 rfl
    rw [if_neg (by linarith)]
    cases sticky with
    | false =>
      have hhalf : v = m + 1 / 2 := by
        by_contra hne
        exact Bool.false_ne_true (hsticky.2 ⟨by linarith, hne⟩)
      rw [if_neg (by linarith)]
      exact Nat.cast_add m (m % 2)
    | true =>
      have hne := (hsticky.1 rfl).2
      rw [if_pos (lt_of_le_of_ne (by linarith) fun heq => hne (by linarith))]
      exact Nat.cast_succ m

/-! ### Rounding digits is rounding the number -/

variable {a : Accuracy} {m : ℕ} {e : ℤ}

/-- The last digit that is kept has the last place of the number. -/
theorem lastPlace_eq_target (hle : m ≤ v) (hlt : v < m + 1) (hpos : 0 < v)
    (hm : 0 < m ∨ e ≤ -1074) : lastPlace (v * 2 ^ e) = target m e := by
  have hnumber : 0 < v * 2 ^ e := mul_pos hpos (two_zpow_pos e)
  rw [lastPlace, target, abs_of_pos hnumber]
  rcases Nat.eq_zero_or_pos m with rfl | hm'
  · -- Below one there are no digits, and the least exponent is the last place.
    have hlow : v * 2 ^ e < 2 ^ e := by
      rw [Nat.cast_zero, zero_add] at hlt
      exact mul_lt_of_lt_one_left (two_zpow_pos e) hlt
    have hlog := (Int.lt_zpow_iff_log_lt one_lt_two hnumber).1 (by exact_mod_cast hlow)
    have he := hm.resolve_left (lt_irrefl 0)
    rw [Nat.log2_zero]
    omega
  · have hhigh : m + 1 ≤ 2 ^ (m.log2 + 1) := Nat.lt_log2_self
    have hbelow : v * 2 ^ e < 2 ^ ((m.log2 : ℤ) + 1 + e) := by
      rw [zpow_add₀ two_ne_zero]
      refine mul_lt_mul_of_pos_right (hlt.trans_le ?_) (two_zpow_pos e)
      exact_mod_cast hhigh
    have habove : (2 : ℝ) ^ ((m.log2 : ℤ) + e) ≤ v * 2 ^ e := by
      rw [zpow_add₀ two_ne_zero, zpow_natCast]
      refine mul_le_mul_of_nonneg_right (le_trans ?_ hle) (two_zpow_pos e).le
      exact_mod_cast Nat.log2_self_le hm'.ne'
    have hlog := (Int.lt_zpow_iff_log_lt one_lt_two hnumber).1 (by exact_mod_cast hbelow)
    have hlog' := (Int.zpow_le_iff_le_log one_lt_two hnumber).1 (by exact_mod_cast habove)
    omega

/-- The digits that are kept, rounded, are those of the nearest number. -/
theorem nearest_eq_keptOf (h : Marks (ExtendedMantissa.ofMantissaAndAccuracy m a) v)
    (he : e ≤ target m e) (hm : 0 < m ∨ e ≤ -1074) :
    nearest (v * 2 ^ e) = keptOf a m e * 2 ^ target m e := by
  have hkept := (h.shiftRight (target m e - e).toNat).roundedMantissa_eq
  have hle := h.le
  have hlt := h.lt
  rw [mantissa_ofMantissaAndAccuracy] at hle hlt
  have hkept' : (keptOf a m e : ℝ) = nearestEven (v / 2 ^ (target m e - e).toNat) := by
    rw [keptOf, ← hkept, Int.cast_natCast]
  rcases (m.cast_nonneg.trans hle).eq_or_lt with rfl | hpos
  · rw [hkept', zero_mul, nearest_zero, zero_div, ← Int.cast_zero (R := ℝ), nearestEven_intCast,
      Int.cast_zero, zero_mul]
  · have hshift : ((2 : ℝ) ^ (target m e - e).toNat) = 2 ^ (target m e - e) := by
      rw [← zpow_natCast, Int.toNat_of_nonneg (sub_nonneg.2 he)]
    rw [nearest, lastPlace_eq_target hle hlt hpos hm, hkept', hshift, zpow_sub₀ two_ne_zero,
      div_div_eq_mul_div]

/-! ### Packing -/

@[simp] theorem repack_notANumber : repack .notANumber = .notANumber := rfl

@[simp] theorem repack_infinity (s : Sign) : repack (.infinity s) = .infinity s := by
  cases s <;> rfl

@[simp] theorem repack_zero (s : Sign) : repack (.zero s) = .zero s := by
  cases s <;> rfl

/-- Packing makes infinities of what is too large. -/
theorem repack_overflow (s : Sign) (hm : 0 < m) (he : 971 < e) :
    repack (.finite s m e hm) = .infinity s := by
  have hbiased : (e + (Format.binary64.exponentBias : ℤ) + (52 : ℕ)).toNat = (e + 1075).toNat := by
    rw [show Format.binary64.exponentBias = 1023 from rfl]
    omega
  change UnpackedFloat.unpack Format.binary64 (UnpackedFloat.pack Format.binary64 _) = _
  simp only [UnpackedFloat.pack, hbiased]
  rw [if_pos (by norm_num; omega)]
  cases s <;> rfl

theorem realOf_infinity (s : Sign) (h : limit ≤ v) :
    realOf (.infinity s) = overflow (signed s v) := by
  cases s with
  | negative =>
    rw [signed, overflow_neg, overflow_eq_top h]
    rfl
  | positive => exact (overflow_eq_top h).symm

theorem overflow_signed_eq_self (s : Sign) (h : |v| < limit) :
    overflow (signed s v) = (signed s v : ℝ) := by
  cases s with
  | negative => exact overflow_eq_self (by rwa [signed, abs_neg])
  | positive => exact overflow_eq_self h

/-- Packing keeps digits in canonical form, unless the number is too large. -/
theorem realOf_repack_finite (s : Sign) (hm : 0 < m) (hlt : m < 2 ^ 53) (hge : -1074 ≤ e)
    (hnormal : 2 ^ 52 ≤ m ∨ e = -1074) :
    realOf (repack (.finite s m e hm)) = overflow (signed s (m * 2 ^ e)) := by
  rcases le_or_gt e 971 with he | he
  · have hsize : |(m : ℝ) * 2 ^ e| < limit := by
      exact_mod_cast abs_lt_limit (k := m) (by exact_mod_cast hlt) he
    rw [repack_finite s hm hlt hge he hnormal, realOf_finite, overflow_signed_eq_self s hsize]
  · have hbig := hnormal.resolve_right (by omega)
    have hsize : limit ≤ m * 2 ^ e := by
      have hm' : (2 : ℝ) ^ (52 : ℤ) ≤ m := by exact_mod_cast hbig
      have he' : (2 : ℝ) ^ (972 : ℤ) ≤ 2 ^ e := zpow_le_zpow_right₀ one_le_two he
      have hlimit : limit = 2 ^ (52 : ℤ) * 2 ^ (972 : ℤ) := by
        rw [limit, ← zpow_add₀ two_ne_zero]
        norm_num
      rw [hlimit]
      exact mul_le_mul hm' he' (two_zpow_pos _).le m.cast_nonneg
    rw [repack_overflow s hm he, realOf_infinity s hsize]

theorem nearest_signed (s : Sign) (v : ℝ) : nearest (signed s v) = signed s (nearest v) := by
  cases s with
  | negative => exact nearest_neg v
  | positive => rfl

/-- **Rounding digits rounds the number** that they stand for with their accuracy. -/
theorem realOf_repack_roundWithAccuracy (s : Sign)
    (h : Marks (ExtendedMantissa.ofMantissaAndAccuracy m a) v) (he : e ≤ target m e)
    (hm : 0 < m ∨ e ≤ -1074) :
    realOf (repack (roundWithAccuracy Format.binary64 s m e a)) =
      rounded (signed s (v * 2 ^ e) : ℝ) := by
  have hmin : -1074 ≤ target m e := le_max_right _ _
  have hnormal : 2 ^ 52 ≤ keptOf a m e ∨ target m e = -1074 := by
    rcases hm with hm | hm
    · exact le_keptOf_or hm he
    · rcases Nat.eq_zero_or_pos m with rfl | hm'
      · right
        rw [target, Nat.log2_zero]
        omega
      · exact le_keptOf_or hm' he
  rw [rounded_coe, nearest_signed, nearest_eq_keptOf h he hm, roundWithAccuracy_eq s he]
  split_ifs with hzero hlt
  · rw [repack_zero, realOf_zero, hzero, Nat.cast_zero, zero_mul,
      overflow_signed_eq_self s (by simpa using limit_pos)]
    cases s <;> simp [signed]
  · exact realOf_repack_finite s _ hlt hmin hnormal
  · have heq : keptOf a m e = 2 ^ 53 := le_antisymm keptOf_le (not_lt.1 hlt)
    rw [realOf_repack_finite s _ (by norm_num) (by omega) (.inl le_rfl), heq,
      zpow_add₀ two_ne_zero]
    congr 2
    push_cast
    ring

end ParetoSearch.Binary64
