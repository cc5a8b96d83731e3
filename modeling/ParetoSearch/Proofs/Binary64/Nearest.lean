import Mathlib

/-!
# Rounding real numbers to binary64

The operations on floats are specified by their exact results: a float comes out that is
nearest to the exact result, of two the even one, or an infinity where there is no finite
one. Here this rounding is a function on the reals with two infinities (`rounded`). It is
monotone (`rounded_mono`), it is symmetric about zero (`rounded_neg`), and it keeps what
has 53 digits already (`rounded_coe_eq_self`). These three facts are all that is needed
of it to compare the results of operations.

A magnitude is counted in units of its last place, which has the exponent `lastPlace`, and
the count is rounded to a whole number (`nearestEven`).
-/

namespace ParetoSearch.Binary64

/-! ### Rounding to whole numbers -/

/-- The integer nearest to a real number; of two the even one. -/
noncomputable def nearestEven (x : ℝ) : ℤ :=
  if Int.fract x < 1 / 2 then ⌊x⌋
  else if 1 / 2 < Int.fract x then ⌊x⌋ + 1
  else ⌊x⌋ + ⌊x⌋ % 2

theorem nearestEven_intCast (n : ℤ) : nearestEven n = n := by simp [nearestEven]

theorem nearestEven_bounds (x : ℝ) : ⌊x⌋ ≤ nearestEven x ∧ nearestEven x ≤ ⌊x⌋ + 1 := by
  unfold nearestEven
  split_ifs <;> omega

theorem nearestEven_mono : Monotone nearestEven := by
  intro x y hxy
  rcases (Int.floor_mono hxy).lt_or_eq with hlt | heq
  · have hx := (nearestEven_bounds x).2
    have hy := (nearestEven_bounds y).1
    omega
  · -- In one unit interval the fraction decides.
    have hfract : Int.fract x ≤ Int.fract y := by
      rw [Int.fract, Int.fract, heq]
      linarith
    unfold nearestEven
    rw [heq]
    split_ifs <;> first | omega | (exfalso; linarith)

theorem nearestEven_neg (x : ℝ) : nearestEven (-x) = -nearestEven x := by
  by_cases hx : Int.fract x = 0
  · obtain ⟨n, rfl⟩ := Int.fract_eq_zero_iff.1 hx
    rw [← Int.cast_neg, nearestEven_intCast, nearestEven_intCast]
  · have hfract := Int.fract_neg hx
    have hfloor : ⌊-x⌋ = -⌊x⌋ - 1 := by
      have h : ((⌊-x⌋ : ℤ) : ℝ) = ((-⌊x⌋ - 1 : ℤ) : ℝ) := by
        have hx' := Int.self_sub_fract x
        have hneg := Int.self_sub_fract (-x)
        push_cast
        linarith
      exact_mod_cast h
    unfold nearestEven
    rw [hfract, hfloor]
    split_ifs <;> first | omega | (exfalso; linarith)

theorem nearestEven_nonneg {x : ℝ} (h : 0 ≤ x) : 0 ≤ nearestEven x :=
  (Int.floor_nonneg.2 h).trans (nearestEven_bounds x).1

theorem nearestEven_le {x : ℝ} {n : ℤ} (h : x ≤ n) : nearestEven x ≤ n :=
  (nearestEven_mono h).trans (nearestEven_intCast n).le

theorem le_nearestEven {x : ℝ} {n : ℤ} (h : n ≤ x) : n ≤ nearestEven x :=
  (nearestEven_intCast n).ge.trans (nearestEven_mono h)

/-! ### Rounding to 53 digits -/

/-- The exponent of the last digit that is kept of a real number. -/
noncomputable def lastPlace (x : ℝ) : ℤ := max (Int.log 2 |x| - 52) (-1074)

/-- The number with at most 53 digits, none of them below the least exponent, that is nearest to
a real number. -/
noncomputable def nearest (x : ℝ) : ℝ := nearestEven (x / 2 ^ lastPlace x) * 2 ^ lastPlace x

variable {x y : ℝ} {k f : ℤ}

theorem two_zpow_pos (n : ℤ) : (0 : ℝ) < 2 ^ n := by positivity

theorem lastPlace_neg (x : ℝ) : lastPlace (-x) = lastPlace x := by
  rw [lastPlace, abs_neg, lastPlace]

theorem nearest_neg (x : ℝ) : nearest (-x) = -nearest x := by
  rw [nearest, lastPlace_neg, neg_div, nearestEven_neg, nearest]
  push_cast
  ring

theorem nearest_zero : nearest 0 = 0 := by
  have h := nearestEven_intCast 0
  rw [Int.cast_zero] at h
  rw [nearest, zero_div, h, Int.cast_zero, zero_mul]

theorem nearest_nonneg (h : 0 ≤ x) : 0 ≤ nearest x := by
  have hcount : (0 : ℝ) ≤ nearestEven (x / 2 ^ lastPlace x) := by
    exact_mod_cast nearestEven_nonneg (div_nonneg h (two_zpow_pos _).le)
  exact mul_nonneg hcount (two_zpow_pos _).le

/-- The last place of a smaller magnitude is not higher. -/
theorem lastPlace_mono (hx : 0 ≤ x) (hxy : x ≤ y) (hne : x ≠ 0) : lastPlace x ≤ lastPlace y := by
  have hpos : 0 < x := lt_of_le_of_ne hx hne.symm
  rw [lastPlace, lastPlace, abs_of_pos hpos, abs_of_pos (hpos.trans_le hxy)]
  have hlog := Int.log_mono_right (b := 2) hpos hxy
  omega

/-- Digits of which the last is in the last place or above fill whole units. -/
theorem exists_units (hf : lastPlace x ≤ f) :
    ∃ n : ℤ, (k * 2 ^ f : ℝ) / 2 ^ lastPlace x = n := by
  obtain ⟨d, hd⟩ := Int.eq_ofNat_of_zero_le (sub_nonneg.2 hf)
  refine ⟨k * 2 ^ d, ?_⟩
  rw [mul_div_assoc, ← zpow_sub₀ two_ne_zero, hd]
  push_cast
  rw [zpow_natCast]

/-- The digits of a magnitude that is not above 53 digits do not end below those. -/
theorem lastPlace_le (hx : 0 ≤ x) (hk : k < 2 ^ 53) (hf : -1074 ≤ f) (h : x ≤ k * 2 ^ f) :
    x = 0 ∨ lastPlace x ≤ f := by
  rcases hx.eq_or_lt with hzero | hpos
  · exact .inl hzero.symm
  · right
    have hk' : (k : ℝ) < 2 ^ (53 : ℤ) := by exact_mod_cast hk
    have hlt : x < 2 ^ (53 + f) := by
      rw [zpow_add₀ two_ne_zero]
      exact h.trans_lt (mul_lt_mul_of_pos_right hk' (two_zpow_pos f))
    have hlog := (Int.lt_zpow_iff_log_lt one_lt_two hpos).1 (by exact_mod_cast hlt)
    rw [lastPlace, abs_of_pos hpos]
    omega

/-- A magnitude is not rounded up beyond 53 digits. -/
theorem nearest_le (hx : 0 ≤ x) (hk : k < 2 ^ 53) (hf : -1074 ≤ f) (h : x ≤ k * 2 ^ f) :
    nearest x ≤ k * 2 ^ f := by
  rcases lastPlace_le hx hk hf h with rfl | hlast
  · rwa [nearest_zero]
  · obtain ⟨n, hn⟩ := exists_units (k := k) hlast
    have hle : x / 2 ^ lastPlace x ≤ n := by
      rw [← hn]
      exact div_le_div_of_nonneg_right h (two_zpow_pos _).le
    have hcount : (nearestEven (x / 2 ^ lastPlace x) : ℝ) ≤ n := by
      exact_mod_cast nearestEven_le hle
    calc nearest x ≤ n * 2 ^ lastPlace x := mul_le_mul_of_nonneg_right hcount (two_zpow_pos _).le
      _ = k * 2 ^ f := by rw [← hn, div_mul_cancel₀ _ (two_zpow_pos _).ne']

/-- A magnitude that fills 53 digits is not rounded down to fewer. -/
theorem zpow_le_nearest (hx : 0 < x) (h : -1074 < lastPlace x) :
    2 ^ (52 + lastPlace x) ≤ nearest x := by
  have hlog : Int.log 2 x = 52 + lastPlace x := by
    rw [lastPlace, abs_of_pos hx] at h ⊢
    omega
  have hle : (2 : ℝ) ^ (52 + lastPlace x) ≤ x := by
    rw [← hlog]
    exact_mod_cast Int.zpow_log_le_self one_lt_two hx
  rw [zpow_add₀ two_ne_zero] at hle ⊢
  have hunits : ((2 ^ 52 : ℤ) : ℝ) ≤ x / 2 ^ lastPlace x := by
    exact_mod_cast (le_div_iff₀ (two_zpow_pos _)).2 hle
  have hcount : (2 : ℝ) ^ (52 : ℤ) ≤ nearestEven (x / 2 ^ lastPlace x) := by
    exact_mod_cast le_nearestEven hunits
  exact mul_le_mul_of_nonneg_right hcount (two_zpow_pos _).le

theorem nearest_mono_of_nonneg (hx : 0 ≤ x) (hxy : x ≤ y) : nearest x ≤ nearest y := by
  rcases eq_or_ne x 0 with rfl | hne
  · rw [nearest_zero]
    exact nearest_nonneg hxy
  have hpos : 0 < x := lt_of_le_of_ne hx hne.symm
  rcases (lastPlace_mono hx hxy hne).lt_or_eq with hlt | heq
  · -- The lowest number with the higher last place lies between the two.
    have hlast : -1074 < lastPlace y := (le_max_right _ _).trans_lt hlt
    have hbelow : x < 2 ^ (52 + lastPlace y) := by
      have hlog : Int.log 2 x < 52 + lastPlace y := by
        rw [lastPlace, abs_of_pos hpos] at hlt
        omega
      exact_mod_cast (Int.lt_zpow_iff_log_lt one_lt_two hpos).2 hlog
    rw [zpow_add₀ two_ne_zero] at hbelow
    calc nearest x ≤ ((2 ^ 52 : ℤ) : ℝ) * 2 ^ lastPlace y :=
          nearest_le hx (by norm_num) hlast.le (by exact_mod_cast hbelow.le)
      _ = 2 ^ (52 + lastPlace y) := by
          rw [zpow_add₀ two_ne_zero]
          norm_cast
      _ ≤ nearest y := zpow_le_nearest (hpos.trans_le hxy) hlast
  · have hcount : (nearestEven (x / 2 ^ lastPlace x) : ℝ) ≤ nearestEven (y / 2 ^ lastPlace x) := by
      exact_mod_cast nearestEven_mono (div_le_div_of_nonneg_right hxy (two_zpow_pos _).le)
    rw [nearest, nearest, ← heq]
    exact mul_le_mul_of_nonneg_right hcount (two_zpow_pos _).le

/-- Rounding is monotone. -/
theorem nearest_mono : Monotone nearest := by
  intro x y hxy
  rcases le_total 0 x with hx | hx
  · exact nearest_mono_of_nonneg hx hxy
  rcases le_total 0 y with hy | hy
  · have hneg := nearest_nonneg (neg_nonneg.2 hx)
    rw [nearest_neg] at hneg
    exact (neg_nonneg.1 hneg).trans (nearest_nonneg hy)
  · have hneg := nearest_mono_of_nonneg (neg_nonneg.2 hy) (neg_le_neg hxy)
    rw [nearest_neg, nearest_neg] at hneg
    exact neg_le_neg_iff.1 hneg

/-- Rounding keeps what has no more than 53 digits. -/
theorem nearest_eq_self (hk : |k| < 2 ^ 53) (hf : -1074 ≤ f) :
    nearest (k * 2 ^ f) = k * 2 ^ f := by
  have hmagnitude : ((|k| : ℤ) : ℝ) * 2 ^ f = |(k : ℝ) * 2 ^ f| := by
    rw [abs_mul, abs_of_pos (two_zpow_pos f), Int.cast_abs]
  have hlast : |(k : ℝ) * 2 ^ f| = 0 ∨ lastPlace |(k : ℝ) * 2 ^ f| ≤ f :=
    lastPlace_le (abs_nonneg _) hk hf hmagnitude.ge
  have habs : lastPlace |(k : ℝ) * 2 ^ f| = lastPlace ((k : ℝ) * 2 ^ f) := by
    rw [lastPlace, abs_abs, lastPlace]
  rcases hlast with hzero | hlast
  · rw [abs_eq_zero.1 hzero, nearest_zero]
  · rw [habs] at hlast
    obtain ⟨n, hn⟩ := exists_units (k := k) hlast
    rw [nearest, hn, nearestEven_intCast, ← hn, div_mul_cancel₀ _ (two_zpow_pos _).ne']

/-- At most 53 digits are kept, or a one with zeros behind it. -/
theorem nearestEven_div_le (hx : 0 < x) : nearestEven (x / 2 ^ lastPlace x) ≤ 2 ^ 53 := by
  refine nearestEven_le ?_
  have hlog : x < 2 ^ (Int.log 2 x + 1) := by exact_mod_cast Int.lt_zpow_succ_log_self one_lt_two x
  have hlast : Int.log 2 x + 1 ≤ 53 + lastPlace x := by
    rw [lastPlace, abs_of_pos hx]
    omega
  rw [div_le_iff₀ (two_zpow_pos _)]
  calc x ≤ 2 ^ (53 + lastPlace x) := hlog.le.trans (zpow_le_zpow_right₀ one_le_two hlast)
    _ = ((2 ^ 53 : ℤ) : ℝ) * 2 ^ lastPlace x := by
        rw [zpow_add₀ two_ne_zero]
        norm_cast

/-- Whole multiples of the least number are kept if their last place is the least. -/
theorem nearest_eq_self_of_lastPlace {n : ℤ} (hn : x = n * 2 ^ (-1074 : ℤ))
    (h : lastPlace x = -1074) : nearest x = x := by
  rw [nearest, h, hn, mul_div_cancel_right₀ _ (two_zpow_pos _).ne', nearestEven_intCast]

/-- **A share of a rounded number is not above the number**, if the share is at most one less than
one in 52 digits: a last digit that was rounded up is lost again. -/
theorem nearest_mul_nearest_le {r : ℝ} {n : ℤ} (hx : 0 ≤ x) (hn : x = n * 2 ^ (-1074 : ℤ))
    (hr : 0 ≤ r) (hr' : r ≤ 1 - 2 ^ (-52 : ℤ)) : nearest (r * nearest x) ≤ x := by
  rcases hx.eq_or_lt with rfl | hpos
  · rw [nearest_zero, mul_zero, nearest_zero]
  rcases (le_max_right _ _ : -1074 ≤ lastPlace x).eq_or_lt with hlast | hlast
  · have hself := nearest_eq_self_of_lastPlace hn hlast.symm
    have hone : r ≤ 1 := hr'.trans (by linarith [two_zpow_pos (-52)])
    rw [hself]
    exact (nearest_mono (mul_le_of_le_one_left hx hone)).trans_eq hself
  · have hfull := zpow_le_nearest hpos hlast
    have hsize := nearestEven_div_le hpos
    have hup := (nearestEven_bounds (x / 2 ^ lastPlace x)).2
    rw [nearest] at hfull
    set e := lastPlace x
    set m := nearestEven (x / 2 ^ e)
    have hnearest : nearest x = m * 2 ^ e := rfl
    have hbelow : ((m - 1 : ℤ) : ℝ) * 2 ^ e ≤ x := by
      rw [← le_div_iff₀ (two_zpow_pos e)]
      exact le_trans (by exact_mod_cast (by omega : m - 1 ≤ ⌊x / 2 ^ e⌋)) (Int.floor_le _)
    have hdigits : (2 : ℝ) ^ (52 : ℤ) ≤ m := by
      rw [zpow_add₀ two_ne_zero] at hfull
      exact le_of_mul_le_mul_right hfull (two_zpow_pos e)
    have hunit : 1 ≤ 2 ^ (-52 : ℤ) * (m : ℝ) := by
      calc (1 : ℝ) = 2 ^ (-52 : ℤ) * 2 ^ (52 : ℤ) := by norm_num
        _ ≤ 2 ^ (-52 : ℤ) * m := mul_le_mul_of_nonneg_left hdigits (two_zpow_pos _).le
    have hshare : r * m ≤ ((m - 1 : ℤ) : ℝ) := by
      have hm : (0 : ℝ) ≤ m := (two_zpow_pos _).le.trans hdigits
      calc r * m ≤ (1 - 2 ^ (-52 : ℤ)) * m := mul_le_mul_of_nonneg_right hr' hm
        _ ≤ ((m - 1 : ℤ) : ℝ) := by push_cast; linarith
    rw [hnearest]
    refine le_trans (nearest_le ?_ (by omega) hlast.le ?_) hbelow
    · exact mul_nonneg hr (mul_nonneg ((two_zpow_pos _).le.trans hdigits) (two_zpow_pos e).le)
    · rw [← mul_assoc]
      exact mul_le_mul_of_nonneg_right hshare (two_zpow_pos e).le

/-! ### Overflow -/

/-- The least magnitude that is too large. -/
noncomputable def limit : ℝ := 2 ^ (1024 : ℤ)

theorem limit_pos : 0 < limit := two_zpow_pos _

/-- A number, or the infinity on its side if it is too large. -/
noncomputable def overflow (x : ℝ) : EReal :=
  if limit ≤ x then ⊤ else if x ≤ -limit then ⊥ else x

/-- The binary64 value that an exact result is rounded to. -/
noncomputable def rounded (x : EReal) : EReal :=
  if x = ⊤ then ⊤ else if x = ⊥ then ⊥ else overflow (nearest x.toReal)

theorem overflow_mono : Monotone overflow := by
  intro x y hxy
  unfold overflow
  split_ifs with hx hy hx' hy₂ hx'' hy₃ <;> first
    | exact le_top
    | exact bot_le
    | exact EReal.coe_le_coe_iff.2 hxy
    | (exfalso; linarith)

theorem overflow_eq_self (h : |x| < limit) : overflow x = x := by
  obtain ⟨hlow, hhigh⟩ := abs_lt.1 h
  rw [overflow, if_neg hhigh.not_ge, if_neg hlow.not_ge]

theorem overflow_eq_top (h : limit ≤ x) : overflow x = ⊤ := if_pos h

theorem overflow_neg (x : ℝ) : overflow (-x) = -overflow x := by
  have hpos := limit_pos
  unfold overflow
  split_ifs <;> first
    | rfl
    | exact EReal.coe_neg x
    | (exfalso; linarith)

@[simp] theorem rounded_top : rounded ⊤ = ⊤ := by simp [rounded]

@[simp] theorem rounded_bot : rounded ⊥ = ⊥ := by simp [rounded]

@[simp] theorem rounded_coe (x : ℝ) : rounded x = overflow (nearest x) := by simp [rounded]

/-- **Rounding is monotone**, with the infinities too. -/
theorem rounded_mono : Monotone rounded := by
  intro x y hxy
  induction x with
  | bot => simp
  | top => simp [top_le_iff.1 hxy]
  | coe x =>
    induction y with
    | bot => simp at hxy
    | top => simp
    | coe y =>
      rw [rounded_coe, rounded_coe]
      exact overflow_mono (nearest_mono (EReal.coe_le_coe_iff.1 hxy))

/-- **Rounding is symmetric about zero.** -/
theorem rounded_neg (x : EReal) : rounded (-x) = -rounded x := by
  induction x with
  | bot => simp
  | top => simp
  | coe x => rw [← EReal.coe_neg, rounded_coe, rounded_coe, nearest_neg, overflow_neg]

/-- 53 digits are not too large up to the greatest exponent. -/
theorem abs_lt_limit (hk : |k| < 2 ^ 53) (hf : f ≤ 971) : |(k * 2 ^ f : ℝ)| < limit := by
  have hk' : |(k : ℝ)| < 2 ^ (53 : ℤ) := by exact_mod_cast hk
  have hf' : (2 : ℝ) ^ f ≤ 2 ^ (971 : ℤ) := zpow_le_zpow_right₀ one_le_two hf
  have hlimit : limit = 2 ^ (53 : ℤ) * 2 ^ (971 : ℤ) := by
    rw [limit, ← zpow_add₀ two_ne_zero]
    norm_num
  rw [abs_mul, abs_of_pos (two_zpow_pos f), hlimit]
  exact mul_lt_mul hk' hf' (two_zpow_pos f) (two_zpow_pos _).le

/-- **Rounding keeps what binary64 can hold.** -/
theorem rounded_coe_eq_self (hk : |k| < 2 ^ 53) (hf : -1074 ≤ f) (hf' : f ≤ 971) :
    rounded ((k * 2 ^ f : ℝ)) = ((k * 2 ^ f : ℝ) : EReal) := by
  rw [rounded_coe, nearest_eq_self hk hf, overflow_eq_self (abs_lt_limit hk hf')]

theorem nearest_eq_of_rounded (h : rounded x = (y : EReal)) : nearest x = y := by
  rw [rounded_coe, overflow] at h
  split_ifs at h
  · exact absurd h.symm (EReal.coe_ne_top y)
  · exact absurd h.symm (EReal.coe_ne_bot y)
  · exact EReal.coe_eq_coe_iff.1 h

theorem rounded_zero : rounded 0 = 0 := by
  have h := rounded_coe_eq_self (k := 0) (f := 0) (by norm_num) (by norm_num) (by norm_num)
  simpa using h

theorem rounded_one : rounded 1 = 1 := by
  have h := rounded_coe_eq_self (k := 1) (f := 0) (by norm_num) (by norm_num) (by norm_num)
  simpa using h

end ParetoSearch.Binary64
