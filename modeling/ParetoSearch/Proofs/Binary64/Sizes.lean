import ParetoSearch.Proofs.Binary64.Order

/-!
# Sizes: sums, squares and roots that are numbers

A size is a float that is at least zero: positive, infinite upwards, or a zero of
either sign. Sizes of numbers, sums of sizes, squares and roots of sizes are
sizes again (`zero_le_abs`, `zero_le_add`, `zero_le_mul_self`, `zero_le_sqrt`),
however much is rounded and whatever overflows, so a sum of sizes is always a
number. With `isNaN_sub` and `isNaN_mul` this is all that is needed to see
that violations and distances to a corner can be compared. A finite size
divided by a size above zero is one too (`zero_le_div`), but a quotient of two
infinite ones is no number (`isNaN_div_of_not_finite`), and that is kept by
every sum (`isNaN_add_left`, `isNaN_add_right`).

Every operation unpacks, computes and packs again. Packing may overflow or lose
digits, but it keeps the sign and makes no NaN (`hasSign_repack`).
-/

namespace ParetoSearch.Binary64

open Float.Model Float.Model.UnpackedFloat

/-! ### What packing keeps -/

/-- The unpacked float is a number with the sign `s`. -/
def HasSign (s : Sign) : UnpackedFloat → Prop
  | .notANumber => False
  | .infinity t | .zero t | .finite t _ _ _ => t = s

theorem HasSign.isNaN {s : Sign} {u : UnpackedFloat} (h : HasSign s u) : u.isNaN = false := by
  cases u <;> simp_all [HasSign, UnpackedFloat.isNaN]

theorem exists_hasSign {u : UnpackedFloat} (h : u.isNaN = false) : ∃ s, HasSign s u := by
  cases u <;> simp_all [HasSign, UnpackedFloat.isNaN]

theorem hasSign_unpack_packComponents (s : Sign) {e : BitVec Format.binary64.exponentBits}
    {m : BitVec Format.binary64.mantissaBitsWithoutImplicit} (h : e = -1#_ → m = 0#_) :
    HasSign s (UnpackedFloat.unpack Format.binary64 (packComponents Format.binary64 s e m)) := by
  unfold UnpackedFloat.unpack
  simp only [unpackMantissa_packComponents, unpackExponent_packComponents,
    unpackSign_packComponents, Sign.ofBitVec_toBitVec]
  split_ifs <;> simp_all [HasSign]

/-- An unpacked float, packed and unpacked again. -/
def repack (u : UnpackedFloat) : UnpackedFloat := (Float.Model.pack u).unpack

theorem hasSign_repack {s : Sign} {u : UnpackedFloat} (h : HasSign s u) : HasSign s (repack u) := by
  change HasSign s (UnpackedFloat.unpack Format.binary64 (UnpackedFloat.pack Format.binary64 u))
  cases u with
  | notANumber => exact h.elim
  | infinity t =>
    obtain rfl : t = s := h
    exact hasSign_unpack_packComponents t fun _ => rfl
  | zero t =>
    obtain rfl : t = s := h
    exact hasSign_unpack_packComponents t fun _ => rfl
  | finite t m e hm =>
    obtain rfl : t = s := h
    unfold UnpackedFloat.pack
    simp only
    split_ifs with hbig
    · exact hasSign_unpack_packComponents t fun _ => rfl
    · refine hasSign_unpack_packComponents t fun hones => absurd (congrArg BitVec.toNat hones) ?_
      rw [BitVec.toNat_ofNat, Nat.mod_eq_of_lt (by omega)]
      change ¬_ = 0x7ff
      change ¬0x800 ≤ _ at hbig
      omega
    · exact hasSign_unpack_packComponents t fun hones => absurd hones (by decide)

/-! ### Sizes -/

/-- The unpacked float is at least zero. -/
def IsSize (u : UnpackedFloat) : Prop := HasSign .positive u ∨ u = .zero .negative

theorem isSize_repack {u : UnpackedFloat} (h : IsSize u) : IsSize (repack u) := by
  rcases h with h | rfl
  · exact .inl (hasSign_repack h)
  · exact .inr rfl

theorem zero_le_iff_isSize {x : Float} : 0.0 ≤ x ↔ IsSize x.toModel.unpack := by
  change decide ((0.0 : Float).toModel ≤ x.toModel) = true ↔ _
  rw [decide_eq_true_iff]
  change ((UnpackedFloat.zero .positive).compare x.toModel.unpack).any (·.isLE) = true ↔ _
  cases x.toModel.unpack with
  | notANumber => simp [UnpackedFloat.compare, IsSize, HasSign]
  | infinity t => cases t <;> simp [UnpackedFloat.compare, IsSize, HasSign]
  | zero t => cases t <;> simp [UnpackedFloat.compare, IsSize, HasSign]
  | finite t m e hm => cases t <;> simp [UnpackedFloat.compare, IsSize, HasSign]

/-- A size is a number. -/
theorem isNaN_of_zero_le {x : Float} (h : 0.0 ≤ x) : x.isNaN = false := by
  rcases zero_le_iff_isSize.1 h with h | h
  · exact h.isNaN
  · change x.toModel.unpack.isNaN = false
    rw [h]
    rfl

/-! ### Rounding keeps the sign -/

theorem hasSign_roundWithAccuracy (spec : Format) (s : Sign) (m : ℕ) (e : ℤ) (a : Accuracy) :
    HasSign s (roundWithAccuracy spec s m e a) := by
  simp only [roundWithAccuracy]
  split <;> rfl

theorem hasSign_round (spec : Format) (s : Sign) (m : ℕ) (e : ℤ) :
    HasSign s (UnpackedFloat.round spec s m e) :=
  hasSign_roundWithAccuracy ..

theorem isNaN_normalize (spec : Format) (m e : ℤ) (s : Sign) :
    (UnpackedFloat.normalize spec m e s).isNaN = false := by
  unfold UnpackedFloat.normalize
  split
  · exact (hasSign_round ..).isNaN
  · rfl
  · exact (hasSign_round ..).isNaN

theorem hasSign_normalize (spec : Format) {m : ℤ} (e : ℤ) (h : 0 ≤ m) :
    HasSign .positive (UnpackedFloat.normalize spec m e .positive) := by
  unfold UnpackedFloat.normalize
  split
  · rename_i hlt
    exact absurd (compare_lt_iff_lt.1 hlt) (by omega)
  · rfl
  · exact hasSign_round ..

/-! ### Operations on sizes -/

theorem zero_le_abs {x : Float} (h : x.isNaN = false) : 0.0 ≤ x.abs := by
  refine zero_le_iff_isSize.2 (isSize_repack (.inl ?_))
  change x.toModel.unpack.isNaN = false at h
  cases hx : x.toModel.unpack <;> simp_all [UnpackedFloat.isNaN, UnpackedFloat.abs, HasSign]

theorem isSize_add : ∀ {u v : UnpackedFloat}, IsSize u → IsSize v →
    IsSize (UnpackedFloat.add Format.binary64 u v)
  | .notANumber, _, hu, _ => by simp [IsSize, HasSign] at hu
  | _, .notANumber, _, hv => by simp [IsSize, HasSign] at hv
  | .infinity s, .infinity t, hu, hv => by
    obtain rfl : s = .positive := by simpa [IsSize, HasSign] using hu
    obtain rfl : t = .positive := by simpa [IsSize, HasSign] using hv
    exact .inl rfl
  | .infinity _, .zero _, hu, _ => hu
  | .infinity _, .finite _ _ _ _, hu, _ => hu
  | .zero _, .infinity _, _, hv => hv
  | .finite _ _ _ _, .infinity _, _, hv => hv
  | .zero s, .zero t, _, _ => by
    cases s <;> cases t <;> first | exact .inl rfl | exact .inr rfl
  | .zero _, .finite _ _ _ _, _, hv => hv
  | .finite _ _ _ _, .zero _, hu, _ => hu
  | .finite s m e _, .finite t k f _, hu, hv => by
    obtain rfl : s = .positive := by simpa [IsSize, HasSign] using hu
    obtain rfl : t = .positive := by simpa [IsSize, HasSign] using hv
    refine .inl (hasSign_normalize _ _ ?_)
    exact Int.add_nonneg (Int.natCast_nonneg _) (Int.natCast_nonneg _)

theorem zero_le_add {x y : Float} (hx : 0.0 ≤ x) (hy : 0.0 ≤ y) : 0.0 ≤ x + y :=
  zero_le_iff_isSize.2 <| isSize_repack <|
    isSize_add (zero_le_iff_isSize.1 hx) (zero_le_iff_isSize.1 hy)

/-- Infinity with a size added is infinity. -/
theorem infinity_add {x : Float} (h : 0.0 ≤ x) : infinity + x = infinity := by
  have hx := zero_le_iff_isSize.1 h
  have hunpack : infinity.toModel.unpack = .infinity .positive := by rfl
  change Float.ofModel (Float.Model.pack
    (UnpackedFloat.add Format.binary64 infinity.toModel.unpack x.toModel.unpack)) = infinity
  rw [hunpack]
  cases hu : x.toModel.unpack with
  | notANumber => simp [hu, IsSize, HasSign] at hx
  | infinity s =>
    obtain rfl : s = .positive := by simpa [hu, IsSize, HasSign] using hx
    rfl
  | zero s => rfl
  | finite s m e hm => rfl

theorem zero_le_mul_self {x : Float} (h : x.isNaN = false) : 0.0 ≤ x * x := by
  refine zero_le_iff_isSize.2 (isSize_repack (.inl ?_))
  change x.toModel.unpack.isNaN = false at h
  cases hx : x.toModel.unpack with
  | notANumber => simp [hx, UnpackedFloat.isNaN] at h
  | infinity t => cases t <;> rfl
  | zero t => cases t <;> rfl
  | finite t m e hm => cases t <;> exact hasSign_roundWithAccuracy ..

theorem zero_le_sqrt {x : Float} (h : 0.0 ≤ x) : 0.0 ≤ x.sqrt := by
  refine zero_le_iff_isSize.2 (isSize_repack ?_)
  rcases zero_le_iff_isSize.1 h with h | h
  · cases hx : x.toModel.unpack with
    | notANumber => simp [hx, HasSign] at h
    | infinity t => obtain rfl : t = .positive := by simpa [hx, HasSign] using h
                    exact .inl rfl
    | zero t => obtain rfl : t = .positive := by simpa [hx, HasSign] using h
                exact .inl rfl
    | finite t m e hm =>
      obtain rfl : t = .positive := by simpa [hx, HasSign] using h
      exact .inl (hasSign_roundWithAccuracy ..)
  · rw [h]
    exact .inr rfl

/-- A finite size divided by something above zero, which may be infinite, is a size. -/
theorem zero_le_div {x y : Float} (hx : 0.0 ≤ x) (hfinite : x.isFinite = true) (hy : 0.0 < y) :
    0.0 ≤ x / y := by
  change x.toModel.unpack.isFinite = true at hfinite
  change decide ((0.0 : Float).toModel < y.toModel) = true at hy
  rw [decide_eq_true_iff] at hy
  change ((UnpackedFloat.zero .positive).compare y.toModel.unpack == some .lt) = true at hy
  rw [zero_le_iff_isSize] at hx
  refine zero_le_iff_isSize.2 (isSize_repack (u := UnpackedFloat.div Format.binary64 _ _) ?_)
  cases hv : y.toModel.unpack with
  | notANumber | zero => simp [hv, UnpackedFloat.compare] at hy
  | infinity t =>
    cases hu : x.toModel.unpack with
    | notANumber | infinity => simp [hu, UnpackedFloat.isFinite] at hfinite
    | zero s => cases s <;> cases t <;> first | exact .inl rfl | exact .inr rfl
    | finite s m e hm => cases s <;> cases t <;> first | exact .inl rfl | exact .inr rfl
  | finite t k f hk =>
    obtain rfl : t = .positive := by
      cases t with
      | negative => simp [hv, UnpackedFloat.compare] at hy
      | positive => rfl
    cases hu : x.toModel.unpack with
    | notANumber | infinity => simp [hu, UnpackedFloat.isFinite] at hfinite
    | zero s => cases s <;> first | exact .inl rfl | exact .inr rfl
    | finite s m e hm =>
      obtain rfl : s = .positive := by simpa [hu, IsSize, HasSign] using hx
      exact .inl (hasSign_roundWithAccuracy ..)

/-! ### Operations that yield a number -/

theorem isNaN_repack {u : UnpackedFloat} (h : u.isNaN = false) : (repack u).isNaN = false := by
  obtain ⟨s, hs⟩ := exists_hasSign h
  exact (hasSign_repack hs).isNaN

theorem isNaN_unpackedAdd : ∀ {u w : UnpackedFloat}, u.isFinite = true ∨ w.isFinite = true →
    u.isNaN = false → w.isNaN = false → (UnpackedFloat.add Format.binary64 u w).isNaN = false
  | .notANumber, _, _, hu, _ => by cases hu
  | _, .notANumber, _, _, hw => by cases hw
  | .infinity _, .infinity _, h, _, _ => by rcases h with h | h <;> cases h
  | .infinity _, .zero _, _, _, _ => rfl
  | .infinity _, .finite .., _, _, _ => rfl
  | .zero _, .infinity _, _, _, _ => rfl
  | .zero s, .zero t, _, _, _ => by cases s <;> cases t <;> rfl
  | .zero _, .finite .., _, _, _ => rfl
  | .finite .., .infinity _, _, _, _ => rfl
  | .finite .., .zero _, _, _, _ => rfl
  | .finite .., .finite .., _, _, _ => isNaN_normalize ..

/-- A sum of numbers is a number if one of them is finite. -/
theorem isNaN_add {x y : Float} (h : x.isFinite = true ∨ y.isFinite = true)
    (hx : x.isNaN = false) (hy : y.isNaN = false) : (x + y).isNaN = false :=
  isNaN_repack (u := UnpackedFloat.add Format.binary64 _ _) (isNaN_unpackedAdd h hx hy)

/-- A difference is a sum. -/
theorem sub_eq_add_neg : ∀ u w : UnpackedFloat, UnpackedFloat.sub Format.binary64 u w =
    UnpackedFloat.add Format.binary64 u w.neg
  | .notANumber, _ => rfl
  | u, .notANumber => by cases u <;> rfl
  | .infinity s, w => by cases w <;> rfl
  | .zero s, w => by cases w <;> rfl
  | .finite s m e hm, .infinity t => rfl
  | .finite s m e hm, .zero t => rfl
  | .finite s m e hm, .finite t k f hk => by
    cases t
    · exact congrArg (fun n => UnpackedFloat.normalize Format.binary64 n (min e f) .positive)
        (sub_neg_eq_add (s.apply _) _)
    · rfl

theorem isNaN_unpackedNeg (u : UnpackedFloat) : u.neg.isNaN = u.isNaN := by
  cases u <;> rfl

theorem isFinite_unpackedNeg (u : UnpackedFloat) : u.neg.isFinite = u.isFinite := by
  cases u <;> rfl

theorem isNaN_neg {x : Float} (h : x.isNaN = false) : (-x).isNaN = false :=
  isNaN_repack (u := UnpackedFloat.neg _) ((isNaN_unpackedNeg _).trans h)

/-- A difference of numbers is a number if one of them is finite. -/
theorem isNaN_sub_of_isFinite {x y : Float} (h : x.isFinite = true ∨ y.isFinite = true)
    (hx : x.isNaN = false) (hy : y.isNaN = false) : (x - y).isNaN = false := by
  refine isNaN_repack (u := UnpackedFloat.sub Format.binary64 _ _) ?_
  rw [sub_eq_add_neg]
  exact isNaN_unpackedAdd (h.imp_right (isFinite_unpackedNeg _).trans) hx
    ((isNaN_unpackedNeg _).trans hy)

/-- A number taken from a finite value leaves a number. -/
theorem isNaN_sub {x y : Float} (hx : x.isFinite = true) (hy : y.isNaN = false) :
    (x - y).isNaN = false :=
  isNaN_sub_of_isFinite (.inl hx) (isNaN_of_isFinite hx) hy

/-- A number times a finite one that is not zero is a number. -/
theorem isNaN_mul {x y : Float} (hx : x.isNaN = false) (hy : y.isFinite = true)
    (hpos : 0.0 < y) : (x * y).isNaN = false := by
  change x.toModel.unpack.isNaN = false at hx
  change y.toModel.unpack.isFinite = true at hy
  have hzero : ∀ s, y.toModel.unpack ≠ .zero s := by
    intro s hs
    change decide ((0.0 : Float).toModel < y.toModel) = true at hpos
    rw [decide_eq_true_iff] at hpos
    change ((UnpackedFloat.zero .positive).compare y.toModel.unpack == some .lt) = true at hpos
    simp [hs, UnpackedFloat.compare] at hpos
  refine isNaN_repack (u := UnpackedFloat.mul Format.binary64 _ _) ?_
  cases hv : y.toModel.unpack with
  | notANumber | infinity => simp [hv, UnpackedFloat.isFinite] at hy
  | zero t => exact absurd hv (hzero t)
  | finite t k f hk =>
    cases hu : x.toModel.unpack with
    | notANumber => simp [hu, UnpackedFloat.isNaN] at hx
    | infinity | zero => rfl
    | finite => exact (hasSign_roundWithAccuracy ..).isNaN

theorem Sign.mul_comm (s t : Sign) : s * t = t * s := by
  cases s <;> cases t <;> rfl

/-- It does not matter which factor comes first, also where there is no number. -/
theorem float_mul_comm (x y : Float) : x * y = y * x := by
  have hunpacked : ∀ u w : UnpackedFloat,
      UnpackedFloat.mul Format.binary64 u w = UnpackedFloat.mul Format.binary64 w u := by
    intro u w
    cases u <;> cases w <;>
      simp [UnpackedFloat.mul, Sign.mul_comm, Nat.mul_comm, Int.add_comm]
  change Float.ofModel (Float.Model.pack (UnpackedFloat.mul Format.binary64 _ _)) =
    Float.ofModel (Float.Model.pack (UnpackedFloat.mul Format.binary64 _ _))
  rw [hunpacked]

/-- A product of finite values is a number. -/
theorem isNaN_mul_of_isFinite {x y : Float} (hx : x.isFinite = true) (hy : y.isFinite = true) :
    (x * y).isNaN = false := by
  change x.toModel.unpack.isFinite = true at hx
  change y.toModel.unpack.isFinite = true at hy
  refine isNaN_repack (u := UnpackedFloat.mul Format.binary64 _ _) ?_
  cases hu : x.toModel.unpack with
  | notANumber | infinity => simp [hu, UnpackedFloat.isFinite] at hx
  | zero s =>
    cases hv : y.toModel.unpack with
    | notANumber | infinity => simp [hv, UnpackedFloat.isFinite] at hy
    | zero | finite => rfl
  | finite s m e hm =>
    cases hv : y.toModel.unpack with
    | notANumber | infinity => simp [hv, UnpackedFloat.isFinite] at hy
    | zero => rfl
    | finite => exact (hasSign_roundWithAccuracy ..).isNaN

theorem isNaN_ofScientific (m : ℕ) (e : ℤ) :
    (UnpackedFloat.ofScientific Format.binary64 m e).isNaN = false := by
  unfold UnpackedFloat.ofScientific
  split_ifs
  · rfl
  · rfl
  · rfl
  · exact (hasSign_roundWithAccuracy ..).isNaN
  · exact (hasSign_roundWithAccuracy ..).isNaN

theorem isNaN_toFloat (n : UInt64) : n.toFloat.isNaN = false :=
  isNaN_repack (u := UnpackedFloat.ofUInt64 Format.binary64 n) (isNaN_normalize ..)

theorem isNaN_ofNat (n : ℕ) : (Float.ofNat n).isNaN = false := by
  change (Float.ofScientific n false 0).isNaN = false
  unfold Float.ofScientific
  simp only [Bool.false_eq_true, if_false]
  split
  · have hone : (Float.ofBits 0x3FF0000000000000).isFinite = true := by decide
    change (n.toUInt64.toFloat * Float.ofBits 0x3FF0000000000000).isNaN = false
    exact isNaN_mul (isNaN_toFloat _) hone (by decide)
  · exact isNaN_repack (isNaN_ofScientific ..)

theorem isNaN_ofInt : ∀ k : ℤ, (Float.ofInt k).isNaN = false
  | .ofNat n => isNaN_ofNat n
  | .negSucc n => isNaN_neg (isNaN_ofNat n.succ)

/-! ### Operations that yield no number -/

theorem isNaN_repack_of_isNaN {u : UnpackedFloat} (h : u.isNaN = true) :
    (repack u).isNaN = true := by
  cases u with
  | notANumber => rfl
  | infinity | zero | finite => cases h

/-- What is no number stays none when something is added. -/
theorem isNaN_add_left {x y : Float} (h : x.isNaN = true) : (x + y).isNaN = true := by
  change x.toModel.unpack.isNaN = true at h
  refine isNaN_repack_of_isNaN (u := UnpackedFloat.add Format.binary64 _ _) ?_
  cases hu : x.toModel.unpack with
  | notANumber => rfl
  | infinity | zero | finite => simp [hu, UnpackedFloat.isNaN] at h

/-- Adding what is no number leaves no number. -/
theorem isNaN_add_right {x y : Float} (h : y.isNaN = true) : (x + y).isNaN = true := by
  change y.toModel.unpack.isNaN = true at h
  refine isNaN_repack_of_isNaN (u := UnpackedFloat.add Format.binary64 _ _) ?_
  cases hv : y.toModel.unpack with
  | notANumber => cases x.toModel.unpack <;> rfl
  | infinity | zero | finite => simp [hv, UnpackedFloat.isNaN] at h

/-- A quotient of two values that are not finite is no number. -/
theorem isNaN_div_of_not_finite {x y : Float} (hx : x.isFinite = false) (hy : y.isFinite = false) :
    (x / y).isNaN = true := by
  change x.toModel.unpack.isFinite = false at hx
  change y.toModel.unpack.isFinite = false at hy
  refine isNaN_repack_of_isNaN (u := UnpackedFloat.div Format.binary64 _ _) ?_
  cases hu : x.toModel.unpack with
  | zero | finite => simp [hu, UnpackedFloat.isFinite] at hx
  | notANumber => rfl
  | infinity s =>
    cases hv : y.toModel.unpack with
    | zero | finite => simp [hv, UnpackedFloat.isFinite] at hy
    | notANumber | infinity => rfl

end ParetoSearch.Binary64
