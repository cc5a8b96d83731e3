import ParetoSearch.Binary64
import Mathlib

/-!
# The order of binary64 values

A float that is a number has a place among the rationals with two infinities
(`place`), read off its bits by `decode`. Comparing two such floats is comparing
their places (`lt_iff_place_lt`, `le_iff_place_le`, `beq_iff_place_eq`), so `<`
is a strict weak order on them; the two zeros have one place.

The bits are taken apart twice: by `decode`, and by the unpacking that the
operations on floats are defined with. `decode_eq_ofUnpacked` says that they
agree, and `canonical_of_decode` that a magnitude has one exponent only, which
is why exponents may be compared first.
-/

namespace ParetoSearch.Binary64

open Float.Model Float.Model.UnpackedFloat

/-! ### Two ways to take the bits apart -/

/-- Whether a sign is minus. -/
def isNegative : Sign → Bool
  | .negative => true
  | .positive => false

/-- What an unpacked float stands for. -/
def Value.ofUnpacked : UnpackedFloat → Value
  | .notANumber => .nan
  | .infinity s => .infinite (isNegative s)
  | .zero s => .finite ⟨isNegative s, 0, -1074⟩
  | .finite s m e _ => .finite ⟨isNegative s, m, e⟩

theorem toNat_unpackMantissa (b : BitVec Format.binary64.numBits) :
    (unpackMantissa b).toNat = b.toNat % 0x10000000000000 := by
  simp [unpackMantissa, BitVec.extractLsb_toNat]

theorem toNat_unpackExponent (b : BitVec Format.binary64.numBits) :
    (unpackExponent b).toNat = b.toNat / 0x10000000000000 % 0x800 := by
  simp [unpackExponent, BitVec.extractLsb_toNat, Nat.shiftRight_eq_div_pow]

theorem isNegative_unpackSign (b : BitVec Format.binary64.numBits) :
    isNegative (Sign.ofBitVec (unpackSign b)) = (b.toNat / 0x8000000000000000 == 1) := by
  have hlt : b.toNat < 0x10000000000000000 := b.isLt
  have h : (unpackSign b).toNat = b.toNat / 0x8000000000000000 := by
    simp only [unpackSign, BitVec.toNat_cast, BitVec.extractLsb_toNat, Nat.shiftRight_eq_div_pow]
    omega
  unfold Sign.ofBitVec
  split
  · rename_i hb
    rw [hb] at h
    simp [isNegative, ← h]
  · rename_i hb
    have hne : (unpackSign b).toNat ≠ 0 := fun h' => hb (BitVec.eq_of_toNat_eq h')
    have hone : b.toNat / 0x8000000000000000 = 1 := by omega
    simp [isNegative, hone]

/-- The value read off the bits is that of the unpacked float. -/
theorem decode_eq_ofUnpacked (x : Float) : decode x = Value.ofUnpacked x.toModel.unpack := by
  set b : BitVec Format.binary64.numBits := x.toModel.toBits.toBitVec with hb
  have hx : x.toBits.toNat = b.toNat := rfl
  have hones : unpackExponent b = -1#_ ↔ (unpackExponent b).toNat = 0x7ff := BitVec.toNat_inj.symm
  have hzero : unpackExponent b = 0#_ ↔ (unpackExponent b).toNat = 0 := BitVec.toNat_inj.symm
  have hfraction : unpackMantissa b = 0#_ ↔ (unpackMantissa b).toNat = 0 := BitVec.toNat_inj.symm
  have happend : (1#1 ++ unpackMantissa b).toNat = 0x10000000000000 + (unpackMantissa b).toNat := by
    rw [BitVec.toNat_append, ← Nat.shiftLeft_add_eq_or_of_lt (unpackMantissa b).isLt]
    rfl
  unfold decode Float.Model.unpack UnpackedFloat.unpack
  simp only [← hb, hx, ← isNegative_unpackSign, ← toNat_unpackMantissa, ← toNat_unpackExponent,
    hones, hzero, hfraction]
  by_cases h₁ : (unpackExponent b).toNat = 0x7ff
  · by_cases h₂ : (unpackMantissa b).toNat = 0 <;> simp [h₁, h₂, Value.ofUnpacked]
  · by_cases h₂ : (unpackExponent b).toNat = 0
    · by_cases h₃ : (unpackMantissa b).toNat = 0
      · simp [h₂, h₃, Value.ofUnpacked]
      · simp [h₂, h₃, Value.ofUnpacked]
        decide
    · simp [h₁, h₂, Value.ofUnpacked, happend]
      decide

theorem isNaN_eq_false_iff {x : Float} : x.isNaN = false ↔ decode x ≠ .nan := by
  rw [decode_eq_ofUnpacked]
  change x.toModel.unpack.isNaN = false ↔ _
  cases x.toModel.unpack <;> simp [UnpackedFloat.isNaN, Value.ofUnpacked]

theorem isFinite_iff {x : Float} : x.isFinite = true ↔ ∃ n, decode x = .finite n := by
  rw [decode_eq_ofUnpacked]
  change x.toModel.unpack.isFinite = true ↔ _
  cases x.toModel.unpack <;> simp [UnpackedFloat.isFinite, Value.ofUnpacked]

/-- A finite value is a number. -/
theorem isNaN_of_isFinite {x : Float} (h : x.isFinite = true) : x.isNaN = false := by
  obtain ⟨n, hn⟩ := isFinite_iff.1 h
  exact isNaN_eq_false_iff.2 (by simp [hn])

/-! ### Numbers and their places -/

/-- Digits as the bits of a float give them: the exponent is the least one unless
the highest digit is set. -/
structure Scaled.Canonical (x : Scaled) : Prop where
  significand_lt : x.significand < 2 ^ 53
  exponent_ge : -1074 ≤ x.exponent
  normal_or : 2 ^ 52 ≤ x.significand ∨ x.exponent = -1074

theorem canonical_of_decode {x : Float} {n : Scaled} (h : decode x = .finite n) : n.Canonical := by
  simp only [decode] at h
  split_ifs at h <;> obtain rfl := Value.finite.inj h <;> constructor <;> simp <;> omega

/-- The number that a sign, digits and a power of two stand for. -/
def Scaled.number (x : Scaled) : ℚ := x.signed * (2 : ℚ) ^ x.exponent

/-- Where a value stands among the rationals and the two infinities. -/
def Value.place : Value → WithBot (WithTop ℚ)
  | .nan => ((0 : ℚ) : WithTop ℚ)
  | .infinite true => ⊥
  | .infinite false => ⊤
  | .finite x => (x.number : WithTop ℚ)

/-- Where a float stands. -/
def place (x : Float) : WithBot (WithTop ℚ) := (decode x).place

theorem Scaled.number_pos {m : ℕ} {e : ℤ} (hm : 0 < m) : 0 < Scaled.number ⟨false, m, e⟩ := by
  have hm' : (0 : ℚ) < m := by exact_mod_cast hm
  simp only [Scaled.number, Scaled.signed, Bool.false_eq_true, if_false, Int.cast_natCast]
  positivity

@[simp] theorem Scaled.number_true (m : ℕ) (e : ℤ) :
    Scaled.number ⟨true, m, e⟩ = -Scaled.number ⟨false, m, e⟩ := by
  simp [Scaled.number, Scaled.signed]

@[simp] theorem Scaled.number_zero (n : Bool) (e : ℤ) : Scaled.number ⟨n, 0, e⟩ = 0 := by
  simp [Scaled.number, Scaled.signed]

theorem number_lt_of_exponent_lt {m k : ℕ} {e f : ℤ} (hm : m < 2 ^ 53) (hk : 2 ^ 52 ≤ k)
    (h : e < f) : (m : ℚ) * 2 ^ e < k * 2 ^ f := by
  have hm' : (m : ℚ) < 2 ^ 53 := by exact_mod_cast hm
  have hk' : (2 : ℚ) ^ 52 ≤ k := by exact_mod_cast hk
  have hpos : (0 : ℚ) < 2 ^ e := by positivity
  calc (m : ℚ) * 2 ^ e < 2 ^ 53 * 2 ^ e := by gcongr
    _ = 2 ^ 52 * 2 ^ (e + 1) := by rw [zpow_add₀ two_ne_zero]; ring
    _ ≤ k * 2 ^ f := by gcongr; exacts [one_le_two, by omega]

/-- Canonical magnitudes are ordered by their exponents and then by their digits. -/
theorem compares_magnitude {m k : ℕ} {e f : ℤ} (ha : Scaled.Canonical ⟨false, m, e⟩)
    (hb : Scaled.Canonical ⟨false, k, f⟩) :
    ((compare e f).then (compare m k)).Compares (Scaled.number ⟨false, m, e⟩)
      (Scaled.number ⟨false, k, f⟩) := by
  have ha₁ := ha.exponent_ge
  have hb₁ := hb.exponent_ge
  simp only at ha₁ hb₁
  simp only [Scaled.number, Scaled.signed, Bool.false_eq_true, if_false, Int.cast_natCast]
  rcases lt_trichotomy e f with h | rfl | h
  · rw [compare_lt_iff_lt.2 h]
    exact number_lt_of_exponent_lt ha.significand_lt (hb.normal_or.resolve_right (by simp; omega)) h
  · rw [compare_eq_iff_eq.2 rfl, Ordering.eq_then]
    have hpos : (0 : ℚ) < 2 ^ e := by positivity
    have hmono : StrictMono fun i : ℕ => (i : ℚ) * 2 ^ e := fun i j hij =>
      mul_lt_mul_of_pos_right (by exact_mod_cast hij) hpos
    exact hmono.compares.2 ((compare_iff m k).1 rfl)
  · rw [compare_gt_iff_gt.2 h]
    exact number_lt_of_exponent_lt hb.significand_lt (ha.normal_or.resolve_right (by simp; omega)) h

/-! ### Comparing is comparing places -/

theorem compares_coe {a b : ℚ} {o : Ordering} (h : o.Compares a b) :
    o.Compares ((a : WithTop ℚ) : WithBot (WithTop ℚ)) ((b : WithTop ℚ) : WithBot (WithTop ℚ)) :=
  (WithBot.coe_strictMono.comp WithTop.coe_strictMono).compares.2 h

theorem coe_le_coe_iff {p q : ℚ} :
    ((p : WithTop ℚ) : WithBot (WithTop ℚ)) ≤ ((q : WithTop ℚ) : WithBot (WithTop ℚ)) ↔ p ≤ q :=
  WithBot.coe_le_coe.trans WithTop.coe_le_coe

theorem coe_lt_top (a : ℚ) : ((a : WithTop ℚ) : WithBot (WithTop ℚ)) < ⊤ :=
  WithBot.coe_lt_coe.2 (WithTop.coe_lt_top a)

/-- Comparing unpacked floats that are numbers, in canonical form, is comparing their places. -/
theorem exists_compares : ∀ {u v : UnpackedFloat}, u.isNaN = false → v.isNaN = false →
    (∀ n, Value.ofUnpacked u = .finite n → n.Canonical) →
    (∀ n, Value.ofUnpacked v = .finite n → n.Canonical) →
    ∃ o, u.compare v = some o ∧ o.Compares (Value.ofUnpacked u).place (Value.ofUnpacked v).place
  | .infinity .negative, .infinity .negative, _, _, _, _ => ⟨.eq, rfl, rfl⟩
  | .infinity .negative, .infinity .positive, _, _, _, _ => ⟨.lt, rfl, bot_lt_top⟩
  | .infinity .positive, .infinity .negative, _, _, _, _ => ⟨.gt, rfl, bot_lt_top⟩
  | .infinity .positive, .infinity .positive, _, _, _, _ => ⟨.eq, rfl, rfl⟩
  | .infinity .negative, .zero _, _, _, _, _ => ⟨.lt, rfl, WithBot.bot_lt_coe _⟩
  | .infinity .negative, .finite .., _, _, _, _ => ⟨.lt, rfl, WithBot.bot_lt_coe _⟩
  | .infinity .positive, .zero _, _, _, _, _ => ⟨.gt, rfl, coe_lt_top _⟩
  | .infinity .positive, .finite .., _, _, _, _ => ⟨.gt, rfl, coe_lt_top _⟩
  | .zero _, .infinity .negative, _, _, _, _ => ⟨.gt, rfl, WithBot.bot_lt_coe _⟩
  | .zero _, .infinity .positive, _, _, _, _ => ⟨.lt, rfl, coe_lt_top _⟩
  | .finite .., .infinity .negative, _, _, _, _ => ⟨.gt, rfl, WithBot.bot_lt_coe _⟩
  | .finite .., .infinity .positive, _, _, _, _ => ⟨.lt, rfl, coe_lt_top _⟩
  | .zero _, .zero _, _, _, _, _ => ⟨.eq, rfl, by simp [Value.ofUnpacked, Value.place]⟩
  | .zero _, .finite .negative _ e hm, _, _, _, _ =>
    ⟨.gt, rfl, compares_coe (o := .gt) (by simpa [isNegative] using Scaled.number_pos hm)⟩
  | .zero _, .finite .positive _ e hm, _, _, _, _ =>
    ⟨.lt, rfl, compares_coe (o := .lt) (by simpa [isNegative] using Scaled.number_pos hm)⟩
  | .finite .negative _ e hm, .zero _, _, _, _, _ =>
    ⟨.lt, rfl, compares_coe (o := .lt) (by simpa [isNegative] using Scaled.number_pos hm)⟩
  | .finite .positive _ e hm, .zero _, _, _, _, _ =>
    ⟨.gt, rfl, compares_coe (o := .gt) (by simpa [isNegative] using Scaled.number_pos hm)⟩
  | .finite .negative m e hm, .finite .positive k f hk, _, _, _, _ =>
    ⟨.lt, rfl, compares_coe (o := .lt) (by
      have := Scaled.number_pos (e := e) hm
      have := Scaled.number_pos (e := f) hk
      simp only [isNegative, Scaled.number_true, Ordering.Compares]
      linarith)⟩
  | .finite .positive m e hm, .finite .negative k f hk, _, _, _, _ =>
    ⟨.gt, rfl, compares_coe (o := .gt) (by
      have := Scaled.number_pos (e := e) hm
      have := Scaled.number_pos (e := f) hk
      simp only [isNegative, Scaled.number_true, Ordering.Compares]
      linarith)⟩
  | .finite .positive m e hm, .finite .positive k f hk, _, _, hu, hv =>
    ⟨_, rfl, compares_coe (compares_magnitude (hu _ rfl) (hv _ rfl))⟩
  | .finite .negative m e hm, .finite .negative k f hk, _, _, hu, hv => by
    obtain ⟨hu₁, hu₂, hu₃⟩ := hu _ rfl
    obtain ⟨hv₁, hv₂, hv₃⟩ := hv _ rfl
    have h := compares_magnitude ⟨hu₁, hu₂, hu₃⟩ ⟨hv₁, hv₂, hv₃⟩
    have hneg : StrictAnti fun q : ℚ => -q := fun _ _ => neg_lt_neg
    refine ⟨_, rfl, compares_coe ?_⟩
    simp only [isNegative, Scaled.number_true]
    exact Ordering.compares_swap.2 (hneg.compares.2 h)

/-- Two floats that are numbers compare as their places do. -/
theorem exists_compares_place {x y : Float} (hx : x.isNaN = false) (hy : y.isNaN = false) :
    ∃ o, x.toModel.unpack.compare y.toModel.unpack = some o ∧ o.Compares (place x) (place y) := by
  have h : ∀ z : Float, ∀ n, Value.ofUnpacked z.toModel.unpack = .finite n → n.Canonical :=
    fun z n hn => canonical_of_decode ((decode_eq_ofUnpacked z).trans hn)
  simpa only [place, decode_eq_ofUnpacked] using exists_compares hx hy (h x) (h y)

theorem lt_iff_place_lt {x y : Float} (hx : x.isNaN = false) (hy : y.isNaN = false) :
    x < y ↔ place x < place y := by
  obtain ⟨o, ho, hc⟩ := exists_compares_place hx hy
  have hlt : x < y ↔ x.toModel.unpack.compare y.toModel.unpack = some .lt := by
    change decide (x.toModel < y.toModel) = true ↔ _
    rw [decide_eq_true_iff]
    change (x.toModel.unpack.compare y.toModel.unpack == some .lt) = true ↔ _
    exact beq_iff_eq
  rw [hlt, ho, Option.some.injEq]
  exact hc.eq_lt

theorem le_iff_place_le {x y : Float} (hx : x.isNaN = false) (hy : y.isNaN = false) :
    x ≤ y ↔ place x ≤ place y := by
  obtain ⟨o, ho, hc⟩ := exists_compares_place hx hy
  have hle : x ≤ y ↔ (x.toModel.unpack.compare y.toModel.unpack).any (·.isLE) = true := by
    change decide (x.toModel ≤ y.toModel) = true ↔ _
    rw [decide_eq_true_iff]
    rfl
  rw [hle, ho, Option.any_some, ← not_lt, ← hc.eq_gt]
  cases o <;> decide

theorem beq_iff_place_eq {x y : Float} (hx : x.isNaN = false) (hy : y.isNaN = false) :
    (x == y) = true ↔ place x = place y := by
  obtain ⟨o, ho, hc⟩ := exists_compares_place hx hy
  have heq : (x == y) = true ↔ x.toModel.unpack.compare y.toModel.unpack = some .eq := by
    change (x.toModel.unpack.compare y.toModel.unpack == some .eq) = true ↔ _
    exact beq_iff_eq
  rw [heq, ho, Option.some.injEq]
  exact hc.eq_eq

/-- What is no number does not compare. -/
theorem isNaN_of_compare {u v : UnpackedFloat} {o : Ordering} (h : u.compare v = some o) :
    u.isNaN = false ∧ v.isNaN = false := by
  cases u <;> cases v <;> first | exact ⟨rfl, rfl⟩ | cases h

/-- Both sides of a comparison that holds are numbers. -/
theorem isNaN_of_le {x y : Float} (h : x ≤ y) : x.isNaN = false ∧ y.isNaN = false := by
  change decide (x.toModel ≤ y.toModel) = true at h
  rw [decide_eq_true_iff] at h
  change (x.toModel.unpack.compare y.toModel.unpack).any (·.isLE) = true at h
  obtain ⟨o, ho, -⟩ := (Option.any_eq_true _ _).1 h
  exact isNaN_of_compare ho

theorem isNaN_of_lt {x y : Float} (h : x < y) : x.isNaN = false ∧ y.isNaN = false := by
  change decide (x.toModel < y.toModel) = true at h
  rw [decide_eq_true_iff] at h
  change (x.toModel.unpack.compare y.toModel.unpack == some .lt) = true at h
  exact isNaN_of_compare (beq_iff_eq.1 h)

end ParetoSearch.Binary64
