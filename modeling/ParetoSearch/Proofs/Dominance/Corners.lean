import ParetoSearch.Proofs.Binary64.Monotone
import ParetoSearch.Proofs.Dominance.Boxes

/-!
# Pareto dominance, boxes and corners

What a solution that is better in the sense of Pareto dominance can expect of its box. All
objectives are at most those of the other one, and dividing by the widths and rounding
down keep that, so it stands in the same box or in a better one
(`Epsilons.grade_le_of_forall₂`).

In one box the distance from the computed corner decides. Where no objective lies below
that corner, the distance too is kept by all that is rounded on the way, so it is at most
that of the other one (`Epsilons.cornerDistance_mono`). An objective can lie below the
corner where the quotient was rounded up to a whole number, or is out of the range of
coordinates; from there the distance grows towards better objectives.
-/

namespace ParetoSearch

open Binary64

variable {D : Type} {ε : Epsilons} {key : BoxKey} {a b : List Float}

/-! ### Objectives -/

theorem forall₂_le_of_paretoComparison {s t : Solution D}
    (hviolation : place s.violation = place t.violation)
    (hleft : paretoComparison s t = .ok .left) :
    List.Forall₂ (· ≤ ·) s.objectives t.objectives := by
  obtain ⟨h, hlt⟩ := paretoComparison_eq_left_iff.1 hleft
  have hprofile : Dominance.profile (s.objectives.map place) ≤
      Dominance.profile (t.objectives.map place) := by
    rcases Prod.Lex.toLex_lt_toLex.1 hlt with hlt | ⟨-, hlt⟩
    · exact absurd hviolation hlt.ne
    · exact hlt.le
  refine List.forall₂_iff_get.2 ⟨h.1.1, fun i hi hi' => ?_⟩
  have hplace := hprofile i
  rw [Dominance.profile_of_lt (by simpa using hi), Dominance.profile_of_lt (by simpa using hi'),
    WithBot.coe_le_coe, List.getElem_map, List.getElem_map] at hplace
  have hs := List.all_eq_true.1 h.2.1.1 _ (List.getElem_mem hi)
  have ht := List.all_eq_true.1 h.2.2.1 _ (List.getElem_mem hi')
  exact (le_iff_place_le (isNaN_of_isFinite hs) (isNaN_of_isFinite ht)).2 hplace

/-! ### Boxes -/

theorem Epsilons.isFinite_get (ε : Epsilons) (i : ℕ) : (ε.get i).isFinite = true :=
  (Bool.and_eq_true_iff.1 (ε.isWidth_get i)).1

theorem Epsilons.get_pos (ε : Epsilons) (i : ℕ) : 0.0 < ε.get i :=
  of_decide_eq_true (Bool.and_eq_true_iff.1 (ε.isWidth_get i)).2

/-- A vector that is above another in no coordinate has its box above that one's in none. -/
theorem Epsilons.profile_boxKey_le (h : List.Forall₂ (· ≤ ·) a b)
    (ha : a.all Float.isFinite = true) (hb : b.all Float.isFinite = true) :
    Dominance.profile (ε.boxKey a).coordinates ≤ Dominance.profile (ε.boxKey b).coordinates := by
  obtain ⟨hlength, hle⟩ := List.forall₂_iff_get.1 h
  intro i
  rcases lt_or_ge i a.length with hi | hi
  · have hi' : i < b.length := hlength ▸ hi
    rw [Dominance.profile_of_lt (by simpa using hi), Dominance.profile_of_lt (by simpa using hi'),
      WithBot.coe_le_coe]
    simp only [boxKey, List.getElem_mapIdx]
    have hx := List.all_eq_true.1 ha _ (List.getElem_mem hi)
    have hy := List.all_eq_true.1 hb _ (List.getElem_mem hi')
    apply floorCoordinate_mono (isNaN_div (isNaN_of_isFinite hx) (ε.isFinite_get i) (ε.get_pos i))
      (isNaN_div (isNaN_of_isFinite hy) (ε.isFinite_get i) (ε.get_pos i))
    exact div_mono hx hy (ε.isFinite_get i) (ε.get_pos i) (hle i hi hi')
  · rw [Dominance.profile_of_le (by simpa using hi)]
    exact bot_le

theorem Epsilons.grade_le_of_forall₂ {s t : Solution D} (h : s.Comparable t)
    (hviolation : place s.violation = place t.violation)
    (hle : List.Forall₂ (· ≤ ·) s.objectives t.objectives) : ε.grade s ≤ ε.grade t :=
  Prod.Lex.toLex_le_toLex.2 (.inr ⟨hviolation, profile_boxKey_le hle h.2.1.1 h.2.2.1⟩)

/-! ### Corners -/

/-- The corner of a box in the direction of one objective, as it is computed. -/
def Epsilons.corner (ε : Epsilons) (i : ℕ) (k : ℤ) : Float := Float.ofInt k * ε.get i

/-- No objective lies below the corner of the box. -/
def Epsilons.AboveCorner (ε : Epsilons) (key : BoxKey) (v : List Float) : Prop :=
  ∀ (i : ℕ) (hi : i < v.length) (hk : i < key.coordinates.length),
    ε.corner i key.coordinates[i] ≤ v[i]

instance (ε : Epsilons) (key : BoxKey) (v : List Float) : Decidable (ε.AboveCorner key v) :=
  inferInstanceAs (Decidable (∀ (i : ℕ) (hi : i < v.length) (hk : i < key.coordinates.length),
    ε.corner i key.coordinates[i] ≤ v[i]))

theorem Epsilons.isNaN_corner (ε : Epsilons) (i : ℕ) (k : ℤ) : (ε.corner i k).isNaN = false :=
  isNaN_mul (isNaN_ofInt k) (ε.isFinite_get i) (ε.get_pos i)

/-- The squares of which the distance from a corner is made. -/
def Epsilons.squares (ε : Epsilons) (key : BoxKey) (v : List Float) : List Float :=
  (v.zip key.coordinates).mapIdx fun i (x, k) => (x - ε.corner i k) * (x - ε.corner i k)

theorem Epsilons.cornerDistance_eq (ε : Epsilons) (key : BoxKey) (v : List Float) :
    ε.cornerDistance key v = ((ε.squares key v).foldl (· + ·) (-0.0)).sqrt := rfl

/-- Above the corner smaller objectives have smaller squares. -/
theorem Epsilons.forall₂_squares (h : List.Forall₂ (· ≤ ·) a b)
    (ha : a.all Float.isFinite = true) (hb : b.all Float.isFinite = true)
    (hcorner : ε.AboveCorner key a) :
    List.Forall₂ (fun x y => 0.0 ≤ x ∧ y.isNaN = false ∧ x ≤ y) (ε.squares key a)
      (ε.squares key b) := by
  obtain ⟨hlength, hle⟩ := List.forall₂_iff_get.1 h
  refine List.forall₂_iff_get.2 ⟨by simp [squares, hlength], fun i hi hi' => ?_⟩
  obtain ⟨hia, hik⟩ : i < a.length ∧ i < key.coordinates.length := by simpa [squares] using hi
  have hib : i < b.length := hlength ▸ hia
  have hx := List.all_eq_true.1 ha _ (List.getElem_mem hia)
  have hy := List.all_eq_true.1 hb _ (List.getElem_mem hib)
  have hnumber := ε.isNaN_corner i key.coordinates[i]
  have hsize := zero_le_sub hx hnumber (hcorner i hia hik)
  simp only [squares, List.get_eq_getElem, List.getElem_mapIdx, List.getElem_zip]
  refine ⟨zero_le_mul_self (isNaN_of_zero_le hsize), ?_, ?_⟩
  · exact isNaN_of_zero_le (zero_le_mul_self (isNaN_sub hy hnumber))
  · exact mul_self_mono hsize (isNaN_sub hy hnumber) (sub_mono hx hy hnumber (hle i hia hib))

theorem foldl_add_mono {xs ys : List Float} {x y : Float} (hx : 0.0 ≤ x) (hy : y.isNaN = false)
    (hxy : x ≤ y) (h : List.Forall₂ (fun x y => 0.0 ≤ x ∧ y.isNaN = false ∧ x ≤ y) xs ys) :
    0.0 ≤ xs.foldl (· + ·) x ∧ (ys.foldl (· + ·) y).isNaN = false ∧
      xs.foldl (· + ·) x ≤ ys.foldl (· + ·) y := by
  induction h generalizing x y with
  | nil => exact ⟨hx, hy, hxy⟩
  | cons hfirst _ ih =>
    obtain ⟨hu, hv, huv⟩ := hfirst
    have hy' := float_le_trans hx hxy
    have hv' := float_le_trans hu huv
    exact ih (zero_le_add hx hu) (isNaN_of_zero_le (zero_le_add hy' hv'))
      (add_mono hx hu hy hv hxy huv)

/-- **Above the corner the distance follows the objectives.** -/
theorem Epsilons.cornerDistance_mono (h : List.Forall₂ (· ≤ ·) a b)
    (ha : a.all Float.isFinite = true) (hb : b.all Float.isFinite = true)
    (hcorner : ε.AboveCorner key a) : ε.cornerDistance key a ≤ ε.cornerDistance key b := by
  obtain ⟨hsize, hnumber, hle⟩ := foldl_add_mono (x := -0.0) (y := -0.0) (by decide) (by decide)
    (by decide) (forall₂_squares h ha hb hcorner)
  rw [cornerDistance_eq, cornerDistance_eq]
  exact sqrt_mono hsize hnumber hle

end ParetoSearch
