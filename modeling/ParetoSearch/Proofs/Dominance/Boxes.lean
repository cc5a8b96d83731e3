import ParetoSearch.Proofs.Dominance.Grades

/-!
# Grades by boxes

What the grades by boxes say of single comparisons: solutions have one grade if they
have one violation and one box, in one box the violation decides, and solutions that
are not better than each other have one violation. The violations and the distances
from a corner compare as their places do.

The distance from the corner of the box refines the grade to a standing. Standings are
partially ordered; in one box they are totally ordered (`standing_lt_iff_not_le`).
-/

namespace ParetoSearch.Epsilons

open Binary64

variable {D : Type} {ε : Epsilons} {a b : Solution D}

/-- The place of the distance of a solution from the corner of its box. -/
def distance (ε : Epsilons) (s : Solution D) : WithBot (WithTop ℚ) :=
  place (ε.cornerDistance (ε.boxKey s.objectives) s.objectives)

/-- The grade of a solution, and behind it the distance from the corner of its box. -/
def standing (ε : Epsilons) (s : Solution D) :
    (WithBot (WithTop ℚ) ×ₗ (ℕ → WithBot ℤ)) ×ₗ WithBot (WithTop ℚ) :=
  toLex (ε.grade s, ε.distance s)

/-! ### Violations and boxes -/

theorem grade_eq_iff : ε.grade a = ε.grade b ↔
    place a.violation = place b.violation ∧ ε.boxKey a.objectives = ε.boxKey b.objectives := by
  simp only [grade, Solution.gradeBy, toLex_inj, Prod.mk.injEq, Dominance.profile_inj]
  exact and_congr_right fun _ => ⟨congrArg BoxKey.mk, congrArg BoxKey.coordinates⟩

/-- In one box the violations decide. -/
theorem grade_lt_iff (h : ε.boxKey a.objectives = ε.boxKey b.objectives) :
    ε.grade a < ε.grade b ↔ place a.violation < place b.violation := by
  simp [grade, Solution.gradeBy, Prod.Lex.toLex_lt_toLex, h]

theorem grade_lt_of_violation_lt (h : place a.violation < place b.violation) :
    ε.grade a < ε.grade b :=
  Prod.Lex.toLex_lt_toLex.2 (.inl h)

/-- Solutions that are not better than each other have one violation. -/
theorem violation_eq_of_not_grade_lt (hab : ¬ε.grade a < ε.grade b)
    (hba : ¬ε.grade b < ε.grade a) : place a.violation = place b.violation :=
  le_antisymm (not_lt.1 (mt grade_lt_of_violation_lt hba))
    (not_lt.1 (mt grade_lt_of_violation_lt hab))

/-! ### Standings -/

theorem standing_le_iff : ε.standing a ≤ ε.standing b ↔
    ε.grade a < ε.grade b ∨ ε.grade a = ε.grade b ∧ ε.distance a ≤ ε.distance b :=
  Prod.Lex.toLex_le_toLex

theorem standing_lt_iff : ε.standing a < ε.standing b ↔
    ε.grade a < ε.grade b ∨ ε.grade a = ε.grade b ∧ ε.distance a < ε.distance b :=
  Prod.Lex.toLex_lt_toLex

theorem grade_le_of_standing_le (h : ε.standing a ≤ ε.standing b) : ε.grade a ≤ ε.grade b := by
  rcases standing_le_iff.1 h with h | ⟨h, -⟩
  · exact h.le
  · exact h.le

/-- In one box the violation decides and then the distance. -/
theorem standing_lt_iff_of_boxKey_eq (h : ε.boxKey a.objectives = ε.boxKey b.objectives) :
    ε.standing a < ε.standing b ↔ place a.violation < place b.violation ∨
      place a.violation = place b.violation ∧ ε.distance a < ε.distance b := by
  rw [standing_lt_iff, grade_lt_iff h, grade_eq_iff, and_iff_left h]

/-- In one box all standings can be compared. -/
theorem standing_lt_iff_not_le (h : ε.boxKey a.objectives = ε.boxKey b.objectives) :
    ε.standing a < ε.standing b ↔ ¬ε.standing b ≤ ε.standing a := by
  refine ⟨not_le_of_gt, fun hnot => ?_⟩
  rw [standing_le_iff, grade_lt_iff h.symm, grade_eq_iff, and_iff_left h.symm, not_or, not_and,
    not_lt] at hnot
  obtain ⟨hle, hdistance⟩ := hnot
  rw [standing_lt_iff_of_boxKey_eq h]
  exact hle.lt_or_eq.imp_right fun heq => ⟨heq, not_le.1 (hdistance heq.symm)⟩

/-! ### Comparisons -/

theorem comparison_eq_left_iff (h : a.Comparable b) :
    ε.comparison a b = .ok .left ↔ ε.grade a < ε.grade b :=
  ε.comparison_goesBy.eq_left_iff.trans (and_iff_right h)

theorem comparison_eq_neither_iff (h : a.Comparable b) :
    ε.comparison a b = .ok .neither ↔ ¬ε.grade a < ε.grade b ∧ ¬ε.grade b < ε.grade a := by
  classical
  rw [ε.comparison_eq_ok h, Except.ok.injEq, Dominance.ofValues_eq_neither_iff]

theorem violation_beq_iff (h : a.Comparable b) :
    (a.violation == b.violation) = true ↔ place a.violation = place b.violation :=
  beq_iff_place_eq (Solution.isNaN_violation h.2.1) (Solution.isNaN_violation h.2.2)

theorem violation_lt_iff (h : a.Comparable b) :
    a.violation < b.violation ↔ place a.violation < place b.violation :=
  lt_iff_place_lt (Solution.isNaN_violation h.2.1) (Solution.isNaN_violation h.2.2)

variable {key : BoxKey}

theorem cornerDistance_lt_iff (h : a.Comparable b) (ha : ε.boxKey a.objectives = key)
    (hb : ε.boxKey b.objectives = key) :
    ε.cornerDistance key a.objectives < ε.cornerDistance key b.objectives ↔
      ε.distance a < ε.distance b := by
  rw [distance, distance, ha, hb]
  exact lt_iff_place_lt (ε.isNaN_cornerDistance _ h.2.1.1) (ε.isNaN_cornerDistance _ h.2.2.1)

theorem cornerDistance_le_iff (h : a.Comparable b) (ha : ε.boxKey a.objectives = key)
    (hb : ε.boxKey b.objectives = key) :
    ε.cornerDistance key a.objectives ≤ ε.cornerDistance key b.objectives ↔
      ε.distance a ≤ ε.distance b := by
  rw [distance, distance, ha, hb]
  exact le_iff_place_le (ε.isNaN_cornerDistance _ h.2.1.1) (ε.isNaN_cornerDistance _ h.2.2.1)

end ParetoSearch.Epsilons
