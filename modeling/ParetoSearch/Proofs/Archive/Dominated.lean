import ParetoSearch.Proofs.Archive.History
import ParetoSearch.Proofs.Dominance.Corners

/-!
# Members that something offered dominates

Between boxes an archive never keeps a member that is worse, in the sense of Pareto
dominance, than a solution that passed the checks: the better solution stands in the same
box or in a better one, and no member's box is worse than that of something offered.
Inside a box only the computed distance from the corner counts, and two things follow
(`History.dominated_in_box`). Where the computed corner is below the objectives, the
better solution is not further from it, so that the distances are the same and the member
was the first; the squares of small differences are lost in rounding. Where the quotient
was rounded up to a whole number, or was out of range, the corner can be above the
objectives, and the nearest of them is not the best.
-/

namespace ParetoSearch.Archive

open Binary64

variable {D : Type} {A : Archive D} {s : Solution D} {passed : List (Solution D)}
  {p : BoxKey × Solution D}

theorem Accounts.comparable (h : A.Accounts passed) (hp : p ∈ A.members) (hs : s ∈ passed) :
    s.Comparable p.2 ∧ p.2.Comparable s :=
  ⟨(h.covers s hs).1.comparable (h.sound.fits p hp),
    (h.sound.fits p hp).comparable (h.covers s hs).1⟩

theorem Accounts.distance_le (h : A.Accounts passed) (hp : p ∈ A.members) (hs : s ∈ passed)
    (hle : A.epsilons.grade s ≤ A.epsilons.grade p.2) :
    A.epsilons.grade s = A.epsilons.grade p.2 ∧
      A.epsilons.distance p.2 ≤ A.epsilons.distance s := by
  obtain ⟨i, hchosen⟩ := ((h.summarizes p).1 hp).2
  have hnot := hchosen.not_lt s hs
  rw [Epsilons.standing_lt_iff, not_or, not_and] at hnot
  have heq := hle.eq_of_not_lt hnot.1
  have hdistance : ¬A.epsilons.distance s < A.epsilons.distance p.2 := hnot.2 heq
  exact ⟨heq, not_lt.1 hdistance⟩

/-- **Only a holder of its own box can be dominated**: if a solution that passed the checks is
better than a member, at the same violation and by Pareto dominance, it stands in the member's box
and is not closer to the corner. If no objective of it lies below the corner, the distances are
the same, and the member was offered first. -/
theorem History.dominated_in_box (h : History A passed) (hp : p ∈ A.members) (hs : s ∈ passed)
    (hviolation : (s.violation == p.2.violation) = true)
    (hleft : paretoComparison s p.2 = .ok .left) :
    A.boxKey s.objectives = p.1 ∧
    A.epsilons.cornerDistance p.1 p.2.objectives ≤ A.epsilons.cornerDistance p.1 s.objectives ∧
    (A.epsilons.AboveCorner p.1 s.objectives →
      (A.epsilons.cornerDistance p.1 s.objectives ==
        A.epsilons.cornerDistance p.1 p.2.objectives) = true ∧
      ∃ i : ℕ, passed[i]? = some p.2 ∧ ∀ j : ℕ, passed[j]? = some s → i < j) := by
  have h := h.accounts
  obtain ⟨hcomparable, hcomparable'⟩ := h.comparable hp hs
  have hplace := (Epsilons.violation_beq_iff hcomparable).1 hviolation
  have hobjectives := forall₂_le_of_paretoComparison hplace hleft
  obtain ⟨hgrade, hdistance⟩ := h.distance_le hp hs
    (Epsilons.grade_le_of_forall₂ hcomparable hplace hobjectives)
  have hkey : p.1 = A.boxKey p.2.objectives := h.sound.key_eq p hp
  have hkey' : A.epsilons.boxKey s.objectives = p.1 :=
    (Epsilons.grade_eq_iff.1 hgrade).2.trans hkey.symm
  refine ⟨hkey', (Epsilons.cornerDistance_le_iff hcomparable' hkey.symm hkey').2 hdistance, ?_⟩
  intro hcorner
  have hmono := Epsilons.cornerDistance_mono hobjectives hcomparable.2.1.1 hcomparable.2.2.1 hcorner
  have hdistance' := (Epsilons.cornerDistance_le_iff hcomparable hkey' hkey.symm).1 hmono
  have heq := le_antisymm hdistance' hdistance
  constructor
  · have hs' := A.epsilons.isNaN_cornerDistance p.1 hcomparable.2.1.1
    have hp' := A.epsilons.isNaN_cornerDistance p.1 hcomparable.2.2.1
    rw [beq_iff_place_eq hs' hp']
    rw [Epsilons.distance, Epsilons.distance, hkey', ← boxKey, ← hkey] at heq
    exact heq
  · obtain ⟨i, hchosen⟩ := ((h.summarizes p).1 hp).2
    refine ⟨i, hchosen.getElem?_eq, fun j hj => ?_⟩
    have hne : s ≠ p.2 := fun hsame => paretoComparison_self_ne_left p.2 (hsame ▸ hleft)
    rcases lt_trichotomy i j with hlt | rfl | hgt
    · exact hlt
    · exact absurd (Option.some.inj (hj.symm.trans hchosen.getElem?_eq)) hne
    · exact absurd (Epsilons.standing_le_iff.2 (.inr ⟨hgrade, heq.le⟩)) (hchosen.not_le j s hgt hj)

/-- The second of two solutions in one box is better in one objective, but by so little that the
distances are the same, and the first stays. -/
theorem not_forall_undominated : ¬∀ (A : Archive Unit) (passed : List (Solution Unit)),
    History A passed → ∀ p ∈ A.members, ∀ s ∈ passed,
      (s.violation == p.2.violation) = true → paretoComparison s p.2 ≠ .ok .left := by
  intro hall
  have h : History ((Operation.addAll [Solution.ofEvaluation () ⟨[0.5, 2e-9], []⟩,
      Solution.ofEvaluation () ⟨[0.5, 1e-9], []⟩]).run
        (Archive.ofEpsilons ⟨[1.0], by decide, by decide⟩)) _ := .run (.ofEpsilons _) _
  refine hall _ _ h (⟨[0, 0]⟩, Solution.ofEvaluation () ⟨[0.5, 2e-9], []⟩) (by decide +kernel)
    (Solution.ofEvaluation () ⟨[0.5, 1e-9], []⟩) (by decide +kernel) (by decide) (by decide +kernel)

/-- In that box the distances are the same, and the member was offered first. -/
theorem History.dominated_in_box_of_tie : ∃ (A : Archive Unit) (passed : List (Solution Unit))
    (p : BoxKey × Solution Unit) (s : Solution Unit), History A passed ∧ p ∈ A.members ∧
    s ∈ passed ∧ paretoComparison s p.2 = .ok .left ∧ A.epsilons.AboveCorner p.1 s.objectives ∧
    (A.epsilons.cornerDistance p.1 s.objectives ==
      A.epsilons.cornerDistance p.1 p.2.objectives) = true := by
  have h : History ((Operation.addAll [Solution.ofEvaluation () ⟨[0.5, 2e-9], []⟩,
      Solution.ofEvaluation () ⟨[0.5, 1e-9], []⟩]).run
        (Archive.ofEpsilons ⟨[1.0], by decide, by decide⟩)) _ := .run (.ofEpsilons _) _
  refine ⟨_, _, (⟨[0, 0]⟩, Solution.ofEvaluation () ⟨[0.5, 2e-9], []⟩),
    Solution.ofEvaluation () ⟨[0.5, 1e-9], []⟩, h, ?member, ?passed, ?better, ?corner,
    ((History.dominated_in_box h ?member ?passed ?violation ?better).2.2 ?corner).1⟩
  case member => decide +kernel
  case passed => decide +kernel
  case better => decide +kernel
  case corner => decide +kernel
  case violation => decide

end ParetoSearch.Archive
