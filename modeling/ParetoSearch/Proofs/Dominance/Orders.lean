import ParetoSearch.Proofs.Dominance.Corners

/-!
# Strict orders and how they agree

What sorting and the archive rely on when they compare solutions. Being better is a
strict partial order for Pareto dominance and for dominance of boxes, on the solutions
of one shape with finite values (`isStrictOrder_on_fits`). Steps that violations decide
and steps that objectives decide may follow each other in any order, since both are
steps down in one grade. Where values are missing or not finite the comparison fails,
and it does so in both orders.

The two orders agree: what is better in the sense of Pareto dominance is better by boxes,
or it shares the box with the other one (`Epsilons.comparison_of_paretoComparison`).
The converse does not hold, a better box can hold a solution that is worse in some
objective.
-/

namespace ParetoSearch

open Binary64

variable {D β : Type}

/-! ### Strict orders -/

/-- Being better is a strict partial order on the solutions with a property, on which the
comparison succeeds. Elsewhere it fails for two solutions in both orders or in none. -/
structure Comparison.IsStrictOrder (compare : Comparison D) (P : Solution D → Prop) : Prop where
  self_eq : ∀ {s}, P s → compare s s = .ok .neither
  swap_eq : ∀ {s t}, P s → P t → ∃ d, compare s t = .ok d ∧ compare t s = .ok d.flip
  trans : ∀ {s t u}, compare s t = .ok .left → compare t u = .ok .left → compare s u = .ok .left
  fails_comm : ∀ {s t}, (∃ e, compare s t = .error e) ↔ ∃ e, compare t s = .error e

namespace Comparison.GoesBy

variable [Preorder β] {compare : Comparison D} {grade : Solution D → β} {s t u : Solution D}

theorem trans (h : compare.GoesBy grade) (hst : compare s t = .ok .left)
    (htu : compare t u = .ok .left) : compare s u = .ok .left := by
  obtain ⟨hst, hlt⟩ := h.eq_left_iff.1 hst
  obtain ⟨htu, hlt'⟩ := h.eq_left_iff.1 htu
  exact h.eq_left_iff.2 ⟨hst.trans htu, hlt.trans hlt'⟩

theorem swap_eq (h : compare.GoesBy grade) (hst : s.Comparable t) :
    ∃ d, compare s t = .ok d ∧ compare t s = .ok d.flip := by
  classical
  refine ⟨_, h.eq_ok hst, ?_⟩
  rw [h.eq_ok hst.symm, Dominance.ofValues_swap]

theorem eq_error_iff (h : compare.GoesBy grade) :
    (∃ e, compare s t = .error e) ↔ ¬s.Comparable t := by
  constructor
  · rintro ⟨e, he⟩ hst
    rw [h.eq_ok hst] at he
    cases he
  · intro hst
    cases hverdict : compare s t with
    | error e => exact ⟨e, rfl⟩
    | ok d => exact absurd (h.comparable hverdict) hst

/-- **A comparison by grades is a strict order**, whatever goes into the grades. -/
theorem isStrictOrder (h : compare.GoesBy grade) {P : Solution D → Prop}
    (hP : ∀ {s t}, P s → P t → s.Comparable t) : compare.IsStrictOrder P where
  self_eq hs := by
    classical
    rw [h.eq_ok (hP hs hs), Dominance.ofValues_eq_neither_iff.2 ⟨lt_irrefl _, lt_irrefl _⟩]
  swap_eq hs ht := h.swap_eq (hP hs ht)
  trans := h.trans
  fails_comm {s t} := by
    rw [h.eq_error_iff, h.eq_error_iff]
    exact not_congr ⟨.symm, .symm⟩

end Comparison.GoesBy

/-- **Being better is a strict partial order**, by Pareto dominance and by dominance of boxes, on
all solutions that fit together, whether violations decide or objectives. -/
theorem isStrictOrder_on_fits {compare : Comparison D} (m c : ℕ)
    (hcompare : compare = paretoComparison ∨ ∃ ε : Epsilons, compare = ε.comparison) :
    compare.IsStrictOrder (Solution.Fits m c) := by
  rcases hcompare with rfl | ⟨ε, rfl⟩
  · exact paretoComparison_goesBy.isStrictOrder fun hs ht => hs.comparable ht
  · exact ε.comparison_goesBy.isStrictOrder fun hs ht => hs.comparable ht

/-- Of two steps the violations decide the first, against the objectives, and the boxes decide the
second. -/
theorem isStrictOrder_on_fits_of_mixed_steps : ∃ (ε : Epsilons) (s t u : Solution Unit),
    s.Fits 2 1 ∧ t.Fits 2 1 ∧ u.Fits 2 1 ∧
      s.violation < t.violation ∧ t.violation = u.violation ∧
      ε.comparison.IsStrictOrder (D := Unit) (Solution.Fits 2 1) ∧
      ε.comparison s u = .ok .left ∧ ε.comparison u s = .ok .right := by
  let ε : Epsilons := ⟨[0.5], by simp, by decide⟩
  let s := Solution.ofEvaluation () ⟨[9.0, 1.0], [0.0]⟩
  let t := Solution.ofEvaluation () ⟨[1.0, 2.0], [0.5]⟩
  let u := Solution.ofEvaluation () ⟨[1.0, 3.0], [-0.5]⟩
  have hs : s.Fits 2 1 := ⟨rfl, rfl, by decide, by decide⟩
  have ht : t.Fits 2 1 := ⟨rfl, rfl, by decide, by decide⟩
  have hu : u.Fits 2 1 := ⟨rfl, rfl, by decide, by decide⟩
  have h : ε.comparison.IsStrictOrder (D := Unit) (Solution.Fits 2 1) :=
    isStrictOrder_on_fits 2 1 (.inr ⟨ε, rfl⟩)
  have hsu : ε.comparison s u = .ok .left :=
    h.trans (t := t) (by decide +kernel) (by decide +kernel)
  obtain ⟨d, hd, hflip⟩ := h.swap_eq hs hu
  obtain rfl : d = .left := by simpa [hsu] using hd.symm
  exact ⟨ε, s, t, u, hs, ht, hu, by decide, by decide, h, hsu, hflip⟩

/-! ### The coarse order and the fine one -/

/-- **The order by boxes never contradicts Pareto dominance**: it has the same verdict, or an open
one inside one box. -/
theorem Epsilons.comparison_of_paretoComparison (ε : Epsilons) {s t : Solution D}
    (hleft : paretoComparison s t = .ok .left) :
    ε.comparison s t = .ok .left ∨
      ε.comparison s t = .ok .neither ∧ ε.boxKey s.objectives = ε.boxKey t.objectives := by
  obtain ⟨h, hlt⟩ := paretoComparison_eq_left_iff.1 hleft
  rw [comparison_eq_left_iff h, comparison_eq_neither_iff h]
  rcases Prod.Lex.toLex_lt_toLex.1 hlt with hviolation | ⟨hviolation, -⟩
  · exact .inl (grade_lt_of_violation_lt hviolation)
  · -- At one violation only the boxes count, and rounding to them keeps the objectives' order.
    have hle : ε.grade s ≤ ε.grade t :=
      grade_le_of_forall₂ h hviolation (forall₂_le_of_paretoComparison hviolation hleft)
    refine hle.lt_or_eq.imp_right fun heq => ⟨?_, (grade_eq_iff.1 heq).2⟩
    exact ⟨heq.not_lt, heq.symm.not_lt⟩

/-- Two solutions of which one is better in both objectives; the coordinates of their boxes are
the largest ones and zeros. -/
theorem Epsilons.comparison_of_paretoComparison_of_far : ∃ (ε : Epsilons) (s t : Solution Unit),
    paretoComparison s t = .ok .left ∧ ε.comparison s t = .ok .neither ∧
      ε.boxKey s.objectives = ε.boxKey t.objectives := by
  let ε : Epsilons := ⟨[0.5], by simp, by decide⟩
  let s := Solution.ofEvaluation () ⟨[1.0e300, -0.0], []⟩
  let t := Solution.ofEvaluation () ⟨[2.0e300, 0.0], []⟩
  have hleft : paretoComparison s t = .ok .left := by decide +kernel
  rcases ε.comparison_of_paretoComparison hleft with h | ⟨h, hkey⟩
  · exact absurd h (by decide +kernel)
  · exact ⟨ε, s, t, hleft, h, hkey⟩

end ParetoSearch
