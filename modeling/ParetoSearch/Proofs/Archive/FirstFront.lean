import ParetoSearch.Proofs.Archive.Summary
import ParetoSearch.Proofs.Ranking.Exact

/-!
# The archive and the first front

Solutions offered one by one to an archive leave behind what ranking all of them at once
finds best: the boxes of the archive are those of the first front, and the member of
each box is the first of the front that is closest to the corner of the box
(`exists_addAll_eq_firstFront`). Which solutions are in the first front does not depend on
their order, so neither do the boxes.
-/

namespace ParetoSearch

variable {D : Type} {ε : Epsilons} {solutions : List (Solution D)} {s t : Solution D} {i : ℕ}
  {m c : ℕ}

/-- The solution with the given index has rank `0`. -/
def Ranking.Leads (r : Ranking) (solutions : List (Solution D)) (i : ℕ) (s : Solution D) : Prop :=
  solutions[i]? = some s ∧ r.ranks[i]? = some 0

/-- Ranking by dominance of boxes gives rank `0` where no solution has a better grade. -/
theorem Ranking.exists_ofSolutions_leads_iff (ε : Epsilons) (h : ∀ s ∈ solutions, s.Fits m c) :
    ∃ r, ofSolutions ε.comparison solutions = .ok r ∧ ∀ i s, r.Leads solutions i s ↔
      solutions[i]? = some s ∧ ∀ t ∈ solutions, ¬ε.grade t < ε.grade s := by
  have hcomparable : ∀ s ∈ solutions, ∀ t ∈ solutions, s.Comparable t := fun s hs t ht =>
    (h s hs).comparable (h t ht)
  obtain ⟨r, rank, hr, hexact⟩ := exists_ofSolutions_eq_ok ε.grade fun s hs t ht =>
    ε.comparison_eq_ok (hcomparable s hs t ht)
  refine ⟨r, hr, fun i s => and_congr_right fun hi => ?_⟩
  have hmem := List.mem_of_getElem? hi
  obtain ⟨hlen, rfl⟩ := List.getElem?_eq_some_iff.1 hi
  have hrank : r.ranks[i]? = some (rank ⟨i, hlen⟩) := by simp [hexact.ranks_eq, hlen]
  rw [hrank, Option.some.injEq, hexact.rank_eq_iff]
  simp only [Nat.zero_le, true_and, forall_const]
  constructor
  · intro hno t ht hlt
    obtain ⟨j, hj, rfl⟩ := List.mem_iff_getElem.1 ht
    exact hno ⟨j, hj⟩ ((Epsilons.comparison_eq_left_iff (hcomparable _ ht _ hmem)).2 hlt)
  · intro hno j hleft
    have hj := List.getElem_mem j.isLt
    exact hno _ hj ((Epsilons.comparison_eq_left_iff (hcomparable _ hj _ hmem)).1 hleft)

namespace Epsilons

theorem grade_eq_of_not_lt (hkey : ε.boxKey s.objectives = ε.boxKey t.objectives)
    (hst : ¬ε.grade s < ε.grade t) (hts : ¬ε.grade t < ε.grade s) : ε.grade s = ε.grade t :=
  grade_eq_iff.2 ⟨violation_eq_of_not_grade_lt hst hts, hkey⟩

/-- A solution is chosen if it is the first of those closest to the corner, among all in its box to
which there is no better grade, and it is one of them. -/
theorem chosen_iff : ε.Chosen solutions i s ↔ (solutions[i]? = some s ∧
    ∀ q ∈ solutions, ¬ε.grade q < ε.grade s) ∧
    ∀ (j : ℕ) (t : Solution D), (solutions[j]? = some t ∧
      ∀ q ∈ solutions, ¬ε.grade q < ε.grade t) → ε.boxKey t.objectives = ε.boxKey s.objectives →
        ε.distance s ≤ ε.distance t ∧ (j < i → ε.distance s < ε.distance t) := by
  constructor
  · intro h
    have hbest : ∀ q ∈ solutions, ¬ε.grade q < ε.grade s := fun q hq hlt =>
      h.not_lt q hq (standing_lt_iff.2 (.inl hlt))
    refine ⟨⟨h.getElem?_eq, hbest⟩, fun j t ⟨hj, ht⟩ hkey => ?_⟩
    have htm := List.mem_of_getElem? hj
    have hgrade := grade_eq_of_not_lt hkey (hbest t htm) (ht s h.mem)
    refine ⟨not_lt.1 fun hlt => ?_, fun hji => not_le.1 fun hle => ?_⟩
    · exact h.not_lt t htm (standing_lt_iff.2 (.inr ⟨hgrade, hlt⟩))
    · exact h.not_le j t hji hj (standing_le_iff.2 (.inr ⟨hgrade, hle⟩))
  · rintro ⟨⟨hi, hbest⟩, hfirst⟩
    have hsame : ∀ (j : ℕ) (t : Solution D), solutions[j]? = some t → ε.grade t = ε.grade s →
        ε.distance s ≤ ε.distance t ∧ (j < i → ε.distance s < ε.distance t) :=
      fun j t hj hgrade => hfirst j t ⟨hj, hgrade ▸ hbest⟩ (grade_eq_iff.1 hgrade).2
    refine ⟨hi, fun t ht hlt => ?_, fun j t hji hj hle => ?_⟩
    · obtain ⟨j, hj⟩ := List.mem_iff_getElem?.1 ht
      rcases standing_lt_iff.1 hlt with hlt | ⟨hgrade, hlt⟩
      · exact hbest t ht hlt
      · exact (hsame j t hj hgrade).1.not_gt hlt
    · rcases standing_le_iff.1 hle with hlt | ⟨hgrade, hle⟩
      · exact hbest t (List.mem_of_getElem? hj) hlt
      · exact ((hsame j t hj hgrade).2 hji).not_ge hle

end Epsilons

namespace Archive

theorem expects_of_new {A : Archive D} (hm : 0 < m)
    (hA : A = ofEpsilons ε ∨ withDimensions ε m c = .ok A) :
    A.members = [] ∧ A.epsilons = ε ∧ A.Expects m c := by
  rcases hA with rfl | hA
  · exact ⟨rfl, rfl, hm, .inl rfl, .inl rfl⟩
  · rw [withDimensions, if_neg hm.ne', Except.ok.injEq] at hA
    subst hA
    exact ⟨rfl, rfl, hm, .inr rfl, .inr rfl⟩

/-- **The archive holds the first front**: solutions that fit together are all ranked and all added
to a new archive. The boxes of the archive are then those of the solutions of rank `0`, and the
member of a box is the first of those solutions there that is closest to the corner. Offered in any
other order the solutions leave the same boxes. -/
theorem exists_addAll_eq_firstFront {A : Archive D} (hm : 0 < m)
    (hA : A = ofEpsilons ε ∨ withDimensions ε m c = .ok A) (hs : ∀ s ∈ solutions, s.Fits m c) :
    ∃ r taken B, Ranking.ofSolutions ε.comparison solutions = .ok r ∧
      addAll solutions A = .ok taken B ∧
      (∀ key, key ∈ B.members.map (·.1) ↔
        ∃ i s, r.Leads solutions i s ∧ ε.boxKey s.objectives = key) ∧
      (∀ key s, (key, s) ∈ B.members ↔
        ∃ i, r.Leads solutions i s ∧ ε.boxKey s.objectives = key ∧
          ∀ j t, r.Leads solutions j t → ε.boxKey t.objectives = key →
            ε.cornerDistance key s.objectives ≤ ε.cornerDistance key t.objectives ∧
              (j < i → ε.cornerDistance key s.objectives < ε.cornerDistance key t.objectives)) ∧
      ∀ reordered, reordered.Perm solutions → ∃ taken' B', addAll reordered A = .ok taken' B' ∧
        B'.members.map (·.1) = B.members.map (·.1) := by
  obtain ⟨hnil, rfl, hexpects⟩ := expects_of_new hm hA
  obtain ⟨r, hr, hleads⟩ := Ranking.exists_ofSolutions_leads_iff A.epsilons hs
  have hadd : ∀ offered : List (Solution D), (∀ s ∈ offered, s.Fits m c) → ∃ taken B,
      addAll offered A = .ok taken B ∧ B.epsilons = A.epsilons ∧ B.Sound ∧ B.Summarizes offered :=
    fun offered h =>
      (summarizes_nil hnil).exists_addAll_eq_ok (sound_of_members_eq_nil hnil) hexpects h
  obtain ⟨taken, B, hall, hε, hB, hsum⟩ := hadd solutions hs
  have hbox : ∀ objectives, B.boxKey objectives = A.epsilons.boxKey objectives :=
    boxKey_eq_of_epsilons_eq hε
  refine ⟨r, taken, B, hr, hall, fun key => ?_, fun key s => ?_, fun reordered hperm => ?_⟩
  · simp only [hsum.mem_keys_iff, hleads, hbox, hε]
    constructor
    · rintro ⟨s, hmem, hbest, hkey⟩
      obtain ⟨i, hi⟩ := List.mem_iff_getElem?.1 hmem
      exact ⟨i, s, ⟨hi, hbest⟩, hkey⟩
    · rintro ⟨i, s, ⟨hi, hbest⟩, hkey⟩
      exact ⟨s, List.mem_of_getElem? hi, hbest, hkey⟩
  · have hcomparable : ∀ {i j s t}, r.Leads solutions i s → r.Leads solutions j t →
        s.Comparable t := fun hi hj =>
      (hs _ (List.mem_of_getElem? hi.1)).comparable (hs _ (List.mem_of_getElem? hj.1))
    simp only [hsum (key, s), hbox, hε, Epsilons.chosen_iff, ← hleads]
    constructor
    · rintro ⟨rfl, i, hi, hfirst⟩
      refine ⟨i, hi, rfl, fun j t hj hkey => ?_⟩
      rw [Epsilons.cornerDistance_le_iff (hcomparable hi hj) rfl hkey,
        Epsilons.cornerDistance_lt_iff (hcomparable hi hj) rfl hkey]
      exact hfirst j t hj hkey
    · rintro ⟨i, hi, rfl, hfirst⟩
      refine ⟨rfl, i, hi, fun j t hj hkey => ?_⟩
      rw [← Epsilons.cornerDistance_le_iff (hcomparable hi hj) rfl hkey,
        ← Epsilons.cornerDistance_lt_iff (hcomparable hi hj) rfl hkey]
      exact hfirst j t hj hkey
  · obtain ⟨taken', B', hall', hε', hB', hsum'⟩ :=
      hadd reordered fun s h => hs s (hperm.mem_iff.1 h)
    refine ⟨taken', B', hall', hB'.ascending.map_key_eq hB.ascending fun key => ?_⟩
    rw [hsum'.mem_keys_iff, hsum.mem_keys_iff]
    simp only [boxKey, hε, hε', hperm.mem_iff]

/-- Two solutions of one box are both in the first front, and one of them is kept. -/
theorem exists_addAll_eq_firstFront_of_one_box : ∃ (ε : Epsilons) (s t : Solution Unit)
    (r : Ranking) (taken : ℕ) (B : Archive Unit), ε.boxKey s.objectives = ε.boxKey t.objectives ∧
      Ranking.ofSolutions ε.comparison [s, t] = .ok r ∧ addAll [s, t] (ofEpsilons ε) = .ok taken B ∧
      ∀ key, key ∈ B.members.map (·.1) ↔
        ∃ i u, r.Leads [s, t] i u ∧ ε.boxKey u.objectives = key := by
  have hs : ∀ u ∈ [Solution.ofEvaluation () ⟨[0.75, 0.75], [0.0]⟩,
      Solution.ofEvaluation () ⟨[0.25, 0.25], [0.0]⟩], u.Fits 2 1 := by
    simp only [List.forall_mem_cons]
    refine ⟨⟨rfl, rfl, by decide, by decide⟩, ⟨rfl, rfl, by decide, by decide⟩, by simp⟩
  obtain ⟨r, taken, B, hr, hB, hkeys, -⟩ := exists_addAll_eq_firstFront (A := ofEpsilons _)
    (ε := ⟨[1.0], by decide, by decide⟩) (by decide) (.inl rfl) hs
  exact ⟨_, _, _, r, taken, B, by decide +kernel, hr, hB, hkeys⟩

end Archive

end ParetoSearch
