import ParetoSearch.Proofs.Archive.Violations
import ParetoSearch.Proofs.Population.Survivors

/-!
# Feasible members survive first

Cutting a population down looks at ranks and crowding distances, and not at feasibility.
But a feasible member is better than every one that breaks a constraint, so it has a
smaller rank, and no front holds members of both kinds. What ranks first survives first:
either all survivors are of the first kind, or all of the first kind survive
(`Survive.countP_eq_min`). So as many feasible members are left as there were, if there is
room for them (`feasibleCount_of_truncate_eq_ok`).
-/

namespace ParetoSearch

open Binary64

variable {D : Type}

theorem paretoComparison_of_isFeasible {s t : Solution D} (h : s.Comparable t)
    (hs : s.isFeasible = true) (ht : t.isFeasible = false) : paretoComparison s t = .ok .left := by
  refine paretoComparison_eq_left_iff.2 ⟨h, Prod.Lex.toLex_lt_toLex.2 (.inl ?_)⟩
  by_contra hnot
  have hle : t.violation ≤ s.violation :=
    (le_iff_place_le (Solution.isNaN_violation h.2.2) (Solution.isNaN_violation h.2.1)).2
      (le_of_not_gt hnot)
  rw [Solution.isFeasible_of_violation_le h.2.2 h.2.1 hs hle] at ht
  cases ht

namespace Population

variable {P P' : Population D} {size : ℕ}

/-! ### Counting by index -/

theorem countP_eq_card (P : Population D) (test : Solution D → Bool) :
    P.countP test = (Finset.univ.filter fun i : Fin P.length => test (P.get i) = true).card := by
  rw [← List.toFinset_finRange, (List.nodup_finRange P.length).card_eq_countP]
  conv_lhs => rw [← List.map_get_finRange P, List.countP_map]
  simp [Function.comp_def]

section Kinds

variable {rank : Fin P.length → ℕ} {part : Fin P'.length → Fin P.length}
  {test : Solution D → Bool}

theorem Survive.countP_le (h : P.Survive P' rank part)
    (htest : ∀ s t, Entry.ofSolution s = Entry.ofSolution t → test s = test t) :
    P'.countP test ≤ P.countP test := by
  rw [countP_eq_card, countP_eq_card]
  refine Finset.card_le_card_of_injOn part ?_ h.strictMono.injective.injOn
  intro a ha
  have hkind : test (P'.get a) = true := (Finset.mem_filter.1 ha).2
  rw [htest _ _ (h.entry_eq a)] at hkind
  exact Finset.mem_filter.2 ⟨Finset.mem_univ _, hkind⟩

theorem Survive.le_countP (h : P.Survive P' rank part)
    (htest : ∀ s t, Entry.ofSolution s = Entry.ofSolution t → test s = test t)
    (hall : ∀ i, test (P.get i) = true → i ∈ Set.range part) : P.countP test ≤ P'.countP test := by
  rw [countP_eq_card, countP_eq_card]
  refine Finset.card_le_card_of_surjOn part ?_
  intro i hi
  have hkind : test (P.get i) = true := (Finset.mem_filter.1 hi).2
  obtain ⟨a, rfl⟩ := hall i hkind
  rw [← htest _ _ (h.entry_eq a)] at hkind
  exact ⟨a, Finset.mem_filter.2 ⟨Finset.mem_univ _, hkind⟩, rfl⟩

/-- **What ranks first survives first**: if all members of a kind have smaller ranks than all
others, then all survivors are of this kind or all members of it survive. -/
theorem Survive.countP_eq_min (h : P.Survive P' rank part)
    (htest : ∀ s t, Entry.ofSolution s = Entry.ofSolution t → test s = test t)
    (hfirst : ∀ i j, test (P.get i) = true → test (P.get j) = false → rank i < rank j) :
    P'.countP test = min P'.length (P.countP test) := by
  refine le_antisymm (le_min List.countP_le_length (h.countP_le htest)) ?_
  by_cases hothers : ∃ a, test (P'.get a) = false
  · -- With a survivor of the other kind all members of smaller ranks survive.
    obtain ⟨a, ha⟩ := hothers
    rw [htest _ _ (h.entry_eq a)] at ha
    exact min_le_of_right_le (h.le_countP htest fun i hi => h.lower a i (hfirst i (part a) hi ha))
  · have hall : P'.countP test = P'.length := by
      refine List.countP_eq_length.2 fun s hs => ?_
      obtain ⟨a, rfl⟩ := List.get_of_mem hs
      exact Bool.eq_true_of_not_eq_false fun ha => hothers ⟨a, ha⟩
    exact min_le_of_left_le hall.ge

end Kinds

/-! ### Feasible members -/

/-- The number of members for which every constraint holds. -/
def feasibleCount (P : Population D) : ℕ := P.countP Solution.isFeasible

/-- **Feasible members survive first**: cutting a population down drops one only if there is no room
for all of them, and then nothing else is left. -/
theorem feasibleCount_of_truncate_eq_ok (h : truncate size P = .ok () P') :
    P'.feasibleCount = min P'.length P.feasibleCount := by
  obtain ⟨hcomparable, -, r, rank, part, -, hexact, hsurvive⟩ := exists_of_truncate_eq_ok h
  refine hsurvive.countP_eq_min (fun s t heq => ?_) fun i j hi hj => ?_
  · exact congrArg (fun e : Entry D => e.constraints.all (· == 0.0)) heq
  · have hne : P.get i ≠ P.get j := fun heq => Bool.noConfusion (hj.symm.trans (heq ▸ hi))
    have hpair := hcomparable.forall (List.get_mem P i) (List.get_mem P j) hne
    exact (hexact.hasDepth j).lt_of_dominates (hexact.hasDepth i)
      (paretoComparison_of_isFeasible hpair hi hj)

end Population

end ParetoSearch
