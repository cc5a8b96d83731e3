import ParetoSearch.Proofs.Population.Room

/-!
# Populations that cannot be ranked

Ranking compares every pair of members, and a comparison refuses solutions of different
shapes and values that are not finite. Nothing is checked before, so such members are met
in the middle, when other verdicts have already been recorded. Those are on record in the
graph of the ranking only: the members get their ranks once all pairs have been compared,
so a population that is refused is left as it was (`assignRanks_eq_error_iff`).

Which error is reported depends on the pair that is met first
(`DominanceGraph.ofComparison_eq_error_iff`). Whether there is one does not: every member
is in some pair, unless it is the only one, so a population of several members is refused
exactly if it is `Mixed` (`refused_iff_mixed`).
-/

namespace ParetoSearch

variable {D : Type}

/-- Ranking ends in an error exactly if a comparison fails, and then with the error of the first
that does. -/
theorem Ranking.ofSolutions_eq_error_iff {compare : Comparison D} {solutions : List (Solution D)}
    {e : Error} : ofSolutions compare solutions = .error (.error e) ↔
      DominanceGraph.FailsFirst (fun i j => compare (solutions.get i) (solutions.get j)) e := by
  constructor
  · intro h
    obtain ⟨e', he, hfirst⟩ := ofComparison_eq_error_iff.1 h
    obtain rfl : e = e' := Failure.error.inj he
    exact hfirst
  · intro h
    exact ofComparison_eq_error_iff.2 ⟨e, rfl, h⟩

namespace Population

variable {P P' : Population D} {size : ℕ}

/-! ### Mixed populations -/

/-- Two members differ in their numbers of objectives or constraints, or a member has a value that
is not finite. -/
def Mixed (P : Population D) : Prop :=
  (∃ s ∈ P, ∃ t ∈ P, s.objectives.length ≠ t.objectives.length ∨
    s.constraints.length ≠ t.constraints.length) ∨
  ∃ s ∈ P, ∃ v ∈ s.objectives ++ s.constraints, v.isFinite = false

theorem not_mixed_iff : ¬P.Mixed ↔ (∀ s ∈ P, ∀ t ∈ P, s.SameShape t) ∧ ∀ s ∈ P, s.AllFinite := by
  simp only [Mixed, Solution.SameShape, Solution.allFinite_iff_forall, not_or, not_exists, not_and,
    not_not, Bool.not_eq_false]

theorem pairwise_comparable_iff (hmany : 2 ≤ P.length) :
    P.Pairwise Solution.Comparable ↔ ¬P.Mixed := by
  rw [not_mixed_iff]
  constructor
  · intro h
    obtain ⟨m, c, hfits⟩ := exists_fits_of_pairwise h hmany
    exact ⟨fun s hs t ht => ((hfits s hs).comparable (hfits t ht)).1, fun s hs => (hfits s hs).2.2⟩
  · rintro ⟨hshape, hfinite⟩
    exact List.pairwise_of_forall_mem_list fun s hs t ht =>
      ⟨hshape s hs t ht, hfinite s hs, hfinite t ht⟩

theorem not_pairwise_comparable_iff :
    ¬P.Pairwise Solution.Comparable ↔ 2 ≤ P.length ∧ P.Mixed := by
  by_cases hmany : 2 ≤ P.length
  · rw [pairwise_comparable_iff hmany, not_not, and_iff_right hmany]
  · refine iff_of_false (not_not.2 ?_) fun h => hmany h.1
    match P, hmany with
    | [], _ => exact .nil
    | [s], _ => exact List.pairwise_singleton _ s
    | s :: t :: rest, hmany => exact absurd (Nat.le_add_left 2 rest.length) hmany

/-! ### Refused populations -/

/-- Ranking the members, the error is the first that is met. -/
def Refused (P : Population D) (e : Error) : Prop :=
  DominanceGraph.FailsFirst (fun i j : Fin P.length => paretoComparison (P.get i) (P.get j)) e

theorem exists_refused_iff : (∃ e, P.Refused e) ↔ 2 ≤ P.length ∧ P.Mixed := by
  simp only [Refused, ← Ranking.ofSolutions_eq_error_iff]
  rw [← not_pairwise_comparable_iff]
  constructor
  · rintro ⟨e, herror⟩ hcomparable
    obtain ⟨r, rank, hr, -⟩ := Ranking.exists_ofSolutions_eq_ok_of_pairwise hcomparable
    cases herror.symm.trans hr
  · intro hnot
    cases hr : Ranking.ofSolutions paretoComparison P with
    | ok r => exact absurd (Ranking.pairwise_of_ofSolutions_eq_ok hr) hnot
    | error f =>
      cases f with
      | fault f => exact absurd hr (Ranking.ofSolutions_ne_fault P f)
      | error e => exact ⟨e, rfl⟩

/-- A population cannot be ranked exactly if it is refused, and then nothing is stored. -/
theorem assignRanks_eq_error_iff_refused {f : Failure} :
    assignRanks P = .error f P' ↔ P' = P ∧ ∃ e, f = .error e ∧ P.Refused e := by
  simp only [assignRanks_eq_error_iff, Refused, ← Ranking.ofSolutions_eq_error_iff]
  constructor
  · rintro ⟨hr, rfl⟩
    cases f with
    | fault f => exact absurd hr (Ranking.ofSolutions_ne_fault P' f)
    | error e => exact ⟨rfl, e, rfl, hr⟩
  · rintro ⟨rfl, e, rfl, hr⟩
    exact ⟨hr, rfl⟩

/-- **What is refused and what is left**: cutting a population down, as well as ranking it, ends in
an error exactly if there are several members and they are mixed. The error is that of the first
pair of members that cannot be compared, wherever it is, and the population is what it was. -/
theorem refused_iff_mixed (P : Population D) (size : ℕ) :
    ((∃ e P', truncate size P = .error (.error e) P') ↔ 2 ≤ P.length ∧ P.Mixed) ∧
    ((∃ e P', assignRanks P = .error (.error e) P') ↔ 2 ≤ P.length ∧ P.Mixed) ∧
    (∀ e P', truncate size P = .error (.error e) P' ↔ P' = P ∧ P.Refused e) ∧
    ∀ f P', assignRanks P = .error f P' ↔ P' = P ∧ ∃ e, f = .error e ∧ P.Refused e := by
  have hassign : ∀ e P', assignRanks P = .error (.error e) P' ↔ P' = P ∧ P.Refused e := by
    intro e P'
    simp [assignRanks_eq_error_iff_refused]
  have htruncate : ∀ e P', truncate size P = .error (.error e) P' ↔ P' = P ∧ P.Refused e :=
    fun e P' => truncate_eq_error_iff.trans (hassign e P')
  refine ⟨?_, ?_, htruncate, fun f P' => assignRanks_eq_error_iff_refused⟩
  · simp only [htruncate, exists_eq_left, exists_refused_iff]
  · simp only [hassign, exists_eq_left, exists_refused_iff]

end Population

end ParetoSearch
