import ParetoSearch.Proofs.Population.Room
import ParetoSearch.Proofs.Sorting.Faults

/-!
# What cutting down may raise

Cutting a population down raises one fault only: that a front is sorted by distances that
are no order (`truncate_eq_fault`). Then the front has more than twenty members and a
distance that is no number (`HasDisorderedFront`), which needs two members whose objectives
are further apart than the greatest finite value (`HasDisorderedFront.isTooWide`).

No index is outside a front, a vector or the population, and no count of dominators goes
below zero: a population that can be compared is ranked and measured, and one that cannot
ends in an error before.
-/

namespace ParetoSearch

variable {D : Type}

namespace Population

variable {P P' : Population D} {f : Fault} {front : List ℕ}

/-! ### Attributes are no matter -/

theorem getElem?_of_entries_eq (h : entries P' = entries P) (i : ℕ) :
    P'[i]?.map Entry.ofSolution = P[i]?.map Entry.ofSolution := by
  simpa only [List.getElem?_map] using congrArg (·[i]?) h

theorem objectivesAt_of_entries_eq (h : entries P' = entries P) (front : List ℕ) :
    objectivesAt P' front = objectivesAt P front := by
  refine congrArg (front.mapM ·) (funext fun i => ?_)
  have hi := getElem?_of_entries_eq h i
  cases hs : P'[i]? with
  | none =>
    rw [hs, Option.map_none, eq_comm, Option.map_eq_none_iff] at hi
    rw [hi]
  | some s =>
    rw [hs, Option.map_some, eq_comm, Option.map_eq_some_iff] at hi
    obtain ⟨t, ht, heq⟩ := hi
    rw [ht]
    exact congrArg (Except.ok ∘ Entry.objectives) heq.symm

theorem ofSolutions_of_entries_eq (h : entries P' = entries P) :
    Ranking.ofSolutions paretoComparison P' = Ranking.ofSolutions paretoComparison P := by
  have hlength : P'.length = P.length := by simpa using congrArg List.length h
  have hentry : ∀ i : Fin P'.length,
      Entry.ofSolution P'[i] = Entry.ofSolution P[i.cast hlength] := by
    intro i
    simpa [i.isLt, i.isLt.trans_eq hlength] using getElem?_of_entries_eq h i.val
  exact Ranking.ofComparison_congr hlength fun i j =>
    congr_of_entries (fun _ _ => rfl) (hentry i) (hentry j)

theorem entries_zipWith_setRank {ranks : List ℕ} (h : ranks.length = P.length) :
    entries (P.zipWith Solution.setRank ranks) = entries P := by
  apply List.ext_getElem
  · simp [h]
  · intro i hi hi'
    simp [Entry.ofSolution, Solution.setRank]

/-! ### Fronts that cannot be sorted -/

/-- The front has more than twenty members, and a crowding distance among them is no number. -/
def IsDisordered (P : Population D) (front : List ℕ) : Prop :=
  20 < front.length ∧
    ∃ d, (objectivesAt P front >>= Crowding.distances) = .ok d ∧ ∃ x ∈ d, x.isNaN = true

/-- The members can be ranked, and one of their fronts is disordered. -/
def HasDisorderedFront (P : Population D) : Prop :=
  ∃ r, Ranking.ofSolutions paretoComparison P = .ok r ∧ ∃ front ∈ r.fronts, P.IsDisordered front

theorem IsDisordered.of_entries_eq (h : P.IsDisordered front) (hentries : entries P' = entries P) :
    P'.IsDisordered front := by
  rwa [IsDisordered, objectivesAt_of_entries_eq hentries]

/-- Two members have objectives in one column whose difference is too great for a finite float. -/
def IsTooWide (P : Population D) : Prop :=
  ∃ s ∈ P, ∃ t ∈ P, (List.zipWith (· - ·) s.objectives t.objectives).all Float.isFinite = false

/-- Finite differences give distances that are numbers. -/
theorem HasDisorderedFront.isTooWide (h : P.HasDisorderedFront) : P.IsTooWide := by
  obtain ⟨r, hr, front, hfront, hmany, d, hd, x, hx, hnan⟩ := h
  have hcomparable := Ranking.pairwise_of_ofSolutions_eq_ok hr
  obtain ⟨rank, hexact⟩ := Ranking.exists_isExact_of_ofSolutions_eq_ok hr
  obtain ⟨hlt, hlength⟩ := fronts_within hexact front hfront
  obtain ⟨m, c, hfits⟩ := exists_fits_of_pairwise hcomparable (by omega)
  obtain ⟨vectors, hvectors, -, hmem⟩ := exists_objectivesAt_eq_ok hlt
  rw [hvectors] at hd
  have hfinite : ∀ v ∈ vectors, v.length = m ∧ v.all Float.isFinite = true := by
    intro v hv
    obtain ⟨s, hs, rfl⟩ := hmem v hv
    exact ⟨(hfits s hs).1, (hfits s hs).2.2.1⟩
  by_contra hnear
  simp only [IsTooWide, not_exists, not_and, Bool.not_eq_false] at hnear
  obtain ⟨d', hd', hmeasured⟩ := Crowding.exists_distances hfinite
  obtain rfl : d = d' := Except.ok.inj (hd.symm.trans hd')
  obtain ⟨i, hi⟩ := List.mem_iff_getElem?.1 hx
  have hzero := hmeasured.zero_le i x hi (Crowding.not_lost_of_differences hfinite ?_)
  · rw [Binary64.isNaN_of_zero_le hzero] at hnan
    cases hnan
  · intro v hv w hw
    obtain ⟨s, hs, rfl⟩ := hmem v hv
    obtain ⟨t, ht, rfl⟩ := hmem w hw
    exact hnear s hs t ht

/-! ### Cutting down -/

theorem failsOnly_byCrowding {d : List Float} (hlength : d.length = front.length) :
    FailsOnly (fun f => f = Fault.notOrdered ∧ 20 < front.length ∧ ∃ x ∈ d, x.isNaN = true)
      (byCrowding front d) := by
  refine FailsOnly.bind (fun f hf => ?_) fun _ => .ok _
  obtain ⟨rfl, hmany, p, hp, hnan⟩ := Sorting.failsOnly_sortByKey _ _ _ f hf
  rw [List.length_zip, hlength, min_self] at hmany
  exact ⟨rfl, hmany, p.2, (List.of_mem_zip hp).2, hnan⟩

/-- Choosing among members that can be compared may only fail where a front is sorted. -/
theorem chooseMembers_eq_error {room : ℕ} {fronts : List (List ℕ)}
    (h : P.Pairwise Solution.Comparable)
    (hfronts : ∀ front ∈ fronts, (∀ i ∈ front, i < P.length) ∧ front.length ≤ P.length)
    (hchoose : chooseMembers room fronts P = .error f P') :
    f = .notOrdered ∧ entries P' = entries P ∧ ∃ front ∈ fronts, P.IsDisordered front := by
  induction fronts generalizing room P with
  | nil => cases hchoose
  | cons front later ih =>
    obtain ⟨⟨hlt, hlength⟩, hlater⟩ := List.forall_mem_cons.1 hfronts
    obtain ⟨d, P₁, hd⟩ := exists_assignCrowding_eq_ok h hlt hlength
    obtain ⟨hcount, hranked, hdistances⟩ := assignCrowding_eq_ok hd
    have hentries := entries_eq_of_rankedEntries_eq hranked
    have hsame := length_eq_of_rankedEntries_eq hranked
    have hrest : ∀ {room}, chooseMembers room later P₁ = .error f P' → f = .notOrdered ∧
        entries P' = entries P ∧ ∃ front' ∈ front :: later, P.IsDisordered front' := by
      intro room hchoose
      obtain ⟨rfl, hP', front', hmem, hfront'⟩ :=
        ih (pairwise_comparable_of_entries_eq hentries h) (by rwa [hsame]) hchoose
      exact ⟨rfl, hP'.trans hentries, front', List.mem_cons_of_mem _ hmem,
        hfront'.of_entries_eq hentries.symm⟩
    rw [chooseMembers, bind_apply_of_ok hd] at hchoose
    by_cases hnone : room = 0
    · rw [if_pos hnone] at hchoose
      cases hchoose
    rw [if_neg hnone] at hchoose
    by_cases hfits : front.length ≤ room
    · rw [if_pos hfits] at hchoose
      rcases bind_apply_eq_error.1 hchoose with hchoose | ⟨rest, P₂, -, hdone⟩
      · exact hrest hchoose
      · cases hdone
    · rw [if_neg hfits] at hchoose
      rcases bind_apply_eq_error.1 hchoose with hsort | ⟨sorted, P₂, hsort, hchoose⟩
      · obtain ⟨hfault, rfl⟩ := check_apply_eq_error.1 hsort
        obtain ⟨rfl, hmany, hnan⟩ := failsOnly_byCrowding hcount f hfault
        exact ⟨rfl, hentries, front, List.mem_cons_self, hmany, d, hdistances, hnan⟩
      · obtain ⟨-, rfl⟩ := check_apply_eq_ok.1 hsort
        rcases bind_apply_eq_error.1 hchoose with hchoose | ⟨rest, P₂, -, hdone⟩
        · exact hrest hchoose
        · cases hdone

/-- **Cutting a population down raises one fault only**: that distances are no order. It leaves the
members as they were up to their attributes, and one of their fronts is disordered. -/
theorem truncate_eq_fault {size : ℕ} (h : truncate size P = .error (.fault f) P') :
    f = .notOrdered ∧ P'.HasDisorderedFront := by
  cases hr : Ranking.ofSolutions paretoComparison P with
  | error e =>
    cases (bind_apply_of_error (assignRanks_eq_error_iff.2 ⟨hr, rfl⟩)).symm.trans h
    exact absurd hr (Ranking.ofSolutions_ne_fault P f)
  | ok r =>
    have hcomparable := Ranking.pairwise_of_ofSolutions_eq_ok hr
    obtain ⟨rank, hexact⟩ := Ranking.exists_isExact_of_ofSolutions_eq_ok hr
    have hranked : entries (P.zipWith Solution.setRank r.ranks) = entries P :=
      entries_zipWith_setRank (by simp [hexact.ranks_eq])
    have hlength : (P.zipWith Solution.setRank r.ranks).length = P.length := by
      simpa using congrArg List.length hranked
    rw [truncate, bind_apply_of_ok (assignRanks_eq_ok.2 ⟨hr, rfl⟩)] at h
    rcases bind_apply_eq_error.1 h with hchoose | ⟨chosen, P₁, -, hdone⟩
    · obtain ⟨rfl, hentries, front, hfront, hdisordered⟩ :=
        chooseMembers_eq_error (pairwise_comparable_of_entries_eq hranked hcomparable)
          (hlength ▸ fronts_within hexact) (faulty_apply_eq_fault.1 hchoose)
      refine ⟨rfl, r, ?_, front, hfront, hdisordered.of_entries_eq hentries⟩
      rw [ofSolutions_of_entries_eq (hentries.trans hranked), hr]
    · cases hdone

end Population

end ParetoSearch
