import ParetoSearch.Proofs.Population.Room

/-!
# Ranking vectors

Objective vectors are ranked by themselves or as solutions without constraints. The first
way compares every vector with the first one before anything is ranked and cannot fail
from then on; the second way checks the two solutions of every pair and adds up the
violations of both. The violation of no constraints is zero, which decides nothing, so
where both ways come to rank they record the same dominance (`ofVectors_eq_ofSolutions`).

Of several vectors both ways refuse the same ones: every vector is in some pair, and what
fits the first vector fits any other (`ofVectors_eq_ok_iff`). A single vector is in no
pair, so as a solution it is ranked even if it has a value that is not finite.
-/

namespace ParetoSearch

variable {D : Type} {α ε : Type}

theorem forM_eq_ok_iff {check : α → Except ε Unit} {xs : List α} :
    xs.forM check = .ok () ↔ ∀ x ∈ xs, check x = .ok () := by
  induction xs with
  | nil => exact iff_of_true rfl (by simp)
  | cons x xs ih =>
    show (check x >>= fun _ => xs.forM check) = .ok () ↔ _
    rw [check_bind_eq_ok, ih, List.forall_mem_cons]

namespace Ranking

variable {vectors : List (List Float)} {solutions : List (Solution D)} {s t : Solution D}

theorem ensureVectors_eq_ok_iff : ensureVectors vectors = .ok () ↔
    ∃ m, ∀ v ∈ vectors, v.length = m ∧ v.all Float.isFinite = true := by
  simp only [ensureVectors, forM_eq_ok_iff, check_bind_eq_ok, ensureLength_eq_ok,
    ensureFinite_eq_ok, eq_comm (a := Option.getD _ _)]
  constructor
  · exact fun h => ⟨_, h⟩
  · rintro ⟨m, h⟩
    cases vectors with
    | nil => simp
    | cons first rest =>
      have hfirst : first.length = m := (h first List.mem_cons_self).1
      simpa [hfirst] using h

/-- Without constraints the objectives decide. -/
theorem paretoComparison_of_free (h : s.Comparable t) (hs : s.constraints = [])
    (ht : t.constraints = []) :
    paretoComparison s t = .ok (paretoDominance s.objectives t.objectives) := by
  have hopen : Dominance.ofValues s.violation t.violation = .neither := by
    rw [Solution.violation, Solution.violation, hs, ht]
    decide
  rw [paretoComparison, violationFirst, ensureComparable_eq_ok.2 h, hopen]
  rfl

/-- Solutions that fit and have no constraints are ranked as their objectives are. -/
theorem ofVectors_eq_ofSolutions {m : ℕ} (hfits : ∀ s ∈ solutions, s.Fits m 0) :
    ofVectors (solutions.map Solution.objectives) = ofSolutions paretoComparison solutions := by
  have hchecked : ensureVectors (solutions.map Solution.objectives) = .ok () := by
    refine ensureVectors_eq_ok_iff.2 ⟨m, List.forall_mem_map.2 fun s hs => ?_⟩
    exact ⟨(hfits s hs).1, (hfits s hs).2.2.1⟩
  rw [ofVectors, hchecked]
  refine ofComparison_congr (by simp) fun i j => ?_
  have hfree : ∀ s ∈ solutions, s.constraints = [] := fun s hs =>
    List.length_eq_zero_iff.1 (hfits s hs).2.1
  have hi := List.getElem_mem (l := solutions) (n := i) (by simpa using i.isLt)
  have hj := List.getElem_mem (l := solutions) (n := j) (by simpa using j.isLt)
  have hcompare := paretoComparison_of_free ((hfits _ hi).comparable (hfits _ hj)) (hfree _ hi)
    (hfree _ hj)
  rw [← List.getElem_map Solution.objectives, ← List.getElem_map Solution.objectives] at hcompare
  exact hcompare.symm

theorem exists_of_ofVectors_eq_ok {r : Ranking} (h : ofVectors vectors = .ok r) :
    ∃ m, ∀ v ∈ vectors, v.length = m ∧ v.all Float.isFinite = true := by
  obtain ⟨_, hchecked, -⟩ := bind_eq_ok.1 h
  exact ensureVectors_eq_ok_iff.1 (mapError_eq_ok.1 hchecked)

/-- **Several vectors are ranked as solutions without constraints are**: either way gives the same
ranks and fronts, or none, and it gives some exactly if the vectors have one length and finite
values only. -/
theorem ofVectors_eq_ok_iff (hmany : 2 ≤ vectors.length)
    (hvectors : solutions.map Solution.objectives = vectors)
    (hfree : ∀ s ∈ solutions, s.constraints = []) :
    (∀ r, ofVectors vectors = .ok r ↔ ofSolutions paretoComparison solutions = .ok r) ∧
      ((∃ r, ofVectors vectors = .ok r) ↔
        ∃ m, ∀ v ∈ vectors, v.length = m ∧ v.all Float.isFinite = true) := by
  subst hvectors
  have hfits : ∀ m, (∀ v ∈ solutions.map Solution.objectives,
      v.length = m ∧ v.all Float.isFinite = true) → ∀ s ∈ solutions, s.Fits m 0 := by
    intro m h s hs
    obtain ⟨hlength, hfinite⟩ := h s.objectives (List.mem_map_of_mem hs)
    exact ⟨hlength, by rw [hfree s hs, List.length_nil], hfinite, by rw [hfree s hs]; rfl⟩
  constructor
  · intro r
    constructor
    · intro h
      obtain ⟨m, hm⟩ := exists_of_ofVectors_eq_ok h
      exact (ofVectors_eq_ofSolutions (hfits m hm)).symm.trans h
    · intro h
      obtain ⟨m, c, hcommon⟩ := Population.exists_fits_of_pairwise
        (pairwise_of_ofSolutions_eq_ok h) (by simpa using hmany)
      refine (ofVectors_eq_ofSolutions (hfits m ?_)).trans h
      exact List.forall_mem_map.2 fun s hs => ⟨(hcommon s hs).1, (hcommon s hs).2.2.1⟩
  · constructor
    · rintro ⟨r, h⟩
      exact exists_of_ofVectors_eq_ok h
    · rintro ⟨m, h⟩
      obtain ⟨r, rank, hr, -⟩ := exists_ofSolutions_isExact (.inl rfl) (hfits m h)
      exact ⟨r, (ofVectors_eq_ofSolutions (hfits m h)).trans hr⟩

/-- The four vectors of which the last is dominated by the second. -/
def fourVectors : List (List Float) := [[1.0, 5.0], [3.0, 3.0], [5.0, 1.0], [4.0, 4.0]]

/-- As solutions they have the same fronts as by themselves. -/
theorem ofVectors_eq_ok_iff_of_four : 2 ≤ fourVectors.length ∧
    ofSolutions paretoComparison (fourVectors.map fun v => Solution.ofEvaluation () ⟨v, []⟩) =
      .ok ⟨[0, 0, 0, 1], [[0, 1, 2], [3]]⟩ := by
  have hranked : ofVectors fourVectors = .ok ⟨[0, 0, 0, 1], [[0, 1, 2], [3]]⟩ := by
    decide +kernel
  refine ⟨by decide, ((ofVectors_eq_ok_iff (by decide) ?_ ?_).1 _).1 hranked⟩
  · rw [List.map_map]
    exact List.map_id'' (fun _ => rfl) _
  · exact List.forall_mem_map.2 fun _ _ => rfl

end Ranking

end ParetoSearch
