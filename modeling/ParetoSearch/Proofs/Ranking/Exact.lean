import ParetoSearch.Proofs.Dominance.Grades
import ParetoSearch.Proofs.Ranking.Fronts

/-!
# Exact rankings

A ranking is exact if every rank is the length of the longest chain of dominators
that ends at the item, and the fronts divide the items by rank. The fronts are levels
of depth for every comparison, and only a comparison can fail
(`Ranking.ofComparison_eq_error_iff`). Where the comparison answers as the grades of
the items do, in some partial order, every item has a depth, the releases reach all of
them, and the ranking is exact (`Ranking.exists_isExact`). Pareto dominance and
dominance of boxes are such comparisons for solutions that fit together.
-/

namespace ParetoSearch.Ranking

open DominanceGraph (Outranks)

variable {n : ℕ} {D : Type}

/-- The ranking divides `n` items by the longest chains of dominators that end at them. -/
structure IsExact (dominates : Fin n → Fin n → Prop) (r : Ranking) (rank : Fin n → ℕ) : Prop where
  /-- The ranks are those of the items, in order. -/
  ranks_eq : r.ranks = (List.finRange n).map rank
  /-- The rank of an item is the length of the longest chain of dominators that ends there. -/
  isGreatest : ∀ i, IsGreatest {k | Chain dominates k i} (rank i)
  /-- Rank `k` holds the items that nothing dominates once the ranks before it are removed. -/
  rank_eq_iff : ∀ i k, rank i = k ↔ k ≤ rank i ∧ ∀ j, k ≤ rank j → ¬dominates j i
  /-- Front number `k` lists the items of rank `k` in ascending order. -/
  front_eq : ∀ (k : ℕ) (front : List ℕ), r.fronts[k]? = some front →
    front = ((List.finRange n).filter fun i => rank i = k).map Fin.val
  /-- No front is empty. -/
  front_ne_nil : ∀ front ∈ r.fronts, front ≠ []
  /-- Every item is in exactly one front. -/
  existsUnique_front : ∀ i : Fin n,
    ∃! k : ℕ, ∃ front : List ℕ, r.fronts[k]? = some front ∧ i.val ∈ front

namespace IsExact

variable {dominates : Fin n → Fin n → Prop} {r : Ranking} {rank : Fin n → ℕ} {k : ℕ}
  {front : List ℕ}

theorem hasDepth (h : IsExact dominates r rank) (i : Fin n) : HasDepth dominates (rank i) i :=
  ⟨(h.isGreatest i).1, fun hlonger => (Nat.lt_succ_self _).not_ge ((h.isGreatest i).2 hlonger)⟩

theorem exists_rank_eq (h : IsExact dominates r rank) (hfront : r.fronts[k]? = some front) {i : ℕ}
    (hi : i ∈ front) : ∃ hn : i < n, rank ⟨i, hn⟩ = k := by
  rw [h.front_eq k front hfront] at hi
  obtain ⟨j, hj, rfl⟩ := List.mem_map.1 hi
  exact ⟨j.isLt, by simpa using (List.mem_filter.1 hj).2⟩

theorem exists_mem_front (h : IsExact dominates r rank) (i : Fin n) :
    ∃ front, r.fronts[rank i]? = some front ∧ i.val ∈ front := by
  obtain ⟨k, ⟨front, hfront, hi⟩, -⟩ := h.existsUnique_front i
  obtain ⟨_, rfl⟩ := h.exists_rank_eq hfront hi
  exact ⟨front, hfront, hi⟩

end IsExact

variable {r : Fin n → Fin n → Prop} {len : ℕ}

/-- The levels before the first empty one hold every item that has a depth. -/
theorem HasDepth.lt_of_level_eq_nil {i : Fin n} {k : ℕ} (hi : HasDepth r k i)
    (hend : level r len = []) : k < len := by
  by_contra hle
  have hnil := level_eq_nil_of_le (Nat.le_of_not_lt hle) hend
  simpa [hnil] using mem_level_iff.2 hi

/-- The number of the first level that holds an item is its depth. -/
theorem HasDepth.findIdx?_levels {i : Fin n} {k : ℕ} (hi : HasDepth r k i) (hk : k < len) :
    ((List.range len).map (level r)).findIdx? (·.contains i) = some k := by
  rw [List.findIdx?_eq_some_iff_getElem]
  refine ⟨by simpa using hk, by simpa using hi, fun l hl => ?_⟩
  simpa using fun h => hl.ne (HasDepth.unique h hi)

/-- Division by levels is exact if every item has a depth. -/
theorem isExact_ofFronts (len : ℕ) {rank : Fin n → ℕ} (hrank : ∀ i, HasDepth r (rank i) i)
    (hne : ∀ k < len, level r k ≠ []) (hend : level r len = []) :
    IsExact r (ofFronts ((List.range len).map (level r))) rank := by
  have hdepth : ∀ i k, HasDepth r k i ↔ rank i = k :=
    fun i k => ⟨fun h => (hrank i).unique h, fun h => h ▸ hrank i⟩
  have hfronts : ∀ (k : ℕ) (front : List ℕ),
      (ofFronts ((List.range len).map (level r))).fronts[k]? = some front ↔
        k < len ∧ (level r k).map Fin.val = front := by
    intro k front
    simp [ofFronts, List.getElem?_eq_some_iff]
  have hlt : ∀ i, rank i < len := fun i => (hrank i).lt_of_level_eq_nil hend
  constructor
  case ranks_eq =>
    refine List.map_congr_left fun i _ => ?_
    rw [(hrank i).findIdx?_levels (hlt i), Option.getD_some]
  case isGreatest => exact fun i => (hrank i).isGreatest
  case rank_eq_iff =>
    intro i k
    constructor
    · rintro rfl
      exact ⟨le_rfl, fun j hj hd => ((hrank i).lt_of_dominates (hrank j) hd).not_ge hj⟩
    · rintro ⟨hk, hno⟩
      by_contra hne'
      obtain ⟨l, hl⟩ := Nat.exists_eq_succ_of_ne_zero (Nat.ne_zero_of_lt (hk.lt_of_ne' hne'))
      obtain ⟨j, hj, hd⟩ := (hl ▸ hrank i).exists_dominator
      exact hno j (by have := (hrank j).unique hd; omega) hj
  case front_eq =>
    intro k front hfront
    rw [← ((hfronts k front).1 hfront).2, level]
    simp only [hdepth]
  case front_ne_nil =>
    intro front hfront
    obtain ⟨k, hk⟩ := List.mem_iff_getElem?.1 hfront
    obtain ⟨hlen, rfl⟩ := (hfronts k front).1 hk
    simpa using hne k hlen
  case existsUnique_front =>
    intro i
    refine ⟨rank i, ⟨_, (hfronts _ _).2 ⟨hlt i, rfl⟩, ?_⟩, ?_⟩
    · exact List.mem_map_of_mem (mem_level_iff.2 (hrank i))
    rintro k ⟨front, hfront, hmem⟩
    obtain ⟨-, rfl⟩ := (hfronts k front).1 hfront
    exact ((hdepth i k).1 (by simpa [Fin.val_inj] using hmem)).symm

/-! ### What ranking ends in -/

theorem undominated_eq_level {g : DominanceGraph n} (hg : g.Records r) :
    g.undominated = level r 0 := by
  refine List.filter_congr fun i _ => ?_
  show (g.dominators.get i == 0) = _
  rw [Bool.eq_iff_iff, hg.count]
  simp [hasDepth_zero_iff, predecessors, Finset.filter_eq_empty_iff]

section Ends

variable {compare : Fin n → Fin n → Except Error Dominance}

/-- Where a graph holds all comparisons, the fronts are the levels of its relation, the first one
and then those that are not empty. -/
theorem exists_eq_ok_of_records {g : DominanceGraph n} (hn : n ≠ 0)
    (hgraph : DominanceGraph.ofComparison compare = .ok g) (hg : g.Records r) :
    ∃ len, ofComparison compare = .ok (ofFronts ((List.range (len + 1)).map (level r))) ∧
      (∀ k < len, level r (k + 1) ≠ []) ∧ level r (len + 1) = [] := by
  obtain ⟨len, hlater, hne, hend⟩ := exists_laterFronts_eq_ok hg (k := 0) fun j => by
    rw [hg.count, pending_zero]
  simp only [Nat.zero_add, Nat.add_comm 1] at hlater hne hend
  refine ⟨len, ?_, hne, hend⟩
  have hstep : ofComparison compare = (do
      let later ← laterFronts g.dominated g.undominated g.dominators
      return ofFronts (g.undominated :: later)) := by
    rw [ofComparison, if_neg hn, hgraph]
    rfl
  rw [hstep, undominated_eq_level hg, hlater, List.range_succ_eq_map, List.map_cons, List.map_map]
  rfl

/-- If all comparisons succeed, the fronts are the levels of their verdicts. -/
theorem exists_ofComparison_eq_ok {verdict : Fin n → Fin n → Dominance} (hn : n ≠ 0)
    (h : ∀ i j, i < j → compare i j = .ok (verdict i j)) :
    ∃ len, ofComparison compare =
        .ok (ofFronts ((List.range (len + 1)).map (level (Outranks verdict)))) ∧
      (∀ k < len, level (Outranks verdict) (k + 1) ≠ []) ∧
      level (Outranks verdict) (len + 1) = [] := by
  obtain ⟨g, hgraph, hg⟩ := DominanceGraph.exists_ofComparison_eq_ok h
  exact exists_eq_ok_of_records hn hgraph hg

/-- Ranking fails exactly if a comparison does, and then with the error of the first that fails:
releasing the fronts raises no fault, whatever has been recorded. -/
theorem ofComparison_eq_error_iff {f : Failure} : ofComparison compare = .error f ↔
    ∃ e, f = .error e ∧ DominanceGraph.FailsFirst compare e := by
  simp only [← DominanceGraph.ofComparison_eq_error_iff]
  rcases eq_or_ne n 0 with rfl | hn
  · constructor
    · rintro ⟨⟩
    · rintro ⟨e, -, ⟨⟩⟩
  cases hgraph : DominanceGraph.ofComparison compare with
  | error e' =>
    have hfail : ofComparison compare = .error (.error e') := by
      rw [ofComparison, if_neg hn, hgraph]
      rfl
    simp only [hfail, Except.error.injEq, eq_comm (a := f), exists_eq_right']
  | ok g =>
    obtain ⟨len, hr, -⟩ :=
      exists_eq_ok_of_records hn hgraph (DominanceGraph.records_of_ofComparison_eq_ok hgraph)
    simp [hr]

theorem exists_graph_of_ofComparison_eq_ok {ranking : Ranking} (hn : n ≠ 0)
    (h : ofComparison compare = .ok ranking) : ∃ g, DominanceGraph.ofComparison compare = .ok g := by
  rw [ofComparison, if_neg hn] at h
  obtain ⟨g, hlift, -⟩ := bind_eq_ok.1 h
  exact ⟨g, mapError_eq_ok.1 hlift⟩

theorem exists_of_ofComparison_eq_ok {ranking : Ranking} (h : ofComparison compare = .ok ranking)
    {i j : Fin n} (hij : i < j) : ∃ verdict, compare i j = .ok verdict := by
  obtain ⟨g, hgraph⟩ := exists_graph_of_ofComparison_eq_ok (Nat.ne_zero_of_lt i.isLt) h
  exact DominanceGraph.exists_of_ofComparison_eq_ok hgraph hij

end Ends

theorem ofComparison_congr {n k : ℕ} (hn : n = k) {f : Fin n → Fin n → Except Error Dominance}
    {g : Fin k → Fin k → Except Error Dominance} (h : ∀ i j, f i j = g (i.cast hn) (j.cast hn)) :
    ofComparison f = ofComparison g := by
  subst hn
  exact congrArg ofComparison (funext₂ h)

/-! ### Comparisons that answer as grades do -/

open Classical in
/-- Verdicts that follow the grades of the items outrank as the grades do. -/
theorem outranks_ofValues {β : Type} [Preorder β] (grade : Fin n → β) :
    Outranks (fun i j => Dominance.ofValues (grade i) (grade j)) =
      fun i j => grade i < grade j := by
  funext i j
  simp only [Outranks, Dominance.ofValues_eq_left_iff, Dominance.ofValues_eq_right_iff]
  rcases lt_trichotomy i j with hij | rfl | hij
  · simp [hij, hij.not_gt]
  · simp
  · simp [hij, hij.not_gt]

open Classical in
/-- **Items are ranked exactly** if the comparison answers as their grades do. -/
theorem exists_isExact {β : Type} [Preorder β] {compare : Fin n → Fin n → Except Error Dominance}
    (grade : Fin n → β)
    (h : ∀ i j, i < j → compare i j = .ok (Dominance.ofValues (grade i) (grade j))) :
    ∃ r rank, ofComparison compare = .ok r ∧ r.IsExact (fun i j => grade i < grade j) rank := by
  obtain ⟨rank, hrank⟩ := Classical.axiom_of_choice fun i => exists_hasDepth
    (fun i j => grade i < grade j) (fun i => lt_irrefl _) (fun i j k => lt_trans) i
  rcases eq_or_ne n 0 with rfl | hn
  · exact ⟨_, rank, rfl, isExact_ofFronts 0 hrank (by simp) (by simp [level])⟩
  · obtain ⟨len, hr, hne, hend⟩ := exists_ofComparison_eq_ok hn h
    simp only [outranks_ofValues] at hr hne hend
    refine ⟨_, rank, hr, isExact_ofFronts (len + 1) hrank ?_ hend⟩
    rintro (_ | k) hk
    · intro hnil
      simpa using (hrank ⟨0, Nat.pos_of_ne_zero hn⟩).lt_of_level_eq_nil hnil
    · exact hne k (Nat.lt_of_succ_lt_succ hk)

variable {solutions : List (Solution D)}

open Classical in
theorem exists_ofSolutions_eq_ok {β : Type} [Preorder β] {compare : Comparison D}
    (grade : Solution D → β) (h : ∀ s ∈ solutions, ∀ t ∈ solutions,
      compare s t = .ok (Dominance.ofValues (grade s) (grade t))) :
    ∃ r rank, ofSolutions compare solutions = .ok r ∧
      r.IsExact (fun i j : Fin solutions.length => compare solutions[i] solutions[j] = .ok .left)
        rank := by
  have hcompare : ∀ i j : Fin solutions.length, compare solutions[i] solutions[j] =
      .ok (Dominance.ofValues (grade solutions[i]) (grade solutions[j])) := fun i j =>
    h _ (List.getElem_mem i.isLt) _ (List.getElem_mem j.isLt)
  simp only [hcompare, Except.ok.injEq, Dominance.ofValues_eq_left_iff]
  exact exists_isExact (fun i : Fin solutions.length => grade solutions[i]) fun i j _ =>
    hcompare i j

/-- **Solutions are ranked where any two of them can be compared**, and then exactly. -/
theorem exists_ofSolutions_eq_ok_of_pairwise (h : solutions.Pairwise Solution.Comparable) :
    ∃ r rank, ofSolutions paretoComparison solutions = .ok r ∧
      r.IsExact (fun i j : Fin solutions.length =>
        paretoComparison solutions[i] solutions[j] = .ok .left) rank := by
  classical
  have hcomparable : ∀ i j : Fin solutions.length, i < j → solutions[i].Comparable solutions[j] :=
    fun i j hij => List.pairwise_iff_getElem.1 h i j i.isLt j.isLt hij
  have hleft : ∀ i j : Fin solutions.length,
      paretoComparison solutions[i] solutions[j] = .ok .left ↔
        solutions[i].paretoGrade < solutions[j].paretoGrade := by
    intro i j
    rw [paretoComparison_eq_left_iff, and_iff_right_iff_imp]
    intro hlt
    rcases lt_trichotomy i j with hij | rfl | hij
    · exact hcomparable i j hij
    · exact absurd hlt (lt_irrefl _)
    · exact (hcomparable j i hij).symm
  simp only [hleft]
  exact exists_isExact (fun i : Fin solutions.length => solutions[i].paretoGrade) fun i j hij =>
    paretoComparison_eq_ok (hcomparable i j hij)

theorem pairwise_of_ofSolutions_eq_ok {r : Ranking}
    (h : ofSolutions paretoComparison solutions = .ok r) :
    solutions.Pairwise Solution.Comparable := by
  refine List.pairwise_iff_getElem.2 fun i j hi hj hij => ?_
  obtain ⟨verdict, hverdict⟩ := exists_of_ofComparison_eq_ok h
    (i := ⟨i, hi⟩) (j := ⟨j, hj⟩) hij
  exact comparable_of_violationFirst_eq_ok hverdict

theorem exists_isExact_of_ofSolutions_eq_ok {r : Ranking}
    (h : ofSolutions paretoComparison solutions = .ok r) :
    ∃ rank, r.IsExact (fun i j : Fin solutions.length =>
      paretoComparison solutions[i] solutions[j] = .ok .left) rank := by
  obtain ⟨r', rank, hr', hexact⟩ :=
    exists_ofSolutions_eq_ok_of_pairwise (pairwise_of_ofSolutions_eq_ok h)
  obtain rfl : r = r' := Except.ok.inj (h.symm.trans hr')
  exact ⟨rank, hexact⟩

/-- Ranking solutions raises no fault: what can be compared is ranked, and anything else is an
error. -/
theorem ofSolutions_ne_fault {compare : Comparison D} (solutions : List (Solution D)) (f : Fault) :
    ofSolutions compare solutions ≠ .error (.fault f) := by
  intro h
  obtain ⟨e, he, -⟩ := ofComparison_eq_error_iff.1 h
  cases he

/-- **Solutions are ranked exactly**, by Pareto dominance and by dominance of boxes: if they fit
together, the ranking succeeds, and it divides them by the longest chains of dominators. -/
theorem exists_ofSolutions_isExact {compare : Comparison D} {m c : ℕ}
    (hcompare : compare = paretoComparison ∨ ∃ ε : Epsilons, compare = ε.comparison)
    (hfits : ∀ s ∈ solutions, s.Fits m c) :
    ∃ r rank, ofSolutions compare solutions = .ok r ∧
      r.IsExact (fun i j : Fin solutions.length => compare solutions[i] solutions[j] = .ok .left)
        rank := by
  rcases hcompare with rfl | ⟨ε, rfl⟩
  · exact exists_ofSolutions_eq_ok Solution.paretoGrade fun s hs t ht =>
      paretoComparison_eq_ok ((hfits s hs).comparable (hfits t ht))
  · exact exists_ofSolutions_eq_ok ε.grade fun s hs t ht =>
      ε.comparison_eq_ok ((hfits s hs).comparable (hfits t ht))

/-- Three solutions along a chain, in reverse. -/
theorem exists_ofSolutions_isExact_of_chain : ∃ (solutions : List (Solution Unit)) (r : Ranking)
    (rank : Fin solutions.length → ℕ), solutions.length = 3 ∧
      ofSolutions paretoComparison solutions = .ok r ∧ r.IsExact (fun i j =>
        paretoComparison solutions[i] solutions[j] = .ok .left) rank := by
  have hs : ∀ s ∈ [Solution.ofEvaluation () ⟨[3.0, 2.5], []⟩,
      Solution.ofEvaluation () ⟨[2.0, 2.5], []⟩, Solution.ofEvaluation () ⟨[1.0, 0.5], []⟩],
      s.Fits 2 0 := by
    simp only [List.forall_mem_cons]
    refine ⟨⟨rfl, rfl, by decide, by decide⟩, ⟨rfl, rfl, by decide, by decide⟩,
      ⟨rfl, rfl, by decide, by decide⟩, by simp⟩
  obtain ⟨r, rank, hr, hexact⟩ := exists_ofSolutions_isExact (.inl rfl) hs
  exact ⟨_, r, rank, rfl, hr, hexact⟩

end ParetoSearch.Ranking
