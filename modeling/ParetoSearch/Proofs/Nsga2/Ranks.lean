import ParetoSearch.Proofs.Nsga2.Calls
import ParetoSearch.Proofs.Population.Room
import ParetoSearch.Random.ChaCha
import ParetoSearch.Rehearsal.Benchmark
import ParetoSearch.Rehearsal.Operators

/-!
# Ranks between calls

A tournament reads the ranks that cutting the population down has left on the members,
where they were found among more members than are left. They are the ranks of the
members among each other all the same, so between the calls of NSGA-II the population is
always ranked, and cutting it down once more would neither drop a member nor change a
rank (`Nsga2.ranks_exact`).
-/

namespace ParetoSearch

variable {ρ W D : Type}

/-- In a tournament among ranked members the true ranks decide, where they differ. -/
theorem Population.Ranked.crowdedBetter_eq {P : Population D} {r : Ranking}
    {rank : Fin P.length → ℕ} (h : P.Ranked r rank) {i j : Fin P.length} (hne : rank i ≠ rank j) :
    (P.get i).crowdedBetter (P.get j) = decide (rank i < rank j) := by
  simp only [Solution.crowdedBetter, h.rank_eq, Option.getD_some, ne_eq, hne, not_false_eq_true,
    if_true]

namespace Nsga2

variable [Generator ρ]

theorem exists_truncate_of_run_eq_ok {call : Search.Call D} {a b : Nsga2 ρ W D} {w w' : W}
    (h : call.run (a, w) = .ok () (b, w')) :
    ∃ P size, Population.truncate size P = .ok () b.population := by
  obtain ⟨found, g, n, P, -, -, -, hP, rfl⟩ := exists_of_run_eq_ok h
  exact ⟨_, _, hP⟩

/-- **The stored ranks are the ranks of the population as it is**: what is left of a population that
was cut down is ranked, and cutting it down to the same size again leaves every member in its place
with what it is and its rank. So the population is ranked after every call of NSGA-II that succeeds,
and tournaments go by the members' ranks among each other. -/
theorem ranks_exact :
    (∀ {size : ℕ} {P P' : Population D}, Population.truncate size P = .ok () P' →
      (∃ r rank, P'.Ranked r rank) ∧
      ∃ P'', Population.truncate size P' = .ok () P'' ∧
        P''.map (fun s => (s.decision, s.objectives, s.constraints, s.rank)) =
          P'.map fun s => (s.decision, s.objectives, s.constraints, s.rank)) ∧
    ∀ {call : Search.Call D} {a b : Nsga2 ρ W D} {w w' : W},
      call.run (a, w) = .ok () (b, w') → ∃ r rank, b.population.Ranked r rank ∧
        ∀ i j, rank i ≠ rank j →
          (b.population.get i).crowdedBetter (b.population.get j) = decide (rank i < rank j) := by
  constructor
  · intro size P P' h
    obtain ⟨-, hlength, -⟩ := Population.exists_of_truncate_eq_ok h
    obtain ⟨r, rank, hranked⟩ := Population.exists_ranked_of_truncate_eq_ok h
    have hroom : P'.length ≤ size := hlength.trans_le (min_le_left _ _)
    obtain ⟨P'', hP'', hsame⟩ := hranked.exists_truncate_eq_ok hroom
    refine ⟨⟨r, rank, hranked⟩, P'', hP'', ?_⟩
    have hfields := congrArg (List.map fun e : Entry D × Option ℕ =>
      (e.1.decision, e.1.objectives, e.1.constraints, e.2)) hsame
    rw [List.map_map, List.map_map] at hfields
    exact hfields
  · intro call a b w w' h
    obtain ⟨P, size, hP⟩ := exists_truncate_of_run_eq_ok h
    obtain ⟨r, rank, hranked⟩ := Population.exists_ranked_of_truncate_eq_ok hP
    exact ⟨r, rank, hranked, fun i j hne => hranked.crowdedBetter_eq hne⟩

open Rehearsal

/-- Two corners and what lies between them are behind one member, and there is room for three. -/
def behindOne : Population Unit :=
  [[2.0, 4.0], [1.0, 1.0], [3.0, 3.0], [4.0, 2.0]].map fun v => Solution.ofEvaluation () ⟨v, []⟩

/-- A problem with two decisions to give out, one behind the other. -/
def onDiagonal : Problem ChaCha Stage (List Float) :=
  BenchmarkProblem.toProblem
    { function := .identity 2, objectives := 2, constraints := 0, bounds := []
      decisions := [[1.0, 1.0], [2.0, 2.0]], raiseFlagAt := none }

/-- A member between two others is dropped, and these keep their rank behind a third; and a search
goes on with two members of which one is behind the other. -/
theorem ranks_exact_of_cut : ∃ (P' P'' : Population Unit) (a b : Nsga2 ChaCha Stage (List Float))
    (w w' : Stage), Population.truncate 3 behindOne = .ok () P' ∧
    P'.map Solution.rank = [some 1, some 0, some 1] ∧ (∃ r rank, P'.Ranked r rank) ∧
    Population.truncate 3 P' = .ok () P'' ∧ P''.map Solution.rank = P'.map Solution.rank ∧
    a.started = true ∧ Search.Call.step.run (a, w) = .ok () (b, w') ∧
    b.population.map Solution.rank = [some 0, some 1] ∧ ∃ r rank, b.population.Ranked r rank := by
  have hcut : (match Population.truncate 3 behindOne with
      | .error _ _ => false
      | .ok _ P' => P'.map Solution.rank == [some 1, some 0, some 1]) = true := by decide +kernel
  have hsteps : (match Nsga2.ofConfig 0 onDiagonal (shift 1 [1.0]) { populationSize := 2 } with
      | .error _ => false
      | .ok a₀ => match Search.step (a₀, ({} : Stage)) with
        | .error _ _ => false
        | .ok _ s => s.1.started && match Search.Call.step.run s with
          | .error _ _ => false
          | .ok _ t => t.1.population.map Solution.rank == [some 0, some 1]) = true := by
    decide +kernel
  cases hP' : Population.truncate 3 behindOne with
  | error e P' => simp [hP'] at hcut
  | ok _ P' =>
    simp only [hP', beq_iff_eq] at hcut
    obtain ⟨hranked, P'', hP'', hsame⟩ := (ranks_exact (ρ := ChaCha) (W := Stage)).1 hP'
    have hranks := congrArg (List.map fun e : Unit × List Float × List Float × Option ℕ =>
      e.2.2.2) hsame
    rw [List.map_map, List.map_map] at hranks
    cases ha₀ : Nsga2.ofConfig 0 onDiagonal (shift 1 [1.0]) { populationSize := 2 } with
    | error e => simp [ha₀] at hsteps
    | ok a₀ =>
      simp only [ha₀] at hsteps
      cases hstart : Search.step (a₀, ({} : Stage)) with
      | error e s => simp [hstart] at hsteps
      | ok _ s =>
        simp only [hstart, Bool.and_eq_true] at hsteps
        cases hrun : Search.Call.step.run s with
        | error e t => simp [hrun] at hsteps
        | ok _ t =>
          simp only [hrun, beq_iff_eq] at hsteps
          obtain ⟨r, rank, hranked', -⟩ := (ranks_exact (ρ := ChaCha)).2 hrun
          exact ⟨P', P'', s.1, t.1, s.2, t.2, rfl, hcut, hranked, hP'', hranks, hsteps.1, hrun,
            hsteps.2, r, rank, hranked'⟩

end Nsga2

end ParetoSearch
