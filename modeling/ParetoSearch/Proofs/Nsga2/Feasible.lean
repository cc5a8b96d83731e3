import Mathlib.Logic.Relation
import ParetoSearch.Proofs.Nsga2.Memory
import ParetoSearch.Proofs.Population.Feasible
import ParetoSearch.Random.ChaCha
import ParetoSearch.Rehearsal.Benchmark
import ParetoSearch.Rehearsal.Operators

/-!
# Feasible members over generations

NSGA-II keeps no count of feasible members, and a child takes the place of a parent
without asking whether it is feasible. Yet parents and children compete in one population
that is cut down to its old size, and there feasible members survive first. So a
generation has as many feasible members as parents and children had together, up to its
size, and none is lost over any number of generations (`feasible_kept`).
-/

namespace ParetoSearch.Nsga2

variable {ρ W D : Type} [Generator ρ] {a b : Nsga2 ρ W D} {w w' : W}

/-- As many feasible members are left behind a call as rivals and newcomers have among them, if
there is room. -/
theorem feasibleCount_of_run {call : Search.Call D} (h : call.run (a, w) = .ok () (b, w')) :
    b.population.feasibleCount = min b.population.length
      (Population.feasibleCount (a.rivals call ++ newcomers call (a, w))) := by
  obtain ⟨found, g, n, P, hadmitted, -, -, hP, rfl⟩ := exists_of_run_eq_ok h
  rw [newcomers_eq hadmitted]
  exact Population.feasibleCount_of_truncate_eq_ok hP

/-- A step that is not the first one, in some world, leads from the one to the other. -/
def Generation (a b : Nsga2 ρ W D) : Prop :=
  a.started = true ∧ ∃ w w', Search.step (a, w) = .ok () (b, w')

theorem Generation.feasibleCount_le (h : Generation a b) :
    a.population.feasibleCount ≤ b.population.feasibleCount := by
  obtain ⟨hstarted, w, w', hstep⟩ := h
  have hrun : Search.Call.step.run (a, w) = .ok () (b, w') := hstep
  have hrivals : a.rivals .step = a.population := if_pos hstarted
  have hlength : b.population.length = a.population.length :=
    (length_of_run hrun).trans (if_pos hstarted)
  rw [feasibleCount_of_run hrun, hlength, hrivals]
  refine le_min List.countP_le_length ?_
  rw [Population.feasibleCount, Population.feasibleCount, List.countP_append]
  exact Nat.le_add_right _ _

/-- **Feasible members are kept**: in a step that is not the first one as many children as there are
members join the population, it is cut down to its old size, and as many of the members left are
feasible as parents and children were together, or all of them. So the number of feasible members
never decreases over generations, each of which may find another world. -/
theorem feasible_kept :
    (∀ {a b : Nsga2 ρ W D} {w w' : W}, a.started = true → Search.step (a, w) = .ok () (b, w') →
      (newcomers .step (a, w)).length = a.population.length ∧
      b.population.length = a.population.length ∧
      b.population.feasibleCount = min b.population.length
        (Population.feasibleCount (a.population ++ newcomers .step (a, w)))) ∧
    ∀ {a b : Nsga2 ρ W D}, Relation.ReflTransGen Generation a b →
      a.population.feasibleCount ≤ b.population.feasibleCount := by
  constructor
  · intro a b w w' hstarted hstep
    have hrun : Search.Call.step.run (a, w) = .ok () (b, w') := hstep
    have hroom : a.room .step = a.population.length := if_pos hstarted
    have hrivals : a.rivals .step = a.population := if_pos hstarted
    refine ⟨(length_newcomers hrun).trans hroom, (length_of_run hrun).trans hroom, ?_⟩
    rw [feasibleCount_of_run hrun, hrivals]
  · intro a b h
    induction h with
    | refl => exact le_rfl
    | tail _ hlast ih => exact ih.trans hlast.feasibleCount_le

open Rehearsal

/-- A problem with one objective and one constraint, and two decisions to give out, of which one
breaks the constraint. -/
def oneBroken : Problem ChaCha Stage (List Float) :=
  BenchmarkProblem.toProblem
    { function := .identity 1, objectives := 1, constraints := 1, bounds := []
      decisions := [[1.0, 0.5], [2.0, 0.0]], raiseFlagAt := none }

/-- Of the children of a feasible member one is feasible, and it takes the place of the member that
is not. -/
theorem feasible_kept_of_shift : ∃ (a b : Nsga2 ChaCha Stage (List Float)) (w w' : Stage),
    a.started = true ∧ Search.step (a, w) = .ok () (b, w') ∧
    a.population.feasibleCount = 1 ∧ b.population.feasibleCount = 2 ∧
    b.population.length = a.population.length ∧
    b.population.feasibleCount = min b.population.length
      (Population.feasibleCount (a.population ++ newcomers .step (a, w))) ∧
    a.population.feasibleCount ≤ b.population.feasibleCount := by
  have hsteps : (firstCall (Nsga2.ofConfig 0 oneBroken (shift 1 [0.0, -0.5])
      { populationSize := 2 }) .step ({} : Stage)).any (fun s =>
        s.1.started && s.1.population.feasibleCount == 1 && match Search.Call.step.run s with
        | .error _ _ => false
        | .ok _ t => t.1.population.feasibleCount == 2) = true := by decide +kernel
  obtain ⟨a₀, s, -, -, hsteps⟩ := exists_of_firstCall hsteps
  simp only [Bool.and_eq_true, beq_iff_eq] at hsteps
  obtain ⟨⟨hstarted, hone⟩, hsteps⟩ := hsteps
  cases hrun : Search.Call.step.run s with
  | error e t => simp [hrun] at hsteps
  | ok _ t =>
    simp only [hrun, beq_iff_eq] at hsteps
    obtain ⟨-, hlength, hcount⟩ := (feasible_kept (ρ := ChaCha)).1 hstarted hrun
    have hle := (feasible_kept (ρ := ChaCha)).2 (.single ⟨hstarted, s.2, t.2, hrun⟩)
    exact ⟨s.1, t.1, s.2, t.2, hstarted, hrun, hone, hsteps, hlength, hcount, hle⟩

end ParetoSearch.Nsga2
