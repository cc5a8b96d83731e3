import ParetoSearch.EpsilonNsga2
import ParetoSearch.Proofs.Nsga2.Memory
import ParetoSearch.Random.ChaCha
import ParetoSearch.Rehearsal.Benchmark
import ParetoSearch.Rehearsal.Operators

/-!
# What has been seen is covered

Every solution that a call of NSGA-II brings, whether it is made or given, is offered to
the archive before anything is dropped. So whatever has been seen in a run of successful
calls is covered by the archive from then on, however often its cover changes, although
truncation may have dropped it long ago. For an ε-NSGA-II this holds as well: it acts
through the calls of its inner algorithm, and a rebuilt population is one of them.
-/

namespace ParetoSearch

variable {ρ W D : Type}

namespace Nsga2

variable [Generator ρ]

/-- Runs of successful calls, with the solutions that are seen. Each call may find another
world. -/
inductive History (a : Nsga2 ρ W D) : List (Solution D) → Nsga2 ρ W D → Prop
  | start : History a [] a
  | call {seen : List (Solution D)} {b c : Nsga2 ρ W D} {w w' : W} (call : Search.Call D)
      (hhistory : History a seen b) (hcall : call.run (b, w) = .ok () (c, w')) :
      History a (seen ++ newcomers call (b, w)) c

variable {a b : Nsga2 ρ W D} {A : Archive D} {seen : List (Solution D)}

namespace History

theorem remembers (h : History a seen b) (ha : a.Remembers []) : b.Remembers seen := by
  induction h with
  | start => exact ha
  | call _ _ hcall ih => exact ih.run hcall

theorem population_seen (h : History a seen b) (hnone : a.population = []) :
    ∀ s ∈ b.population, ∃ t ∈ seen, Entry.ofSolution s = Entry.ofSolution t := by
  induction h with
  | start => simp [hnone]
  | @call _ b _ _ _ call _ hcall ih =>
    intro s hs
    obtain ⟨t, ht, heq⟩ := exists_mem_of_run hcall s hs
    rcases List.mem_append.1 (b.rivals_append_subset call _ ht) with ht | ht
    · obtain ⟨u, hu, heq'⟩ := ih t ht
      exact ⟨u, List.mem_append_left _ hu, heq.trans heq'⟩
    · exact ⟨t, List.mem_append_right _ ht, heq⟩

/-- An archive that could be reached covers what has been seen. -/
theorem exists_archive (h : History a seen b) (ha : a.archive = some A) (hA : A.Reachable) :
    ∃ B, b.archive = some B ∧ ∀ s ∈ seen, B.Refuses s := by
  obtain ⟨B, hB, hsound, hcovers⟩ := h.remembers ⟨A, ha, hA.sound, by simp⟩
  exact ⟨B, hB, fun s hs => (hcovers s hs).refuses hsound⟩

end History

end Nsga2

namespace EpsilonNsga2

open Nsga2 (newcomers)

section Runs

variable [Generator ρ]

/-- Runs of successful calls, with the solutions that are seen: those that the calls of the inner
algorithm bring. -/
inductive History (c₀ : EpsilonNsga2 ρ W D) : List (Solution D) → EpsilonNsga2 ρ W D → Prop
  | start : History c₀ [] c₀
  | step {seen : List (Solution D)} {c d : EpsilonNsga2 ρ W D} {w w' : W}
      {calls : List (Search.Call D × Nsga2 ρ W D × W)} (hhistory : History c₀ seen c)
      (hstep : Search.step (c, w) = .ok () (d, w'))
      (hpassage : Continuation.Passage (c, w) calls (d, w')) :
      History c₀ (seen ++ calls.flatMap fun p => newcomers p.1 p.2) d
  | replacePopulation {seen solutions : List (Solution D)} {c d : EpsilonNsga2 ρ W D} {w w' : W}
      (hhistory : History c₀ seen c)
      (hreplace : Search.replacePopulation solutions (c, w) = .ok () (d, w')) :
      History c₀ (seen ++ newcomers (.replacePopulation solutions) (c.inner, w)) d

variable {c₀ c d : EpsilonNsga2 ρ W D} {seen : List (Solution D)}

theorem History.exists_step {w w' : W} (h : History c₀ seen c)
    (hstep : Search.step (c, w) = .ok () (d, w')) : ∃ more, History c₀ (seen ++ more) d := by
  obtain ⟨calls, hpassage⟩ := Continuation.exists_passage_of_step hstep
  exact ⟨_, .step h hstep hpassage⟩

theorem History.exists_stepMany {n : ℕ} {w w' : W}
    (hsteps : Search.stepMany n (c₀, w) = .ok () (c, w')) : ∃ seen, History c₀ seen c := by
  refine Search.of_stepMany (P := fun s => ∃ seen, History c₀ seen s.1) ?_ ⟨[], .start⟩ hsteps
  rintro s t ⟨seen, h⟩ hstep
  obtain ⟨more, h⟩ := h.exists_step hstep
  exact ⟨_, h⟩

/-- The inner algorithm makes a run of its own, in which the same is seen. -/
theorem History.inner (h : History c₀ seen c) : Nsga2.History c₀.inner seen c.inner := by
  induction h with
  | start => exact .start
  | step _ _ hpassage ih =>
    cases hpassage with
    | quiet hstep =>
      rw [List.flatMap_singleton]
      exact ih.call .step hstep
    | held harrives =>
      rw [List.flatMap_singleton]
      exact ih.call .step harrives.step_eq
    | rebuilt harrives hrenews hreplace =>
      have hstep := ih.call .step harrives.step_eq
      have hboth := hstep.call (.replacePopulation _) hreplace
      simpa using hboth
  | @replacePopulation _ solutions c _ w _ _ hreplace ih =>
    change Continuation.onInner (Search.replacePopulation solutions) (c, w) = _ at hreplace
    rw [Continuation.onInner_apply] at hreplace
    cases hinner : Search.replacePopulation solutions (c.inner, w) with
    | error e s => simp [hinner] at hreplace
    | ok _ s =>
      simp only [hinner] at hreplace
      cases hreplace
      exact ih.call (.replacePopulation _) hinner

end Runs

/-- An algorithm that is made has an archive, and nothing in its population. -/
theorem exists_archive_of_ofPerturbation [Seedable ρ] {entropy : UInt64} {problem : Problem ρ W D}
    {variation perturbation : Variation ρ W D} {config : EpsilonNsga2Config}
    {c₀ : EpsilonNsga2 ρ W D}
    (hc₀ : ofPerturbation entropy problem variation perturbation config = .ok c₀) :
    ∃ A, c₀.inner.archive = some A ∧ A.Reachable ∧ c₀.inner.population = [] := by
  obtain ⟨ε, A, a, hA, ha, hc₀⟩ := exists_of_ofPerturbation_eq_ok hc₀
  obtain ⟨-, -, _, -, rfl⟩ := Continuation.ofConfig_eq_ok.1 hc₀
  obtain ⟨-, -, rfl⟩ := Nsga2.ofConfig_eq_ok.1 ha
  exact ⟨A, rfl, .withDimensions hA, rfl⟩

/-- **Whatever has been seen is covered**: in every run of successful calls of an NSGA-II with an
archive, and in every such run of an ε-NSGA-II, the archive would refuse each solution that was ever
evaluated or given, since a member is better or holds its box with the same violation and is no
further from the corner. -/
theorem archive_refuses_seen [Seedable ρ] :
    (∀ {a b : Nsga2 ρ W D} {A : Archive D} {seen : List (Solution D)},
      a.archive = some A → A.Reachable → Nsga2.History a seen b →
        ∃ B, b.archive = some B ∧ ∀ s ∈ seen, B.Refuses s) ∧
    ∀ {entropy : UInt64} {problem : Problem ρ W D} {variation perturbation : Variation ρ W D}
      {config : EpsilonNsga2Config} {c₀ c : EpsilonNsga2 ρ W D} {seen : List (Solution D)},
      ofPerturbation entropy problem variation perturbation config = .ok c₀ → History c₀ seen c →
        ∃ B, Search.archive c = some B ∧ ∀ s ∈ seen, B.Refuses s := by
  constructor
  · intro a b A seen ha hA h
    exact h.exists_archive ha hA
  · intro entropy problem variation perturbation config c₀ c seen hc₀ h
    obtain ⟨A, hA, hreachable, -⟩ := exists_archive_of_ofPerturbation hc₀
    exact h.inner.exists_archive hA hreachable

open Rehearsal

/-- A problem with two decisions to give out, in boxes of which neither is better. -/
def twoCorners : Problem ChaCha Stage (List Float) :=
  BenchmarkProblem.toProblem
    { function := .identity 2, objectives := 2, constraints := 0, bounds := []
      decisions := [[0.5, 2.5], [2.5, 0.5]], raiseFlagAt := none }

/-- A check behind each step, and two members in every population. -/
def checkingPairs : EpsilonNsga2Config where
  epsilons := [1.0, 1.0]
  nsga2 := { populationSize := 2 }
  continuation := { window := 1, maxWindow := 2, minimumPopulation := 2, maximumPopulation := 2 }

/-- In the second step no child is better than its parent, so the population is rebuilt. -/
theorem archive_refuses_seen_of_stalled : ∃ (c₀ c : EpsilonNsga2 ChaCha Stage (List Float))
    (A : Archive (List Float)) (seen : List (Solution (List Float))),
    ofPerturbation 0 twoCorners (shift 1 [1.0]) (shift 1 [-0.25]) checkingPairs = .ok c₀ ∧
    c₀.inner.archive = some A ∧ A.Reachable ∧ History c₀ seen c ∧ seen ≠ [] ∧
    c.progress.resizes.length = 1 ∧
    (∃ B, c.inner.archive = some B ∧ ∀ s ∈ seen, B.Refuses s) ∧
    ∃ B, Search.archive c = some B ∧ ∀ s ∈ seen, B.Refuses s := by
  have hends : (match ofPerturbation 0 twoCorners (shift 1 [1.0]) (shift 1 [-0.25])
      checkingPairs with
    | .error _ => false
    | .ok c₀ => match Search.stepMany 2 (c₀, {}) with
      | .ok _ s => s.1.progress.resizes.length == 1 && s.1.inner.population.length == 2
      | .error _ _ => false) = true := by decide +kernel
  cases hc₀ : ofPerturbation 0 twoCorners (shift 1 [1.0]) (shift 1 [-0.25]) checkingPairs with
  | error e => simp [hc₀] at hends
  | ok c₀ =>
    simp only [hc₀] at hends
    cases hsteps : Search.stepMany 2 (c₀, {}) with
    | error e s => simp [hsteps] at hends
    | ok _ s =>
      simp only [hsteps, Bool.and_eq_true, beq_iff_eq] at hends
      obtain ⟨A, hA, hreachable, hnone⟩ := exists_archive_of_ofPerturbation hc₀
      obtain ⟨seen, h⟩ := History.exists_stepMany hsteps
      refine ⟨c₀, s.1, A, seen, rfl, hA, hreachable, h, ?_, hends.1,
        archive_refuses_seen.1 hA hreachable h.inner, archive_refuses_seen.2 hc₀ h⟩
      rintro rfl
      have hseen := h.inner.population_seen hnone
      obtain ⟨t, ht⟩ := List.exists_mem_of_length_pos (hends.2 ▸ two_pos)
      simpa using hseen t ht

end EpsilonNsga2

end ParetoSearch
