import ParetoSearch.EpsilonNsga2
import ParetoSearch.Proofs.Continuation.Resizes
import ParetoSearch.Proofs.Nsga2.Memory
import ParetoSearch.Random.ChaCha
import ParetoSearch.Rehearsal.Benchmark
import ParetoSearch.Rehearsal.Operators

/-!
# The size of the population

An ε-NSGA-II has no population before the first step of its inner algorithm succeeds, and
from then on one of the size that the last rebuild has recorded, or of the configured
size if there has been none (`sizes_recorded`). It does not matter how many children the
operators make, nor which steps end in an error.

A step of the inner algorithm keeps the size of its population, and a replacement gives
it the size of what replaces it (`Nsga2.Sized`). A rebuild makes as many solutions as it
records, because the random ones among them are no more than all of them
(`Continuation.injectedCount_le`).
-/

namespace ParetoSearch

variable {ρ W D : Type}

/-! ### The inner algorithm -/

namespace Nsga2

/-- The algorithm has taken `k` steps. Before the first it has no population, and then one of this
size; the first size is the configured one. -/
structure Sized (k size : ℕ) (a : Nsga2 ρ W D) : Prop where
  remembers : a.Remembers a.population
  steps_eq : a.steps = k
  started_iff : a.started ↔ k ≠ 0
  length_eq : a.population.length = if k = 0 then 0 else size
  size_eq : k = 0 → size = a.config.populationSize

namespace Sized

variable {k size : ℕ} {a b : Nsga2 ρ W D} {w w' : W}

theorem room_step (h : a.Sized k size) : a.room .step = size := by
  by_cases hk : k = 0
  · have hstarted : ¬a.started := fun hs => h.started_iff.1 hs hk
    rw [room, if_neg hstarted, h.size_eq hk]
  · rw [room, if_pos (h.started_iff.2 hk), h.length_eq, if_neg hk]

variable [Generator ρ]

theorem step (h : a.Sized k size) (hstep : Search.step (a, w) = .ok () (b, w')) :
    b.Sized (k + 1) size := by
  have hrun : Search.Call.step.run (a, w) = .ok () (b, w') := hstep
  obtain ⟨found, g, n, P, -, -, -, -, hb⟩ := exists_of_run_eq_ok hrun
  refine ⟨h.remembers.run_population hrun, ?_, ?_, ?_, nofun⟩
  · rw [hb, ← h.steps_eq]
    rfl
  · rw [hb]
    exact iff_of_true rfl k.succ_ne_zero
  · rw [length_of_run hrun, h.room_step, if_neg k.succ_ne_zero]

theorem replacePopulation (h : a.Sized k size) (hk : k ≠ 0) {solutions : List (Solution D)}
    (hreplace : Search.replacePopulation solutions (a, w) = .ok () (b, w')) :
    b.Sized k solutions.length := by
  have hrun : (Search.Call.replacePopulation solutions).run (a, w) = .ok () (b, w') := hreplace
  obtain ⟨found, g, n, P, -, -, -, -, hb⟩ := exists_of_run_eq_ok hrun
  refine ⟨h.remembers.run_population hrun, ?_, ?_, ?_, fun h => absurd h hk⟩
  · rw [hb, ← h.steps_eq]
    rfl
  · rw [hb]
    exact iff_of_true rfl hk
  · rw [length_of_run hrun, if_neg hk]
    rfl

theorem of_run_eq_error (h : a.Sized k size) (call : Search.Call D) {e : Error}
    (hrun : call.run (a, w) = .error (.error e) (b, w')) : b.Sized k size := by
  obtain ⟨offered, g, n, rfl⟩ := h.remembers.of_run_eq_error hrun
  have hdrawn : (a.drawn g).Remembers a.population := h.remembers
  exact ⟨hdrawn.fed n offered, h.steps_eq, h.started_iff, h.length_eq, h.size_eq⟩

end Sized

theorem sized_withArchive [Seedable ρ] {entropy : UInt64} {problem : Problem ρ W D}
    {variation : Variation ρ W D} {config : Nsga2Config} {a : Nsga2 ρ W D} {A : Archive D}
    (ha : ofConfig entropy problem variation config = .ok a) (hA : A.Sound) :
    (a.withArchive A).Sized 0 config.populationSize := by
  obtain ⟨-, -, rfl⟩ := ofConfig_eq_ok.1 ha
  exact ⟨⟨A, rfl, hA, by simp [withArchive]⟩, rfl, by simp [withArchive], rfl, fun _ => rfl⟩

end Nsga2

/-! ### Runs -/

namespace EpsilonNsga2

open Continuation (Passage Setback)

/-- The size that the last record names; `n` if there is none. -/
def lastSize (n : ℕ) (p : Progress) : ℕ := (p.lastResize?.map Resize.newPopulation).getD n

/-- The records make a chain of sizes from `n` on: each rebuild starts from the size at which the
one before it has left the population. -/
structure Linked (n : ℕ) (records : List Resize) : Prop where
  first : ∀ r ∈ records.head?, r.oldPopulation = n
  later : records.IsChain fun r s => s.oldPopulation = r.newPopulation

theorem Linked.concat {n : ℕ} {p : Progress} {r : Resize} (h : Linked n p.resizes)
    (hr : r.oldPopulation = lastSize n p) : Linked n (p.resizes ++ [r]) := by
  rw [lastSize, Progress.lastResize?] at hr
  rcases List.eq_nil_or_concat' p.resizes with hnil | ⟨earlier, last, hlast⟩
  · rw [hnil] at hr ⊢
    exact ⟨by simpa using hr, List.isChain_singleton _⟩
  · rw [hlast, List.getLast?_concat] at hr
    constructor
    · rw [List.head?_append_of_ne_nil _ (by simp [hlast])]
      exact h.first
    · rw [List.isChain_append]
      refine ⟨h.later, List.isChain_singleton _, ?_⟩
      simpa [hlast] using hr

section Runs

variable [Generator ρ] {config : EpsilonNsga2Config} {k : ℕ} {c₀ c d : EpsilonNsga2 ρ W D}
  {w w' : W}

/-- The population has the size that the records tell, and the records make a chain; the inner
algorithm has taken `k` steps. -/
structure Recorded (config : EpsilonNsga2Config) (k : ℕ) (c : EpsilonNsga2 ρ W D) : Prop where
  config_eq : c.config = config.continuation
  sized : c.inner.Sized k (lastSize config.nsga2.populationSize c.progress)
  linked : Linked config.nsga2.populationSize c.progress.resizes

/-- One if the inner algorithm's own step succeeds. -/
def innerSteps (s : EpsilonNsga2 ρ W D × W) : ℕ :=
  match Search.step (s.1.inner, s.2) with
  | .ok _ _ => 1
  | .error _ _ => 0

/-- A step that succeeds has begun with one of the inner algorithm. -/
theorem innerSteps_eq_one {calls : List (Search.Call D × Nsga2 ρ W D × W)}
    (h : Passage (c, w) calls (d, w')) : innerSteps (c, w) = 1 := by
  cases h with
  | quiet hstep => rw [innerSteps, hstep]
  | held harrives => rw [innerSteps, harrives.step_eq]
  | rebuilt harrives => rw [innerSteps, harrives.step_eq]

namespace Recorded

theorem arrives (h : Recorded config k c) (harrives : c.Arrives w d w') :
    Recorded config (k + 1) d := by
  have hsized := h.sized.step harrives.step_eq
  rw [harrives.eq_atCheck]
  exact ⟨h.config_eq, hsized, h.linked⟩

theorem length_of_renews (h : Recorded config k c)
    (hconfig : config.continuation.validate = .ok ())
    (hmax : config.continuation.maximumPopulation ≤ 2 ^ 53) {w₁ : W} {r : Resize}
    {solutions : List (Solution D)} {g : ρ} (hrenews : c.Renews w r solutions g w₁) :
    solutions.length = r.newPopulation := by
  refine hrenews.length_eq ?_
  have hle := (Continuation.newSize_bounds hrenews.newSize_eq).2
  rw [h.config_eq] at hle
  rw [hrenews.record_eq]
  show Continuation.injectedCount c.config r.newPopulation ≤ r.newPopulation
  rw [h.config_eq]
  exact Continuation.injectedCount_le hconfig (hle.trans hmax)

/-- A rebuild replaces the population by what it has made. -/
theorem rebuilt (h : Recorded config k c) (hk : k ≠ 0)
    (hconfig : config.continuation.validate = .ok ())
    (hmax : config.continuation.maximumPopulation ≤ 2 ^ 53) {w₁ w₂ : W} {r : Resize}
    {solutions : List (Solution D)} {g : ρ} {a : Nsga2 ρ W D}
    (hrenews : c.Renews w r solutions g w₁)
    (hreplace : Search.replacePopulation solutions (c.inner, w₁) = .ok () (a, w₂)) :
    Recorded config k (c.rebuilt g a r) := by
  have hold : r.oldPopulation = lastSize config.nsga2.populationSize c.progress := by
    rw [hrenews.record_eq]
    exact h.sized.length_eq.trans (if_neg hk)
  refine ⟨h.config_eq, ?_, h.linked.concat hold⟩
  have hsize : lastSize config.nsga2.populationSize (c.rebuilt g a r).progress =
      r.newPopulation := by simp [lastSize, Progress.lastResize?]
  rw [hsize, ← h.length_of_renews hconfig hmax hrenews]
  exact h.sized.replacePopulation hk hreplace

theorem passage (h : Recorded config k c) (hconfig : config.continuation.validate = .ok ())
    (hmax : config.continuation.maximumPopulation ≤ 2 ^ 53)
    {calls : List (Search.Call D × Nsga2 ρ W D × W)} (hpassage : Passage (c, w) calls (d, w')) :
    Recorded config (k + innerSteps (c, w)) d := by
  rw [innerSteps_eq_one hpassage]
  cases hpassage with
  | quiet hstep => exact ⟨h.config_eq, h.sized.step hstep, h.linked⟩
  | held harrives =>
    have hchecked := h.arrives harrives
    exact ⟨hchecked.config_eq, hchecked.sized, hchecked.linked⟩
  | rebuilt harrives hrenews hreplace =>
    exact (h.arrives harrives).rebuilt k.succ_ne_zero hconfig hmax hrenews hreplace

/-- A step that ends in an error changes no size and records nothing. -/
theorem setback (h : Recorded config k c) {e : Error} (hsetback : Setback e (c, w) (d, w')) :
    Recorded config (k + innerSteps (c, w)) d := by
  cases hsetback with
  | step hstep =>
    have hsteps : innerSteps (c, w) = 0 := by rw [innerSteps, hstep]
    have hsized := h.sized.of_run_eq_error .step hstep
    rw [hsteps]
    exact ⟨h.config_eq, hsized, h.linked⟩
  | replacePopulation harrives _ hreplace =>
    have hsteps : innerSteps (c, w) = 1 := by rw [innerSteps, harrives.step_eq]
    rw [hsteps]
    have hchecked := h.arrives harrives
    have hsized := hchecked.sized.of_run_eq_error (.replacePopulation _) hreplace
    exact ⟨hchecked.config_eq, hsized, hchecked.linked⟩

end Recorded

/-- Runs of steps, each of which succeeds or ends in an error, with the number of steps of the inner
algorithm that succeed. Each step may find another world. A fault ends the search. -/
inductive Attempts (c₀ : EpsilonNsga2 ρ W D) : ℕ → EpsilonNsga2 ρ W D → Prop
  | start : Attempts c₀ 0 c₀
  | step {k : ℕ} {c d : EpsilonNsga2 ρ W D} {w w' : W} (hattempts : Attempts c₀ k c)
      (hstep : Search.step (c, w) = .ok () (d, w')) : Attempts c₀ (k + innerSteps (c, w)) d
  | failedStep {k : ℕ} {c d : EpsilonNsga2 ρ W D} {w w' : W} {e : Error}
      (hattempts : Attempts c₀ k c) (hstep : Search.step (c, w) = .error (.error e) (d, w')) :
      Attempts c₀ (k + innerSteps (c, w)) d

theorem Attempts.recorded (h : Attempts c₀ k c) (h₀ : Recorded config 0 c₀)
    (hconfig : config.continuation.validate = .ok ())
    (hmax : config.continuation.maximumPopulation ≤ 2 ^ 53) : Recorded config k c := by
  induction h with
  | start => exact h₀
  | step _ hstep ih =>
    obtain ⟨calls, hpassage⟩ := Continuation.exists_passage_of_step hstep
    exact ih.passage hconfig hmax hpassage
  | failedStep _ hstep ih => exact ih.setback (Continuation.setback_of_step hstep)

end Runs

/-- A new algorithm has recorded nothing, and its configuration makes sense. -/
theorem recorded_of_ofPerturbation [Seedable ρ] {entropy : UInt64} {problem : Problem ρ W D}
    {variation perturbation : Variation ρ W D} {config : EpsilonNsga2Config}
    {c₀ : EpsilonNsga2 ρ W D}
    (hc₀ : ofPerturbation entropy problem variation perturbation config = .ok c₀) :
    config.continuation.validate = .ok () ∧ Recorded config 0 c₀ := by
  obtain ⟨ε, A, a, hA, ha, hc₀⟩ := exists_of_ofPerturbation_eq_ok hc₀
  obtain ⟨hconfig, -, _, -, rfl⟩ := Continuation.ofConfig_eq_ok.1 hc₀
  have hsized := Nsga2.sized_withArchive ha (Archive.Reachable.withDimensions hA).sound
  exact ⟨hconfig, rfl, hsized, nofun, List.isChain_nil⟩

/-- **The population has the size that is recorded**: whatever steps succeed or end in an error,
there is no population before the first step of the inner algorithm that succeeds, and from then on
it has the size that the last record names, or the configured size if there is none; and each record
starts from the size that the one before it names, the first from the configured size. -/
theorem sizes_recorded [Seedable ρ] {entropy : UInt64} {problem : Problem ρ W D}
    {variation perturbation : Variation ρ W D} {config : EpsilonNsga2Config}
    {c₀ c : EpsilonNsga2 ρ W D} {k : ℕ}
    (hc₀ : ofPerturbation entropy problem variation perturbation config = .ok c₀)
    (hmax : config.continuation.maximumPopulation ≤ 2 ^ 53) (h : Attempts c₀ k c) :
    Search.steps c = k ∧
    (Search.population c).length =
      (if k = 0 then 0 else lastSize config.nsga2.populationSize c.progress) ∧
    Linked config.nsga2.populationSize c.progress.resizes := by
  obtain ⟨hconfig, hstart⟩ := recorded_of_ofPerturbation hc₀
  have hrecorded := h.recorded hstart hconfig hmax
  exact ⟨hrecorded.sized.steps_eq, hrecorded.sized.length_eq, hrecorded.linked⟩

open Rehearsal

/-- A problem with two decisions to give out, and a third whose evaluation is not as declared. -/
def thirdShort : Problem ChaCha Stage (List Float) :=
  BenchmarkProblem.toProblem
    { function := .identity 2, objectives := 2, constraints := 0, bounds := []
      decisions := [[0.5, 2.5], [2.5, 0.5], [1.0]], raiseFlagAt := none }

/-- A rebuild behind each step, of a population of two to three members. -/
def growingToThree : EpsilonNsga2Config where
  epsilons := [1.0, 1.0]
  nsga2 := { populationSize := 2 }
  continuation := { window := 1, maxWindow := 1, minimumPopulation := 2, maximumPopulation := 3 }

/-- The first step is followed by a rebuild, and the second one fails. -/
theorem sizes_recorded_of_failed_step : ∃ (c₀ b c : EpsilonNsga2 ChaCha Stage (List Float))
    (w w' : Stage) (k : ℕ) (e : Error),
    ofPerturbation 0 thirdShort (shift 1 []) (shift 1 [-0.25]) growingToThree = .ok c₀ ∧
    Search.step (c₀, {}) = .ok () (b, w) ∧ Search.step (b, w) = .error (.error e) (c, w') ∧
    Attempts c₀ k c ∧ c.progress.resizes.length = 1 ∧ (Search.population c).length = 3 ∧
    Search.steps c = k ∧
    (Search.population c).length = (if k = 0 then 0 else lastSize 2 c.progress) ∧
    Linked 2 c.progress.resizes := by
  have hends : (match ofPerturbation 0 thirdShort (shift 1 []) (shift 1 [-0.25])
      growingToThree with
    | .error _ => false
    | .ok c₀ => match Search.step (c₀, ({} : Stage)) with
      | .error _ _ => false
      | .ok _ s => match (Search.step s : EStateM.Result Failure _ Unit) with
        | .error (.error _) t =>
          t.1.progress.resizes.length == 1 && t.1.inner.population.length == 3
        | _ => false) = true := by decide +kernel
  cases hc₀ : ofPerturbation 0 thirdShort (shift 1 []) (shift 1 [-0.25]) growingToThree with
  | error e => simp [hc₀] at hends
  | ok c₀ =>
    simp only [hc₀] at hends
    cases hstep : Search.step (c₀, ({} : Stage)) with
    | error e s => simp [hstep] at hends
    | ok _ s =>
      simp only [hstep] at hends
      split at hends
      next e t hfailed =>
        simp only [Bool.and_eq_true, beq_iff_eq] at hends
        have h := (Attempts.start.step hstep).failedStep hfailed
        exact ⟨c₀, s.1, t.1, s.2, t.2, _, e, rfl, hstep, hfailed, h, hends.1, hends.2,
          sizes_recorded hc₀ (by decide) h⟩
      next => simp at hends

end EpsilonNsga2

end ParetoSearch
