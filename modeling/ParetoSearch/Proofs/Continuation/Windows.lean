import ParetoSearch.EpsilonNsga2
import ParetoSearch.Proofs.Continuation.Checks
import ParetoSearch.Proofs.Nsga2.Calls

/-!
# When there is a check

A window is measured in steps or in evaluations. What can be seen of a run of successful
steps is, for each step, the inner algorithm behind its own step and when the step is over,
and how many checks have been counted meanwhile (`Walk`). From this list alone it can be
said at which steps there is a check (`Tick.Strikes`): when as much as the window has
passed since the last one was over (`passed`).

The algorithm itself keeps a counter. It adds to it what a step of the inner algorithm
uses, and it has to leave out what a rebuild uses, which comes behind the counter has been
set back. That the counter says what the list says is what every passage keeps (`Clock`).
-/

namespace ParetoSearch.Continuation

open Binary64 (maxCount)
open Search (evaluations)

variable {α ρ W D : Type}

/-! ### Ticks -/

/-- What is seen of a step. -/
structure Tick (α : Type) where
  /-- The inner algorithm behind its own step. -/
  found : α
  /-- The inner algorithm when the step is over. -/
  left : α
  /-- How many checks have been counted. -/
  checks : ℕ

/-- The steps behind the last one with a check. -/
def sinceCheck (log : List (Tick α)) : List (Tick α) := log.rtakeWhile fun k => k.checks == 0

/-- The inner algorithm when the last check was over; `inner` if there has been none. -/
def lastChecked (inner : α) (log : List (Tick α)) : α :=
  ((log.rdropWhile fun k => k.checks == 0).getLast?.map Tick.left).getD inner

theorem sinceCheck_concat (log : List (Tick α)) (k : Tick α) :
    sinceCheck (log ++ [k]) = if k.checks = 0 then sinceCheck log ++ [k] else [] := by
  unfold sinceCheck
  by_cases h : k.checks = 0
  · rw [List.rtakeWhile_concat_pos _ _ _ (by simp [h]), if_pos h]
  · rw [List.rtakeWhile_concat_neg _ _ _ (by simp [h]), if_neg h]

theorem lastChecked_concat (inner : α) (log : List (Tick α)) (k : Tick α) :
    lastChecked inner (log ++ [k]) = if k.checks = 0 then lastChecked inner log else k.left := by
  unfold lastChecked
  by_cases h : k.checks = 0
  · rw [List.rdropWhile_concat_pos _ _ _ (by simp [h]), if_pos h]
  · rw [List.rdropWhile_concat_neg _ _ _ (by simp [h]), if_neg h, List.getLast?_concat]
    rfl

/-- What is seen of a step that leaves `d`; `a` is the inner algorithm behind its own step. -/
def tick (c : Continuation α ρ W D) (a : α) (d : Continuation α ρ W D) : Tick α where
  found := a
  left := d.inner
  checks := d.progress.checks - c.progress.checks

variable [Search α ρ W D]

/-- How much of the window has passed when the inner algorithm stands at `a`, so many steps after
the last check has left it at `checked`. -/
def passed (frequency : Frequency) (checked : α) (steps : ℕ) (a : α) : ℕ :=
  match frequency with
  | .steps => steps
  | .evaluations => evaluations a - evaluations checked

/-- In the step that comes behind others there is one check, or none, and there is one exactly if
the window has passed. -/
structure Tick.Strikes (k : Tick α) (config : ContinuationConfig) (inner : α)
    (before : List (Tick α)) : Prop where
  checks_le : k.checks ≤ 1
  checks_iff : k.checks = 1 ↔ config.window ≤
    passed config.frequency (lastChecked inner before) ((sinceCheck before).length + 1) k.found

/-! ### The counter -/

theorem movedCounter_eq_ok {frequency : Frequency} {p : Progress} {e n : ℕ} :
    movedCounter frequency p e = .ok n ↔
      p.counter + advance frequency p.lastEvaluations e = n ∧ n ≤ maxCount := by
  unfold movedCounter
  grind

/-- The counter says how much of the window has passed. -/
structure Clock (config : ContinuationConfig) (inner : α) (log : List (Tick α))
    (c : Continuation α ρ W D) : Prop where
  config_eq : c.config = config
  lastEvaluations_eq : c.progress.lastEvaluations = evaluations c.inner
  evaluations_le : config.frequency = .evaluations →
    evaluations (lastChecked inner log) ≤ evaluations c.inner
  counter_eq : c.progress.counter =
    passed config.frequency (lastChecked inner log) (sinceCheck log).length c.inner
  counter_lt : c.progress.counter < config.window
  checks_eq : c.progress.checks = (log.map Tick.checks).sum
  strikes : ∀ before k behind, log = before ++ k :: behind → k.Strikes config inner before

namespace Clock

variable {config : ContinuationConfig} {inner a : α} {log : List (Tick α)}
  {c d : Continuation α ρ W D} {w v w' : W} {n : ℕ}

/-- The counter is moved by as much as a step of the inner algorithm adds to what has passed. -/
theorem movedCounter_eq (h : Clock config inner log c)
    (hcounts : config.frequency = .evaluations → Search.Cumulative α)
    (hinner : Search.step (c.inner, w) = .ok () (a, v))
    (hmoved : movedCounter c.config.frequency c.progress (evaluations a) = .ok n) :
    n = passed config.frequency (lastChecked inner log) ((sinceCheck log).length + 1) a := by
  obtain ⟨rfl, -⟩ := movedCounter_eq_ok.1 hmoved
  rw [h.config_eq, h.counter_eq, h.lastEvaluations_eq]
  cases hfrequency : config.frequency with
  | steps => rfl
  | evaluations =>
    have := hcounts hfrequency
    have hstart := h.evaluations_le hfrequency
    have hstep := Search.Cumulative.le_of_step hinner
    simp only [passed, advance]
    omega

theorem moved (h : Clock config inner log c)
    (hcounts : config.frequency = .evaluations → Search.Cumulative α)
    (hinner : Search.step (c.inner, w) = .ok () (a, v))
    (hmoved : movedCounter c.config.frequency c.progress (evaluations a) = .ok n)
    (hwindow : n < c.config.window) :
    Clock config inner (log ++ [tick c a (c.moved a n)]) (c.moved a n) := by
  have hn := h.movedCounter_eq hcounts hinner hmoved
  have hnone : (tick c a (c.moved a n)).checks = 0 := by simp [tick]
  have hlast := (lastChecked_concat inner log (tick c a (c.moved a n))).trans (if_pos hnone)
  have hsince := (sinceCheck_concat log (tick c a (c.moved a n))).trans (if_pos hnone)
  rw [h.config_eq] at hwindow
  constructor
  case config_eq => exact h.config_eq
  case lastEvaluations_eq => rfl
  case evaluations_le =>
    intro hfrequency
    have := hcounts hfrequency
    rw [hlast]
    exact (h.evaluations_le hfrequency).trans (Search.Cumulative.le_of_step hinner)
  case counter_eq =>
    rw [hlast, hsince, List.length_append]
    exact hn
  case counter_lt => exact hwindow
  case checks_eq => simpa [hnone] using h.checks_eq
  case strikes =>
    refine forall_split_concat h.strikes ⟨hnone.trans_le (Nat.zero_le 1), ?_⟩
    refine iff_of_false (by omega) ?_
    exact hn ▸ Nat.not_le_of_lt hwindow

/-- A step with a check sets the clock back, with whatever the check has used. -/
theorem checked (h : Clock config inner log c)
    (hcounts : config.frequency = .evaluations → Search.Cumulative α) (hwindow : 0 < config.window)
    (hinner : Search.step (c.inner, w) = .ok () (a, v))
    (hpassed : ∃ n, movedCounter c.config.frequency c.progress (evaluations a) = .ok n ∧
      c.config.window ≤ n)
    (hconfig : d.config = c.config) (hcounter : d.progress.counter = 0)
    (hlast : d.progress.lastEvaluations = evaluations d.inner)
    (hchecks : d.progress.checks = c.progress.checks + 1) :
    Clock config inner (log ++ [tick c a d]) d := by
  have hone : (tick c a d).checks = 1 := by simp [tick, hchecks]
  have hleft := (lastChecked_concat inner log (tick c a d)).trans (if_neg (by omega))
  have hsince := (sinceCheck_concat log (tick c a d)).trans (if_neg (by omega))
  constructor
  case config_eq => exact hconfig.trans h.config_eq
  case lastEvaluations_eq => exact hlast
  case evaluations_le => exact fun _ => (congrArg evaluations hleft).le
  case counter_eq =>
    rw [hcounter, hleft, hsince]
    cases config.frequency with
    | steps => rfl
    | evaluations => exact (Nat.sub_self _).symm
  case counter_lt => exact hcounter ▸ hwindow
  case checks_eq => simp [hone, hchecks, h.checks_eq]
  case strikes =>
    obtain ⟨n, hmoved, hreached⟩ := hpassed
    refine forall_split_concat h.strikes ⟨hone.le, iff_of_true hone ?_⟩
    exact h.movedCounter_eq hcounts hinner hmoved ▸ h.config_eq ▸ hreached

variable [Generator ρ]

theorem passage (h : Clock config inner log c)
    (hcounts : config.frequency = .evaluations → Search.Cumulative α) (hwindow : 0 < config.window)
    {calls : List (Search.Call D × α × W)} (hinner : Search.step (c.inner, w) = .ok () (a, v))
    (hpassage : Passage (c, w) calls (d, w')) : Clock config inner (log ++ [tick c a d]) d := by
  cases hpassage with
  | quiet hstep hmoved hlt =>
    cases hinner.symm.trans hstep
    exact h.moved hcounts hinner hmoved hlt
  | held harrives =>
    obtain ⟨hstep, hpassed, heq⟩ := harrives
    cases hinner.symm.trans hstep
    rw [heq]
    exact h.checked hcounts hwindow hinner hpassed rfl rfl rfl rfl
  | rebuilt harrives =>
    obtain ⟨hstep, hpassed, heq⟩ := harrives
    cases hinner.symm.trans hstep
    rw [heq]
    exact h.checked hcounts hwindow hinner hpassed rfl rfl rfl rfl

end Clock

/-! ### Runs -/

section Runs

variable [Generator ρ] {config : ContinuationConfig} {inner : α} {log : List (Tick α)}
  {c₀ c : Continuation α ρ W D}

/-- Runs of successful steps, with what is seen of each. -/
abbrev Walk (c₀ : Continuation α ρ W D) : List (Tick α) → Continuation α ρ W D → Prop :=
  Trail (fun c a d => [tick c a d]) c₀

theorem Walk.clock (h₀ : Clock config inner [] c₀)
    (hcounts : config.frequency = .evaluations → Search.Cumulative α) (hwindow : 0 < config.window)
    (hwalk : Walk c₀ log c) : Clock config inner log c :=
  Trail.of_passage h₀ (fun h hinner hpassage => h.passage hcounts hwindow hinner hpassage) hwalk

end Runs

/-- **The counter says how much of the window has passed**: in every run of successful steps it is
the number of steps since the last check, or the evaluations counted since the last check was over,
so that those of a rebuild are left out. It is always below the window. A step comes with one check
if with it the window has passed, and else with none. Where windows are measured in evaluations, the
inner algorithm must not take any back. -/
theorem Walk.counter_eq_passed [Seedable ρ] {entropy : UInt64} {config : ContinuationConfig}
    {inner : α} {perturbation : Variation ρ W D} {log : List (Tick α)}
    {c₀ c : Continuation α ρ W D}
    (hcounts : config.frequency = .evaluations → Search.Cumulative α)
    (hc₀ : ofConfig entropy inner config perturbation = .ok c₀) (hwalk : Walk c₀ log c) :
    c.progress.counter =
      passed config.frequency (lastChecked inner log) (sinceCheck log).length c.inner ∧
    (config.frequency = .evaluations →
      evaluations (lastChecked inner log) ≤ evaluations c.inner) ∧
    c.progress.counter < config.window ∧
    c.progress.checks = (log.map Tick.checks).sum ∧
    ∀ before k behind, log = before ++ k :: behind → k.Strikes config inner before := by
  obtain ⟨hconfig, -, A, hA, heq⟩ := ofConfig_eq_ok.1 hc₀
  obtain ⟨hwindow, -⟩ := ContinuationConfig.validate_eq_ok.1 hconfig
  have hpassed : 0 = passed config.frequency inner 0 inner := by
    cases config.frequency with
    | steps => rfl
    | evaluations => exact (Nat.sub_self _).symm
  have hstart : Clock config inner [] c₀ := by
    rw [heq]
    exact ⟨rfl, rfl, fun _ => le_rfl, hpassed, hwindow, rfl, by simp⟩
  have h := hwalk.clock hstart hcounts hwindow
  exact ⟨h.counter_eq, h.evaluations_le, h.counter_lt, h.checks_eq, h.strikes⟩

open Rehearsal

/-- An NSGA-II with an archive that holds two members from its first step on. -/
def findingTwo : Nsga2 ChaCha Stage (List Float) where
  problem := BenchmarkProblem.toProblem
    { function := .identity 2, objectives := 2, constraints := 0, bounds := []
      decisions := [[0.5, 2.5], [2.5, 0.5]], raiseFlagAt := none }
  variation := shift 1 [1.0]
  config := { populationSize := 2 }
  generator := Seedable.ofOption 0 none
  archive := (Archive.ofWidths [1.0]).toOption

/-- A check behind every four evaluations, and populations of two members. -/
def checkingByFours : ContinuationConfig where
  window := 4
  minimumPopulation := 2
  maximumPopulation := 2
  frequency := .evaluations

/-- At the second check, behind the fourth step, the population is rebuilt. The fifth step uses two
evaluations, and they are all that has passed. -/
theorem Walk.counter_eq_passed_of_rebuilt : ∃ (c₀ c : EpsilonNsga2 ChaCha Stage (List Float))
    (log : List (Tick (Nsga2 ChaCha Stage (List Float)))),
    ofConfig 0 findingTwo checkingByFours (shift 1 [-0.25]) = .ok c₀ ∧ Walk c₀ log c ∧
    c.progress.checks = 2 ∧ c.progress.resizes.length = 1 ∧ evaluations c.inner = 12 ∧
    c.progress.counter = 2 ∧
    c.progress.counter = passed .evaluations (lastChecked findingTwo log) (sinceCheck log).length
      c.inner ∧
    ∀ before k behind, log = before ++ k :: behind →
      k.Strikes checkingByFours findingTwo before := by
  have hends : (Search.reached (ofConfig 0 findingTwo checkingByFours (shift 1 [-0.25]))
      (Search.stepMany 5) {}).any (fun r =>
        r.2.1.progress.checks == 2 && r.2.1.progress.resizes.length == 1 &&
          r.2.1.inner.evaluations == 12 && r.2.1.progress.counter == 2) = true := by
    decide +kernel
  obtain ⟨c₀, _, s, hc₀, hsteps, hends⟩ := Search.exists_of_reached hends
  simp only [Bool.and_eq_true, beq_iff_eq] at hends
  obtain ⟨⟨⟨hchecks, hresizes⟩, hevaluations⟩, hcounter⟩ := hends
  obtain ⟨log, hwalk⟩ : ∃ log, Walk c₀ log s.1 := Trail.exists_stepMany hsteps
  obtain ⟨hpassed, -, -, -, hstrikes⟩ :=
    Walk.counter_eq_passed (fun _ => inferInstance) hc₀ hwalk
  exact ⟨c₀, s.1, log, hc₀, hwalk, hchecks, hresizes, hevaluations, hcounter, hpassed, hstrikes⟩

end ParetoSearch.Continuation
