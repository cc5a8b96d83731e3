import ParetoSearch.Proofs.EpsilonNsga2.Coverage

/-!
# The search is not disturbed by being watched

An ε-NSGA-II is an NSGA-II that is watched: what it brings is offered to an archive, the
archive's size is looked at between its steps, and there is a second generator for
rebuilds. Up to the first rebuild none of this reaches the search: the population, the
evaluations and the steps are those of the bare algorithm, and so is the world that is left
(`observation_undisturbed`).

An archive may refuse a solution with an error, and then the call ends. But a call that
succeeds with an archive does the same without one (`Nsga2.run_bare`), and a step under
continuation that records no rebuild is a step of the inner algorithm
(`Continuation.step_inner`) in which nothing is drawn for rebuilds
(`Continuation.step_reseeded`).
-/

namespace ParetoSearch

variable {ρ W D α β : Type}

/-! ### Without the archive -/

namespace Nsga2

/-- The algorithm without its archive. -/
@[simps]
def bare (a : Nsga2 ρ W D) : Nsga2 ρ W D := { a with archive := none }

variable {a b : Nsga2 ρ W D} {w w' : W} {solutions found : List (Solution D)}

theorem drawing_bare {x : EStateM Fault (ρ × W) β} {r : β}
    (h : drawing x (a, w) = .ok r (b, w')) : drawing x (a.bare, w) = .ok r (b.bare, w') := by
  obtain ⟨g, hx, rfl⟩ := drawing_eq_ok.1 h
  exact drawing_eq_ok.2 ⟨g, hx, rfl⟩

theorem takeIn_bare (h : takeIn solutions (a, w) = .ok found (b, w')) :
    takeIn solutions (a.bare, w) = .ok found (b.bare, w') := by
  obtain ⟨evaluated, hevaluated, rfl, -, rfl⟩ := takeIn_eq_ok.1 h
  exact takeIn_eq_ok.2 ⟨evaluated, hevaluated, rfl, nofun, rfl⟩

variable [Generator ρ] {call : Search.Call D}

theorem brought_bare (h : brought call (a, w) = .ok solutions (b, w')) :
    brought call (a.bare, w) = .ok solutions (b.bare, w') := by
  cases call with
  | step =>
    rw [brought_step_eq_ok] at h ⊢
    rw [bare_started, bare_population, bare_problem, bare_config]
    split_ifs at h ⊢
    · exact drawing_bare h
    · exact ⟨h.1, drawing_bare h.2⟩
  | replacePopulation given =>
    cases given with
    | nil => cases h
    | cons s rest =>
      cases h
      rfl

theorem admitted_bare (h : admitted call (a, w) = .ok found (b, w')) :
    admitted call (a.bare, w) = .ok found (b.bare, w') := by
  obtain ⟨solutions, ⟨b₁, w₁⟩, hbrought, htake⟩ := bind_apply_eq_ok.1 h
  exact bind_apply_eq_ok.2 ⟨solutions, _, brought_bare hbrought, takeIn_bare htake⟩

/-- **A call that succeeds with an archive does the same without one.** -/
theorem run_bare (h : call.run (a, w) = .ok () (b, w')) :
    call.run (a.bare, w) = .ok () (b.bare, w') := by
  obtain ⟨found, g, n, P, hadmitted, -, -, hP, rfl⟩ := exists_of_run_eq_ok h
  have hrivals : a.bare.rivals call = a.rivals call := by cases call <;> rfl
  rw [run_apply, admitted_bare hadmitted]
  simp only [hrivals, hP]
  rfl

theorem stepMany_bare {n : ℕ} (h : Search.stepMany n (a, w) = .ok () (b, w')) :
    Search.stepMany n (a.bare, w) = .ok () (b.bare, w') := by
  induction n generalizing a w with
  | zero =>
    cases h
    rfl
  | succ n ih =>
    obtain ⟨_, ⟨a₁, w₁⟩, hstep, h⟩ := bind_apply_eq_ok.1 h
    have hrun : Search.Call.step.run (a, w) = .ok () (a₁, w₁) := hstep
    exact bind_apply_eq_ok.2 ⟨(), _, run_bare hrun, ih h⟩

end Nsga2

/-! ### Without rebuilds -/

namespace Continuation

variable [Search α ρ W D] [Generator ρ] {c d : Continuation α ρ W D} {w w' : W} {n : ℕ}

/-- A step that leaves no record of a rebuild has found none, and it is a step of the inner
algorithm. -/
theorem step_inner (hstep : step (c, w) = .ok () (d, w')) (hnone : d.progress.resizes = []) :
    c.progress.resizes = [] ∧ Search.step (c.inner, w) = .ok () (d.inner, w') := by
  obtain ⟨calls, hpassage⟩ := exists_passage_of_step hstep
  cases hpassage with
  | quiet hinner => exact ⟨hnone, hinner⟩
  | held harrives =>
    obtain ⟨hinner, -, heq⟩ := harrives
    rw [heq] at hnone
    exact ⟨hnone, hinner⟩
  | rebuilt => simp at hnone

/-- The algorithm with another generator for rebuilds, started from another seed. -/
@[simps]
def reseeded (c : Continuation α ρ W D) (seed : Option UInt64) (g : ρ) : Continuation α ρ W D :=
  { c with config := { c.config with seed }, generator := g }

theorem step_reseeded (hstep : step (c, w) = .ok () (d, w')) (hnone : d.progress.resizes = [])
    (seed : Option UInt64) (g : ρ) :
    step (c.reseeded seed g, w) = .ok () (d.reseeded seed g, w') := by
  obtain ⟨calls, hpassage⟩ := exists_passage_of_step hstep
  cases hpassage with
  | quiet hinner hcounter hwindow =>
    exact (Passage.quiet (c := c.reseeded seed g) hinner hcounter hwindow).step_eq
  | @held _ d _ _ harrives hgrown htime =>
    have harrives' : (c.reseeded seed g).Arrives w (d.reseeded seed g) w' :=
      ⟨harrives.step_eq, harrives.exists_counter,
        congrArg (·.reseeded seed g) harrives.eq_atCheck⟩
    exact (Passage.held harrives' hgrown htime).step_eq
  | rebuilt => simp at hnone

/-- Steps that leave no record of a rebuild are steps of the inner algorithm, and they are the same
with another generator for rebuilds. -/
theorem stepMany_of_resizes_eq_nil (h : Search.stepMany n (c, w) = .ok () (d, w'))
    (hnone : d.progress.resizes = []) :
    c.progress.resizes = [] ∧ Search.stepMany n (c.inner, w) = .ok () (d.inner, w') ∧
      ∀ seed g, Search.stepMany n (c.reseeded seed g, w) = .ok () (d.reseeded seed g, w') := by
  induction n generalizing c w with
  | zero =>
    cases h
    exact ⟨hnone, rfl, fun _ _ => rfl⟩
  | succ n ih =>
    obtain ⟨_, ⟨c₁, w₁⟩, hstep, h⟩ := bind_apply_eq_ok.1 h
    obtain ⟨hnone₁, hinner, hreseeded⟩ := ih h
    obtain ⟨hnone₀, hfirst⟩ := step_inner hstep hnone₁
    refine ⟨hnone₀, bind_apply_eq_ok.2 ⟨(), _, hfirst, hinner⟩, fun seed g => ?_⟩
    exact bind_apply_eq_ok.2 ⟨(), _, step_reseeded hstep hnone₁ seed g, hreseeded seed g⟩

end Continuation

/-! ### The watched and the bare algorithm -/

/-- The configuration with another seed for rebuilds. -/
def EpsilonNsga2Config.withRebuildSeed (config : EpsilonNsga2Config) (seed : Option UInt64) :
    EpsilonNsga2Config :=
  { config with continuation := { config.continuation with seed } }

namespace EpsilonNsga2

variable [Seedable ρ] {entropy entropy' : UInt64} {problem : Problem ρ W D}
  {variation perturbation : Variation ρ W D} {config : EpsilonNsga2Config} {seed : UInt64}
  {c₀ c : EpsilonNsga2 ρ W D} {a₀ : Nsga2 ρ W D}

theorem inner_bare (hseed : config.nsga2.seed = some seed)
    (hc₀ : ofPerturbation entropy problem variation perturbation config = .ok c₀)
    (ha₀ : Nsga2.ofConfig entropy' problem variation config.nsga2 = .ok a₀) :
    c₀.inner.bare = a₀ := by
  obtain ⟨ε, A, a, -, ha, hc₀⟩ := exists_of_ofPerturbation_eq_ok hc₀
  obtain ⟨-, -, _, -, rfl⟩ := Continuation.ofConfig_eq_ok.1 hc₀
  obtain ⟨-, -, rfl⟩ := Nsga2.ofConfig_eq_ok.1 ha
  obtain ⟨-, -, rfl⟩ := Nsga2.ofConfig_eq_ok.1 ha₀
  simp only [Nsga2.withArchive, Nsga2.bare, hseed]
  rfl

/-- Another seed for rebuilds starts another generator for them, and changes nothing else. -/
theorem ofPerturbation_withRebuildSeed (hseed : config.nsga2.seed = some seed)
    (hc₀ : ofPerturbation entropy problem variation perturbation config = .ok c₀)
    (rebuildSeed : Option UInt64) :
    ofPerturbation entropy' problem variation perturbation (config.withRebuildSeed rebuildSeed) =
      .ok (c₀.reseeded rebuildSeed (Seedable.ofOption entropy' rebuildSeed)) := by
  have hvalid : config.validate = .ok () := (check_bind_eq_ok.1 hc₀).1
  obtain ⟨-, h⟩ := check_bind_eq_ok.1 hc₀
  obtain ⟨ε, hε, h⟩ := bind_eq_ok.1 h
  obtain ⟨A, hA, h⟩ := bind_eq_ok.1 h
  obtain ⟨a, ha, h⟩ := bind_eq_ok.1 h
  have ha' : Nsga2.ofConfig entropy' problem variation config.nsga2 = .ok a := by
    obtain ⟨hconfig, harity, rfl⟩ := Nsga2.ofConfig_eq_ok.1 ha
    exact Nsga2.ofConfig_eq_ok.2 ⟨hconfig, harity, by rw [hseed]; rfl⟩
  refine check_bind_eq_ok.2 ⟨hvalid, ?_⟩
  refine bind_eq_ok.2 ⟨ε, hε, bind_eq_ok.2 ⟨A, hA, bind_eq_ok.2 ⟨a, ha', ?_⟩⟩⟩
  obtain ⟨hcontinuation, harity, B, hB, rfl⟩ := Continuation.ofConfig_eq_ok.1 h
  exact Continuation.ofConfig_eq_ok.2 ⟨hcontinuation, harity, B, hB, rfl⟩

/-- **The search is not disturbed by being watched**: if the NSGA-II has a fixed seed and steps of
the ε-NSGA-II succeed without a record of a rebuild, the same steps of the bare algorithm succeed
in the same world, with the same population, evaluations and steps behind them. Whatever the seed
for rebuilds is, the steps do the same. -/
theorem observation_undisturbed {n : ℕ} {w w' : W} (hseed : config.nsga2.seed = some seed)
    (hc₀ : ofPerturbation entropy problem variation perturbation config = .ok c₀)
    (ha₀ : Nsga2.ofConfig entropy' problem variation config.nsga2 = .ok a₀)
    (hsteps : Search.stepMany n (c₀, w) = .ok () (c, w')) (hnone : c.progress.resizes = []) :
    (∃ a, Search.stepMany n (a₀, w) = .ok () (a, w') ∧
      Search.population a = Search.population c ∧ Search.evaluations a = Search.evaluations c ∧
      Search.steps a = Search.steps c) ∧
    ∀ (entropy'' : UInt64) (rebuildSeed : Option UInt64), ∃ d₀ d : EpsilonNsga2 ρ W D,
      ofPerturbation entropy'' problem variation perturbation
        (config.withRebuildSeed rebuildSeed) = .ok d₀ ∧
      Search.stepMany n (d₀, w) = .ok () (d, w') ∧ d.inner = c.inner ∧
      d.progress = c.progress := by
  obtain ⟨-, hinner, hreseeded⟩ := Continuation.stepMany_of_resizes_eq_nil hsteps hnone
  constructor
  · rw [← inner_bare hseed hc₀ ha₀]
    exact ⟨c.inner.bare, Nsga2.stepMany_bare hinner, rfl, rfl, rfl⟩
  · intro entropy'' rebuildSeed
    exact ⟨_, _, ofPerturbation_withRebuildSeed hseed hc₀ rebuildSeed, hreseeded _ _, rfl, rfl⟩

open Rehearsal

/-- A fixed seed, and a check behind every second step. -/
def seededPairs : EpsilonNsga2Config where
  epsilons := [1.0, 1.0]
  nsga2 := { populationSize := 2, seed := some 7 }
  continuation := { window := 2, minimumPopulation := 2, maximumPopulation := 2 }

/-- The second step of three is followed by a check that finds a larger archive. -/
theorem observation_undisturbed_of_held : ∃ (c₀ c : EpsilonNsga2 ChaCha Stage (List Float))
    (a₀ a : Nsga2 ChaCha Stage (List Float)) (w' : Stage),
    ofPerturbation 0 twoCorners (shift 1 [1.0]) (shift 1 [-0.25]) seededPairs = .ok c₀ ∧
    Nsga2.ofConfig 1 twoCorners (shift 1 [1.0]) seededPairs.nsga2 = .ok a₀ ∧
    Search.stepMany 3 (c₀, {}) = .ok () (c, w') ∧ c.progress.resizes = [] ∧
    c.progress.checks = 1 ∧ Search.stepMany 3 (a₀, {}) = .ok () (a, w') ∧
    Search.population a = Search.population c := by
  have hends : (match ofPerturbation 0 twoCorners (shift 1 [1.0]) (shift 1 [-0.25])
      seededPairs with
    | .error _ => false
    | .ok c₀ => match Nsga2.ofConfig 1 twoCorners (shift 1 [1.0]) seededPairs.nsga2 with
      | .error _ => false
      | .ok _ => match Search.stepMany 3 (c₀, ({} : Stage)) with
        | .ok _ s => s.1.progress.resizes.isEmpty && s.1.progress.checks == 1
        | .error _ _ => false) = true := by decide +kernel
  cases hc₀ : ofPerturbation 0 twoCorners (shift 1 [1.0]) (shift 1 [-0.25]) seededPairs with
  | error e => simp [hc₀] at hends
  | ok c₀ =>
    cases ha₀ : Nsga2.ofConfig 1 twoCorners (shift 1 [1.0]) seededPairs.nsga2 with
    | error e => simp [hc₀, ha₀] at hends
    | ok a₀ =>
      simp only [hc₀, ha₀] at hends
      cases hsteps : Search.stepMany 3 (c₀, ({} : Stage)) with
      | error e s => simp [hsteps] at hends
      | ok _ s =>
        simp only [hsteps, Bool.and_eq_true, beq_iff_eq, List.isEmpty_iff] at hends
        have hseed : seededPairs.nsga2.seed = some 7 := rfl
        obtain ⟨⟨a, ha, hpopulation, -⟩, -⟩ :=
          observation_undisturbed hseed hc₀ ha₀ hsteps hends.1
        exact ⟨c₀, s.1, a₀, a, s.2, rfl, rfl, hsteps, hends.1, hends.2, ha, hpopulation⟩

end EpsilonNsga2

end ParetoSearch
