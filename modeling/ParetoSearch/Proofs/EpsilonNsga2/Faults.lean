import ParetoSearch.Proofs.Continuation.Faults
import ParetoSearch.Proofs.EpsilonNsga2.Sizes
import ParetoSearch.Proofs.Nsga2.Faults

/-!
# What a step of ε-NSGA-II may raise

Whatever steps have succeeded or ended in an error before, a step raises a fault of the
problem or of an operator, or one of three of its own (`faults_of_step`): the counter of
the window goes beyond the greatest count, there is no room for what is to be stored, or a
front is sorted by distances that are no order. The last one is no matter of size: it comes
within two steps of a population of eleven whose objectives are finite, but too far apart
for their differences to be (`exists_notOrdered`).

No other operation is called outside its domain. Members are selected where there are
some, a population is replaced by solutions, since a rebuild makes at least as many as the
lower population bound, which is above zero (`ne_nil_of_renews`), and bounds are in order
wherever a value is kept between them.
-/

namespace ParetoSearch.EpsilonNsga2

open Binary64 (maxCount)
open Continuation (Breakdown Passage Setback)
open Search (evaluations)

variable {ρ W D : Type}

section Steps

variable [Generator ρ] {c₀ c d : EpsilonNsga2 ρ W D} {b : Nsga2 ρ W D} {w w' : W} {f : Fault}

/-- What a step may raise that leaves the inner algorithm `b`: what the inner algorithm does, what
making a new population does, or that a count is too great. -/
inductive MayRaise (c : EpsilonNsga2 ρ W D) (b : Nsga2 ρ W D) : Fault → Prop
  | inner {f : Fault} (h : c.inner.Blames b.population f) : MayRaise c b f
  | rebuild {f : Fault} (h : Continuation.Blames c f) : MayRaise c b f
  | count (h : maxCount < c.config.window + evaluations b) : MayRaise c b .countOverflow

/-! ### Parts that stay -/

/-- The algorithms have the same configurations, operators and problem. -/
structure SameParts (c d : EpsilonNsga2 ρ W D) : Prop where
  config_eq : d.config = c.config
  perturbation_eq : d.perturbation = c.perturbation
  inner : c.inner.SameParts d.inner

namespace SameParts

omit [Generator ρ] in
theorem refl (c : EpsilonNsga2 ρ W D) : SameParts c c := ⟨rfl, rfl, rfl, rfl, rfl⟩

theorem arrives (h : SameParts c₀ c) (harrives : c.Arrives w d w') : SameParts c₀ d := by
  have hrun : Search.Call.step.run (c.inner, w) = .ok () (d.inner, w') := harrives.step_eq
  rw [harrives.eq_atCheck]
  exact ⟨h.config_eq, h.perturbation_eq, h.inner.trans (Nsga2.sameParts_of_run hrun)⟩

theorem passage (h : SameParts c₀ c) {calls : List (Search.Call D × Nsga2 ρ W D × W)}
    (hpassage : Passage (c, w) calls (d, w')) : SameParts c₀ d := by
  cases hpassage with
  | quiet hstep =>
    have hrun : Search.Call.step.run (c.inner, w) = .ok () (_, w') := hstep
    exact ⟨h.config_eq, h.perturbation_eq, h.inner.trans (Nsga2.sameParts_of_run hrun)⟩
  | held harrives =>
    have hchecked := h.arrives harrives
    exact ⟨hchecked.config_eq, hchecked.perturbation_eq, hchecked.inner⟩
  | rebuilt harrives _ hreplace =>
    have hchecked := h.arrives harrives
    have hrun : (Search.Call.replacePopulation _).run (_, _) = .ok () (_, w') := hreplace
    exact ⟨hchecked.config_eq, hchecked.perturbation_eq,
      hchecked.inner.trans (Nsga2.sameParts_of_run hrun)⟩

theorem setback (h : SameParts c₀ c) {e : Error} (hsetback : Setback e (c, w) (d, w')) :
    SameParts c₀ d := by
  cases hsetback with
  | step hstep =>
    have hrun : Search.Call.step.run (c.inner, w) = .error (.error e) (_, w') := hstep
    exact ⟨h.config_eq, h.perturbation_eq, h.inner.trans (Nsga2.sameParts_of_run_eq_error hrun)⟩
  | replacePopulation harrives _ hreplace =>
    have hchecked := h.arrives harrives
    have hrun : (Search.Call.replacePopulation _).run (_, _) = .error (.error e) (_, w') :=
      hreplace
    exact ⟨hchecked.config_eq, hchecked.perturbation_eq,
      hchecked.inner.trans (Nsga2.sameParts_of_run_eq_error hrun)⟩

theorem mayRaise (h : SameParts c₀ c) (hc : MayRaise c b f) : MayRaise c₀ b f := by
  cases hc with
  | inner hf => exact .inner (h.inner.blames hf)
  | rebuild hf =>
    have hproblem : Search.problem c.inner = Search.problem c₀.inner := h.inner.problem_eq
    refine .rebuild ?_
    cases hf with
    | problem hf => exact .problem (hproblem ▸ hf)
    | perturbation hf => exact .perturbation (h.perturbation_eq ▸ hf)
    | room hf => exact .room (h.perturbation_eq ▸ hf)
  | count hf => exact .count (h.config_eq ▸ hf)

end SameParts

/-- Steps keep the parts, whether they succeed or end in an error. -/
theorem Attempts.sameParts {k : ℕ} (h : Attempts c₀ k c) : SameParts c₀ c := by
  induction h with
  | start => exact .refl c₀
  | step _ hstep ih =>
    obtain ⟨calls, hpassage⟩ := Continuation.exists_passage_of_step hstep
    exact ih.passage hpassage
  | failedStep _ hstep ih => exact ih.setback (Continuation.setback_of_step hstep)

theorem Attempts.counter_lt {k : ℕ} (h : Attempts c₀ k c)
    (h₀ : c₀.progress.counter < c₀.config.window) : c.progress.counter < c.config.window := by
  induction h with
  | start => exact h₀
  | step _ hstep ih =>
    obtain ⟨calls, hpassage⟩ := Continuation.exists_passage_of_step hstep
    exact hpassage.counter_lt (Nat.zero_lt_of_lt ih)
  | failedStep _ hstep ih => exact (Continuation.setback_of_step hstep).counter_lt ih

/-! ### Steps -/

/-- As many solutions as a float counts exactly can be stored. -/
theorem le_capacity {n : ℕ} (h : n ≤ 2 ^ 53) : n ≤ Population.capacity := h.trans (by decide)

theorem ne_nil_of_renews (hconfig : c.config.validate = .ok ())
    (hmax : c.config.maximumPopulation ≤ 2 ^ 53) {r : Resize} {solutions : List (Solution D)}
    {g : ρ} (h : c.Renews w r solutions g w') : solutions ≠ [] := by
  obtain ⟨hmin, hle⟩ := Continuation.newSize_bounds h.newSize_eq
  obtain ⟨-, -, hpos, -⟩ := ContinuationConfig.validate_eq_ok.1 hconfig
  have hinjected : r.injected ≤ r.newPopulation := by
    rw [h.record_eq]
    exact Continuation.injectedCount_le hconfig (hle.trans hmax)
  refine List.ne_nil_of_length_pos ?_
  rw [h.length_eq hinjected]
  exact hpos.trans_le hmin

theorem mayRaise_of_breakdown (hconfig : c.config.validate = .ok ())
    (hmax : c.config.maximumPopulation ≤ 2 ^ 53) (hbelow : c.progress.counter < c.config.window)
    (h : Breakdown f (c, w) b) : MayRaise c b f := by
  cases h with
  | step hstep =>
    have hcall : (Search.Call.step : Search.Call D) ≠ .replacePopulation [] := nofun
    exact .inner (Nsga2.run_eq_fault hcall hstep)
  | counter _ hcounter =>
    obtain ⟨rfl, hgreat⟩ := Continuation.movedCounter_eq_error hbelow hcounter
    exact .count hgreat
  | rebuild harrives hnew hrebuild =>
    have hparts := (SameParts.refl c).arrives harrives
    rw [hparts.config_eq] at hnew
    exact hparts.mayRaise
      (.rebuild (Continuation.blames_of_rebuild (le_capacity (hnew.trans hmax)) hrebuild))
  | replacePopulation harrives hrenews hreplace =>
    have hparts := (SameParts.refl c).arrives harrives
    have hsome := ne_nil_of_renews (by rwa [hparts.config_eq]) (by rwa [hparts.config_eq]) hrenews
    have hcall := mt Search.Call.replacePopulation.inj hsome
    exact hparts.mayRaise (.inner (Nsga2.run_eq_fault hcall hreplace))

end Steps

/-- **What a step may raise**, whatever steps have succeeded or ended in an error before: what the
problem or an operator raises, or one of three faults of its own. A front is sorted by distances
that are no order only if it has more than twenty members and a distance that is no number, which
needs objectives whose difference is not finite. The counter goes beyond the greatest count only
with the window or the evaluations. Room is lacking only for a first population or for parents that
are too many.

So no member is selected where there is none, no population is replaced by nothing, no value is kept
between bounds that are not in order, nothing is drawn from a range that holds nothing, no index is
outside a list, and no dominator is taken from an item that has none left. -/
theorem faults_of_step [Seedable ρ] {entropy : UInt64} {problem : Problem ρ W D}
    {variation perturbation : Variation ρ W D} {config : EpsilonNsga2Config}
    {c₀ c : EpsilonNsga2 ρ W D} {k : ℕ} {w : W} {f : Fault} {s : EpsilonNsga2 ρ W D × W}
    (hc₀ : ofPerturbation entropy problem variation perturbation config = .ok c₀)
    (hmax : config.continuation.maximumPopulation ≤ 2 ^ 53) (h : Attempts c₀ k c)
    (hstep : Search.step (c, w) = .error (.fault f) s) :
    (problem.Raises f ∨ variation.Raises f ∨ perturbation.Raises f) ∨
    (f = .notOrdered ∧ s.1.inner.population.HasDisorderedFront ∧
      s.1.inner.population.IsTooWide) ∨
    (f = .countOverflow ∧ maxCount < config.continuation.window + evaluations s.1) ∨
    f = .roomExceeded ∧
      (Population.capacity < config.nsga2.populationSize ∨
        Variation.maxParents < variation.arity ∨ Variation.maxParents < perturbation.arity) := by
  obtain ⟨ε, A, a, -, ha, hc₀⟩ := exists_of_ofPerturbation_eq_ok hc₀
  obtain ⟨hconfig, -, _, -, rfl⟩ := Continuation.ofConfig_eq_ok.1 hc₀
  obtain ⟨-, -, rfl⟩ := Nsga2.ofConfig_eq_ok.1 ha
  obtain ⟨hwindow, -⟩ := ContinuationConfig.validate_eq_ok.1 hconfig
  have hparts := h.sameParts
  have hbreakdown : Breakdown f (c, w) s.1.inner := by
    refine Continuation.breakdown_of_step ?_ hstep
    rw [hparts.config_eq]
    exact hconfig
  have hraise := hparts.mayRaise (mayRaise_of_breakdown (by rwa [hparts.config_eq])
    (by rwa [hparts.config_eq]) (h.counter_lt hwindow) hbreakdown)
  cases hraise with
  | inner hf =>
    cases hf with
    | problem hf => exact .inl (.inl hf)
    | variation hf => exact .inl (.inr (.inl hf))
    | room hf => exact .inr (.inr (.inr ⟨rfl, hf.imp_right .inl⟩))
    | order hf => exact .inr (.inl ⟨rfl, hf, hf.isTooWide⟩)
  | rebuild hf =>
    cases hf with
    | problem hf => exact .inl (.inl hf)
    | perturbation hf => exact .inl (.inr (.inr hf))
    | room hf => exact .inr (.inr (.inr ⟨rfl, .inr (.inr hf)⟩))
  | count hf => exact .inr (.inr (.inl ⟨rfl, hf⟩))

open Rehearsal

/-- A problem whose first decision is not evaluated as declared. -/
def firstShort : Problem ChaCha Stage (List Float) :=
  BenchmarkProblem.toProblem
    { function := .identity 2, objectives := 2, constraints := 0, bounds := []
      decisions := [[1.0], [1.0], [0.5, 2.5], [2.5, 0.5]], raiseFlagAt := none }

/-- An operator that takes more parents than can be chosen. -/
def insatiable : Variation ChaCha Stage (List Float) := shift (2 ^ 60) []

/-- The first step ends in an error, the second one succeeds with a rebuild behind it, and the third
one finds no room for parents. -/
theorem faults_of_step_of_no_room : ∃ (c₀ c : EpsilonNsga2 ChaCha Stage (List Float)) (w : Stage)
    (s : EpsilonNsga2 ChaCha Stage (List Float) × Stage) (k : ℕ),
    ofPerturbation 0 firstShort insatiable (shift 1 [-0.25]) growingToThree = .ok c₀ ∧
    Attempts c₀ k c ∧ c.progress.resizes.length = 1 ∧
    Search.step (c, w) = .error (.fault .roomExceeded) s ∧
    ((firstShort.Raises .roomExceeded ∨ insatiable.Raises .roomExceeded ∨
        (shift 1 [-0.25] : Variation ChaCha Stage (List Float)).Raises .roomExceeded) ∨
      (Fault.roomExceeded = .notOrdered ∧ s.1.inner.population.HasDisorderedFront ∧
        s.1.inner.population.IsTooWide) ∨
      (Fault.roomExceeded = .countOverflow ∧
        maxCount < growingToThree.continuation.window + evaluations s.1) ∨
      Fault.roomExceeded = .roomExceeded ∧
        (Population.capacity < growingToThree.nsga2.populationSize ∨
          Variation.maxParents < insatiable.arity ∨ Variation.maxParents < 1)) := by
  have hends : (match ofPerturbation 0 firstShort insatiable (shift 1 [-0.25])
      growingToThree with
    | .error _ => false
    | .ok c₀ => match (Search.step (c₀, ({} : Stage)) : EStateM.Result Failure _ Unit) with
      | .error (.error _) s => match (Search.step s : EStateM.Result Failure _ Unit) with
        | .ok _ t => match (Search.step t : EStateM.Result Failure _ Unit) with
          | .error (.fault .roomExceeded) _ => t.1.progress.resizes.length == 1
          | _ => false
        | _ => false
      | _ => false) = true := by decide +kernel
  cases hc₀ : ofPerturbation 0 firstShort insatiable (shift 1 [-0.25]) growingToThree with
  | error e => simp [hc₀] at hends
  | ok c₀ =>
    simp only [hc₀] at hends
    split at hends
    next e s hfailed =>
      split at hends
      next t hstep =>
        split at hends
        next u hfault =>
          have h := (Attempts.start.failedStep hfailed).step hstep
          exact ⟨c₀, t.1, t.2, u, _, rfl, h, by simpa using hends, hfault,
            faults_of_step hc₀ (by decide) h hfault⟩
        next => simp at hends
      next => simp at hends
    next => simp at hends

/-! ### A front that is not sorted -/

/-- A problem that gives out its decisions, evaluated as what they are, raises no fault. -/
theorem not_raises_of_identity [Generator ρ] (p : BenchmarkProblem) {split : ℕ}
    (hfunction : p.function = .identity split) (h : p.decisions ≠ []) (f : Fault) :
    ¬(p.toProblem : Problem ρ Stage (List Float)).Raises f := by
  rintro (⟨hcreate⟩ | ⟨hevaluate⟩)
  · simp only [BenchmarkProblem.toProblem, BenchmarkProblem.create, dif_pos h] at hcreate
    cases hcreate
  · simp only [BenchmarkProblem.toProblem, BenchmarkProblem.evaluate, hfunction] at hevaluate
    cases hevaluate

theorem not_raises_shift_nil (arity : ℕ) (f : Fault) :
    ¬(shift arity [] : Variation ρ Stage (List Float)).Raises f := by
  rintro ⟨parents, s, t, -, hevolve⟩
  cases hevolve

/-- Eleven great numbers. -/
def farOut : List Float := (List.range 11).map fun k => 1e308 + Float.ofNat k * 1e306

/-- Two objectives, one the negative of the other. The decisions of a first population of eleven have
great first objectives, and those of its children great second ones. -/
def mirrored : BenchmarkProblem where
  function := .identity 2
  objectives := 2
  constraints := 0
  bounds := []
  decisions := farOut.map (fun x => [x, -x]) ++ farOut.map fun x => [-x, x]
  raiseFlagAt := none

/-- A first population of eleven. -/
def elevenMembers : EpsilonNsga2Config :=
  EpsilonNsga2Config.withSeed
    { epsilons := [1e305], nsga2 := { populationSize := 11, selection := .uniform } } 1

/-- The second step of the algorithm on this problem sorts a front by distances that are no order. -/
theorem exists_notOrdered : ∃ (c₀ c : EpsilonNsga2 ChaCha Stage (List Float)) (k : ℕ) (w : Stage)
    (s : EpsilonNsga2 ChaCha Stage (List Float) × Stage),
    ofPerturbation 0 mirrored.toProblem (shift 1 []) (shift 1 []) elevenMembers = .ok c₀ ∧
    Attempts c₀ k c ∧ Search.step (c, w) = .error (.fault .notOrdered) s := by
  have hends : (match ofPerturbation 0 (mirrored.toProblem : Problem ChaCha Stage _) (shift 1 [])
      (shift 1 []) elevenMembers with
    | .error _ => false
    | .ok c₀ => match (Search.step (c₀, ({} : Stage)) : EStateM.Result Failure _ Unit) with
      | .ok _ s => match (Search.step s : EStateM.Result Failure _ Unit) with
        | .error (.fault .notOrdered) _ => true
        | _ => false
      | _ => false) = true := by decide +kernel
  cases hc₀ : ofPerturbation 0 (mirrored.toProblem : Problem ChaCha Stage _) (shift 1 [])
      (shift 1 []) elevenMembers with
  | error e => simp [hc₀] at hends
  | ok c₀ =>
    simp only [hc₀] at hends
    split at hends
    next s hstep =>
      split at hends
      next t hfault => exact ⟨c₀, s.1, _, s.2, t, rfl, .step .start hstep, hfault⟩
      next => simp at hends
    next => simp at hends

/-- Fronts are not always sorted by an order, even if the problem and the operators raise no faults. -/
theorem not_forall_ne_notOrdered : ¬∀ (entropy : UInt64)
    (problem : Problem ChaCha Stage (List Float))
    (variation perturbation : Variation ChaCha Stage (List Float)) (config : EpsilonNsga2Config)
    (c₀ c : EpsilonNsga2 ChaCha Stage (List Float)) (k : ℕ) (w : Stage) (f : Fault)
    (s : EpsilonNsga2 ChaCha Stage (List Float) × Stage),
    ofPerturbation entropy problem variation perturbation config = .ok c₀ →
    config.continuation.maximumPopulation ≤ 2 ^ 53 →
    (∀ f, ¬problem.Raises f ∧ ¬variation.Raises f ∧ ¬perturbation.Raises f) →
    Attempts c₀ k c → Search.step (c, w) = .error (.fault f) s → f ≠ .notOrdered := by
  intro hall
  obtain ⟨c₀, c, k, w, s, hc₀, hattempts, hfault⟩ := exists_notOrdered
  have hnone : ∀ f, ¬(mirrored.toProblem : Problem ChaCha Stage _).Raises f ∧
      ¬(shift 1 [] : Variation ChaCha Stage _).Raises f ∧
      ¬(shift 1 [] : Variation ChaCha Stage _).Raises f := fun f =>
    ⟨not_raises_of_identity mirrored rfl (by decide) f, not_raises_shift_nil 1 f,
      not_raises_shift_nil 1 f⟩
  exact hall 0 _ _ _ _ c₀ c k w _ s hc₀ (by decide) hnone hattempts hfault rfl

end ParetoSearch.EpsilonNsga2
