import ParetoSearch.Proofs.EpsilonNsga2.Coverage
import ParetoSearch.Proofs.EpsilonNsga2.Sizes
import ParetoSearch.Proofs.Nsga2.Logging

/-!
# The account of evaluations

If nobody but the algorithm evaluates, every evaluation of an ε-NSGA-II can be accounted
for (`evaluations_accounted`): the first step evaluates as many solutions as are
configured, each later step as many as there are members, and each rebuild as many as it
records. A log kept beside the world (`Nsga2.logging`) shows that so many decisions have
been evaluated indeed, those of the solutions brought, each of them once.

The log does not get in the way: each step goes on beside it as it would without
(`Continuation.Passage.logging`).
-/

namespace ParetoSearch

variable {ρ W D : Type}

/-! ### A log beside the search -/

namespace Continuation

open Nsga2 (asked ready)

variable {c d : Continuation (Nsga2 ρ W D) ρ W D} {w w' : W}

/-- The search, where what it evaluates is written down. -/
@[simps]
def logging (c : Continuation (Nsga2 ρ W D) ρ W D) :
    Continuation (Nsga2 ρ (W × List D) D) ρ (W × List D) D where
  inner := c.inner.logging
  config := c.config
  perturbation := c.perturbation.logging
  generator := c.generator
  progress := c.progress

variable [Generator ρ]

theorem brood_logging (members : List (Solution D)) (v : Variation ρ W D) :
    brood members (v.logging : Variation ρ (W × List D) D) = besideLog (brood members v) := by
  unfold brood
  split <;> simp

theorem renewal_logging (c : Continuation (Nsga2 ρ W D) ρ W D) (size injected : ℕ) :
    c.logging.renewal size injected = besideLog (c.renewal size injected) := by
  have hproblem : Search.problem c.logging.inner = c.inner.problem.logging := rfl
  have harchive : Search.archive c.logging.inner = Search.archive c.inner := rfl
  simp only [renewal, hproblem, harchive, logging_perturbation, brood_logging,
    Problem.logging_create, Problem.createMany_logging, fill_besideLog, besideLog_bind,
    besideLog_pure]
  rfl

theorem Renews.logging {r : Resize} {solutions : List (Solution D)} {g : ρ}
    (h : c.Renews w r solutions g w') (log : List D) :
    c.logging.Renews (w, log) r solutions g (w', log) := by
  obtain ⟨hroom, g', w₁, hrenewal, heq⟩ := rebuild_eq_ok.1 h.rebuild_eq
  cases heq
  refine ⟨h.due, h.growth_eq, h.newSize_eq, rebuild_eq_ok.2 ⟨hroom, g, (w', log), ?_, rfl⟩,
    h.record_eq⟩
  rw [renewal_logging]
  exact besideLog_apply_of_ok hrenewal log

theorem Arrives.logging (h : c.Arrives w d w') (log : List D) :
    c.logging.Arrives (w, log) d.logging (w', log ++ asked .step (c.inner, w)) :=
  ⟨Nsga2.run_logging .step h.step_eq log, h.exists_counter,
    congrArg Continuation.logging h.eq_atCheck⟩

/-- **A step goes on as without a log**, and what its calls evaluate is written down. -/
theorem Passage.logging {calls : List (Search.Call D × Nsga2 ρ W D × W)}
    (h : Passage (c, w) calls (d, w')) (log : List D) :
    Search.step (c.logging, w, log) =
      .ok () (d.logging, w', log ++ calls.flatMap fun p => asked p.1 p.2) := by
  cases h with
  | quiet hstep hcounter hwindow =>
    rw [List.flatMap_singleton]
    exact Passage.step_eq (.quiet (Nsga2.run_logging .step hstep log) hcounter hwindow)
  | held harrives hgrown htime =>
    rw [List.flatMap_singleton]
    exact Passage.step_eq (.held (harrives.logging log) hgrown htime)
  | rebuilt harrives hrenews hreplace =>
    rw [List.flatMap_cons, List.flatMap_singleton, ← List.append_assoc]
    exact Passage.step_eq (.rebuilt (harrives.logging log) (hrenews.logging _)
      (Nsga2.run_logging (.replacePopulation _) hreplace _))

theorem unevaluated_of_brood {members children : List (Solution D)} {v : Variation ρ W D}
    {s t : ρ × W} (hv : v.MakesUnevaluated) (h : brood members v s = .ok children t) :
    ∀ x ∈ children, x.isEvaluated = false := by
  unfold brood at h
  split_ifs at h
  · obtain ⟨_, _, -, h⟩ := bind_apply_eq_ok.1 h
    obtain ⟨parents, _, -, h⟩ := bind_apply_eq_ok.1 h
    exact hv _ _ _ _ h
  · obtain ⟨rfl, -⟩ := pure_apply_eq_ok.1 h
    exact List.forall_mem_nil _

/-- Nothing that is made for a rebuild is evaluated yet, if the problem and the operator do not
evaluate. -/
theorem unevaluated_of_renewal {size injected : ℕ} {solutions : List (Solution D)} {s t : ρ × W}
    (hproblem : c.inner.problem.MakesUnevaluated) (hperturbs : c.perturbation.MakesUnevaluated)
    (h : c.renewal size injected s = .ok solutions t) :
    ∀ x ∈ solutions, x.isEvaluated = false := by
  obtain ⟨random, _, hrandom, h⟩ := bind_apply_eq_ok.1 h
  obtain ⟨others, _, hothers, h⟩ := bind_apply_eq_ok.1 h
  obtain ⟨rfl, -⟩ := pure_apply_eq_ok.1 h
  exact List.forall_mem_append.2 ⟨Problem.forall_mem_of_createMany (hproblem _ _ _) hrandom,
    forall_mem_of_fill (unevaluated_of_brood hperturbs) (hproblem _ _ _) (List.forall_mem_nil _)
      hothers⟩

theorem Renews.ready_eq_nil {r : Resize} {solutions : List (Solution D)} {g : ρ}
    (h : c.Renews w r solutions g w') (hproblem : c.inner.problem.MakesUnevaluated)
    (hperturbs : c.perturbation.MakesUnevaluated) (v : W) :
    ready (.replacePopulation solutions) (c.inner, v) = [] := by
  obtain ⟨-, _, _, hrenewal, -⟩ := rebuild_eq_ok.1 h.rebuild_eq
  exact Nsga2.ready_replacePopulation (unevaluated_of_renewal hproblem hperturbs hrenewal)

end Continuation

/-! ### Runs -/

namespace EpsilonNsga2

open Continuation (Passage)
open Nsga2 (asked newcomers ready)

section Runs

variable [Generator ρ] {config : EpsilonNsga2Config} {c₀ c d : EpsilonNsga2 ρ W D}
  {before : List (EpsilonNsga2 ρ W D)} {calls more : List (Search.Call D × Nsga2 ρ W D × W)}
  {log : List D} {w w' : W}

/-- How many solutions the steps from these states on are to bring: the first step `n`, each later
one as many as there are members. -/
def stepEvaluations (n : ℕ) : List (EpsilonNsga2 ρ W D) → ℕ
  | [] => 0
  | _ :: later => n + (later.map fun c => (Search.population c).length).sum

theorem stepEvaluations_concat (n : ℕ) (hbefore : before ≠ []) (c : EpsilonNsga2 ρ W D) :
    stepEvaluations n (before ++ [c]) =
      stepEvaluations n before + (Search.population c).length := by
  cases before with
  | nil => exact absurd rfl hbefore
  | cons b later => simp [stepEvaluations, Nat.add_assoc]

/-- The account is balanced: the ledger is kept, and the evaluations are those of the steps and
those that the rebuilds record. -/
structure Balanced (config : EpsilonNsga2Config) (before : List (EpsilonNsga2 ρ W D))
    (calls : List (Search.Call D × Nsga2 ρ W D × W)) (log : List D) (c : EpsilonNsga2 ρ W D) :
    Prop where
  recorded : Recorded config before.length c
  resizes_eq : before = [] → c.progress.resizes = []
  perturbs : c.perturbation.MakesUnevaluated
  ledger : c.inner.Ledger calls log
  evaluations_eq : c.inner.evaluations =
    stepEvaluations config.nsga2.populationSize before +
      (c.progress.resizes.map Resize.newPopulation).sum

namespace Balanced

/-- The inner algorithm's step is a step more in the account. -/
theorem step (h : Balanced config before calls log c) {a : Nsga2 ρ W D}
    (hstep : Search.step (c.inner, w) = .ok () (a, w')) :
    a.Ledger (calls ++ [(.step, c.inner, w)]) (log ++ asked .step (c.inner, w)) ∧
    a.evaluations = stepEvaluations config.nsga2.populationSize (before ++ [c]) +
      (c.progress.resizes.map Resize.newPopulation).sum := by
  have hrun : Search.Call.step.run (c.inner, w) = .ok () (a, w') := hstep
  have hready : ready .step (c.inner, w) = [] :=
    Nsga2.ready_step h.ledger.evaluatesAll.creates h.ledger.evaluatesAll.varies
  obtain ⟨-, hcount, -⟩ := Nsga2.of_ready_eq_nil hrun hready
  refine ⟨h.ledger.run hrun hready, ?_⟩
  rw [hcount, h.evaluations_eq, h.recorded.sized.room_step]
  cases hbefore : before with
  | nil => simp [stepEvaluations, lastSize, Progress.lastResize?, h.resizes_eq hbefore]
  | cons b later =>
    have hlength : (Search.population c).length = lastSize config.nsga2.populationSize c.progress :=
      h.recorded.sized.length_eq.trans (if_neg (by simp [hbefore]))
    rw [← hbefore, stepEvaluations_concat _ (by simp [hbefore]), hlength]
    omega

/-- **A step keeps the account balanced.** -/
theorem passage (h : Balanced config before calls log c)
    (hconfig : config.continuation.validate = .ok ())
    (hmax : config.continuation.maximumPopulation ≤ 2 ^ 53)
    (hpassage : Passage (c, w) more (d, w')) :
    Balanced config (before ++ [c]) (calls ++ more)
      (log ++ more.flatMap fun p => asked p.1 p.2) d := by
  have hrecorded : Recorded config (before ++ [c]).length d := by
    rw [List.length_append, List.length_singleton, ← innerSteps_eq_one hpassage]
    exact h.recorded.passage hconfig hmax hpassage
  cases hpassage with
  | quiet hstep =>
    obtain ⟨hledger, hcount⟩ := h.step hstep
    rw [List.flatMap_singleton]
    exact ⟨hrecorded, by simp, h.perturbs, hledger, hcount⟩
  | held harrives =>
    obtain ⟨hledger, hcount⟩ := h.step harrives.step_eq
    rw [List.flatMap_singleton]
    rw [harrives.eq_atCheck] at hrecorded ⊢
    exact ⟨hrecorded, by simp, h.perturbs, hledger, hcount⟩
  | @rebuilt _ e _ w₁ w₂ _ r solutions g a harrives hrenews hreplace =>
    obtain ⟨hledger, hcount⟩ := h.step harrives.step_eq
    have hresizes : e.progress.resizes = c.progress.resizes := by rw [harrives.eq_atCheck]; rfl
    have hperturbs : e.perturbation.MakesUnevaluated := by
      rw [harrives.eq_atCheck]
      exact h.perturbs
    have hrun : (Search.Call.replacePopulation solutions).run (e.inner, w₂) = .ok () (a, w') :=
      hreplace
    have hready := hrenews.ready_eq_nil hledger.evaluatesAll.creates hperturbs w₂
    have hlength : e.inner.room (.replacePopulation solutions) = r.newPopulation :=
      (h.recorded.arrives harrives).length_of_renews hconfig hmax hrenews
    obtain ⟨-, hmore, -⟩ := Nsga2.of_ready_eq_nil hrun hready
    refine ⟨hrecorded, by simp, hperturbs, by simpa using hledger.run hrun hready, ?_⟩
    rw [Continuation.rebuilt_inner, hmore, hcount, hlength, Continuation.rebuilt_progress_resizes,
      hresizes]
    simp [Nat.add_assoc]

end Balanced

/-- Runs of successful steps, with the states before the steps, the calls of the inner algorithm,
and what is written down if a log is kept beside the world. Each step may find another world. -/
inductive Account (c₀ : EpsilonNsga2 ρ W D) : List (EpsilonNsga2 ρ W D) →
    List (Search.Call D × Nsga2 ρ W D × W) → List D → EpsilonNsga2 ρ W D → Prop
  | start : Account c₀ [] [] [] c₀
  | step {before : List (EpsilonNsga2 ρ W D)} {calls more : List (Search.Call D × Nsga2 ρ W D × W)}
      {log log' : List D} {c d : EpsilonNsga2 ρ W D} {w w' : W}
      (haccount : Account c₀ before calls log c)
      (hstep : Search.step (c, w) = .ok () (d, w'))
      (hpassage : Passage (c, w) more (d, w'))
      (hlogging : Search.step (c.logging, w, log) = .ok () (d.logging, w', log')) :
      Account c₀ (before ++ [c]) (calls ++ more) log' d

namespace Account

theorem exists_step (h : Account c₀ before calls log c)
    (hstep : Search.step (c, w) = .ok () (d, w')) :
    ∃ more log', Account c₀ (before ++ [c]) (calls ++ more) log' d := by
  obtain ⟨more, hpassage⟩ := Continuation.exists_passage_of_step hstep
  exact ⟨more, _, .step h hstep hpassage (hpassage.logging log)⟩

theorem exists_stepMany {n : ℕ} (hsteps : Search.stepMany n (c₀, w) = .ok () (c, w')) :
    ∃ before calls log, Account c₀ before calls log c := by
  refine Search.of_stepMany (P := fun s => ∃ before calls log, Account c₀ before calls log s.1)
    ?_ ⟨[], [], [], .start⟩ hsteps
  rintro s t ⟨before, calls, log, h⟩ hstep
  obtain ⟨more, log', h⟩ := h.exists_step hstep
  exact ⟨_, _, _, h⟩

theorem balanced (h : Account c₀ before calls log c) (h₀ : Balanced config [] [] [] c₀)
    (hconfig : config.continuation.validate = .ok ())
    (hmax : config.continuation.maximumPopulation ≤ 2 ^ 53) :
    Balanced config before calls log c := by
  induction h with
  | start => exact h₀
  | step _ _ hpassage hlogging ih =>
    have hkept := ih.passage hconfig hmax hpassage
    cases hlogging.symm.trans (hpassage.logging _)
    exact hkept

end Account

end Runs

theorem balanced_of_ofPerturbation [Seedable ρ] {entropy : UInt64} {problem : Problem ρ W D}
    {variation perturbation : Variation ρ W D} {config : EpsilonNsga2Config}
    {c₀ : EpsilonNsga2 ρ W D}
    (hc₀ : ofPerturbation entropy problem variation perturbation config = .ok c₀)
    (hproblem : problem.MakesUnevaluated) (hvariation : variation.MakesUnevaluated)
    (hperturbation : perturbation.MakesUnevaluated) : Balanced config [] [] [] c₀ := by
  obtain ⟨-, hrecorded⟩ := recorded_of_ofPerturbation hc₀
  obtain ⟨ε, A, a, hA, ha, hc₀⟩ := exists_of_ofPerturbation_eq_ok hc₀
  obtain ⟨-, -, _, -, rfl⟩ := Continuation.ofConfig_eq_ok.1 hc₀
  obtain ⟨-, -, rfl⟩ := Nsga2.ofConfig_eq_ok.1 ha
  refine ⟨hrecorded, fun _ => rfl, hperturbation, ⟨?_, List.forall_mem_nil _, rfl, rfl⟩, rfl⟩
  exact ⟨hproblem, hvariation, Archive.objectives_pos_of_withDimensions hA, List.forall_mem_nil _⟩

/-- **Every evaluation is accounted for**: if the problem and the operators leave all evaluations to
an ε-NSGA-II, then in every run of successful steps the evaluations counted are those that the
problem has made. They are the configured size for the first step, the number of members before it
for each later step, and the size that it records for each rebuild. Nothing has come evaluated to
any call, so the decisions evaluated are those of all solutions that the calls have brought, each of
them once and in order. Every member has been evaluated. No step that succeeds is left out of
account. -/
theorem evaluations_accounted [Seedable ρ] {entropy : UInt64} {problem : Problem ρ W D}
    {variation perturbation : Variation ρ W D} {config : EpsilonNsga2Config}
    {c₀ c : EpsilonNsga2 ρ W D} {before : List (EpsilonNsga2 ρ W D)}
    {calls : List (Search.Call D × Nsga2 ρ W D × W)} {log : List D}
    (hc₀ : ofPerturbation entropy problem variation perturbation config = .ok c₀)
    (hmax : config.continuation.maximumPopulation ≤ 2 ^ 53)
    (hproblem : problem.MakesUnevaluated) (hvariation : variation.MakesUnevaluated)
    (hperturbation : perturbation.MakesUnevaluated) (h : Account c₀ before calls log c) :
    Search.evaluations c = log.length ∧
    Search.evaluations c = stepEvaluations config.nsga2.populationSize before +
      (c.progress.resizes.map Resize.newPopulation).sum ∧
    (∀ p ∈ calls, ready p.1 p.2 = []) ∧
    log = (calls.flatMap fun p => newcomers p.1 p.2).map Solution.decision ∧
    (∀ s ∈ Search.population c, s.isEvaluated) ∧
    ∀ w d w', Search.step (c, w) = .ok () (d, w') →
      ∃ more log', Account c₀ (before ++ [c]) (calls ++ more) log' d := by
  obtain ⟨hconfig, -⟩ := recorded_of_ofPerturbation hc₀
  have hstart := balanced_of_ofPerturbation hc₀ hproblem hvariation hperturbation
  have hbalanced := h.balanced hstart hconfig hmax
  exact ⟨hbalanced.ledger.evaluations_eq, hbalanced.evaluations_eq, hbalanced.ledger.ready_eq,
    hbalanced.ledger.log_eq, hbalanced.ledger.evaluatesAll.evaluated, fun _ _ _ => h.exists_step⟩

open Rehearsal

/-- Both steps are followed by a rebuild. The first evaluates two solutions, the second as many as
the first rebuild has left, and each rebuild three. -/
theorem evaluations_accounted_of_rebuilds : ∃ (c₀ c : EpsilonNsga2 ChaCha Stage (List Float))
    (before : List (EpsilonNsga2 ChaCha Stage (List Float)))
    (calls : List (Search.Call (List Float) × Nsga2 ChaCha Stage (List Float) × Stage))
    (log : List (List Float)),
    ofPerturbation 0 twoCorners (shift 1 [1.0]) (shift 1 [-0.25]) growingToThree = .ok c₀ ∧
    Account c₀ before calls log c ∧ c.progress.resizes.length = 2 ∧ log.length = 11 ∧
    Search.evaluations c =
      stepEvaluations 2 before + (c.progress.resizes.map Resize.newPopulation).sum ∧
    log = (calls.flatMap fun p => newcomers p.1 p.2).map Solution.decision ∧
    ∀ s ∈ Search.population c, s.isEvaluated := by
  have hends : (Search.reached
      (ofPerturbation 0 twoCorners (shift 1 [1.0]) (shift 1 [-0.25]) growingToThree)
      (Search.stepMany 2) {}).any (fun r =>
        r.2.1.progress.resizes.length == 2 && r.2.1.inner.evaluations == 11) = true := by
    decide +kernel
  obtain ⟨c₀, _, s, hc₀, hsteps, hends⟩ := Search.exists_of_reached hends
  simp only [Bool.and_eq_true, beq_iff_eq] at hends
  obtain ⟨before, calls, log, h⟩ := Account.exists_stepMany hsteps
  obtain ⟨hcount, hsum, -, hlog, hevaluated, -⟩ :=
    evaluations_accounted hc₀ (by decide) (BenchmarkProblem.makesUnevaluated _)
      (shift_makesUnevaluated 1 _) (shift_makesUnevaluated 1 _) h
  exact ⟨c₀, s.1, before, calls, log, hc₀, h, hends.1, hcount.symm.trans hends.2, hsum, hlog,
    hevaluated⟩

end EpsilonNsga2

end ParetoSearch
