import ParetoSearch.Proofs.Nsga2.Validity
import ParetoSearch.Proofs.Variation.Unevaluated

/-!
# What is evaluated

To tell which decisions an NSGA-II has evaluated, a log is kept beside the world of its
problem and operators. The problem writes each decision down before it evaluates it, and
nothing else touches the log. A call goes on as it would without a log (`run_logging`),
and behind it the log has grown by the decisions that were brought without an evaluation.

If nothing comes evaluated, all that a call brings is evaluated, each once and in order,
and counted (`of_ready_eq_nil`), and no member is left unevaluated (`EvaluatesAll.run`).
So the log and the evaluations that are counted agree for good (`Ledger.run`).
-/

namespace ParetoSearch

variable {ε ρ W L D α β : Type}

/-! ### A log beside the world -/

/-- Runs an operation where there is a log beside the world, and leaves the log alone. -/
def besideLog (x : EStateM ε (ρ × W) α) : EStateM ε (ρ × W × L) α :=
  focus (fun (g, w, _) => (g, w)) (fun (g, w) (_, _, log) => (g, w, log)) x

theorem besideLog_apply (x : EStateM ε (ρ × W) α) (g : ρ) (w : W) (log : L) :
    besideLog x (g, w, log) =
      match x (g, w) with
      | .ok a (g, w) => .ok a (g, w, log)
      | .error e (g, w) => .error e (g, w, log) := by
  unfold besideLog focus
  dsimp only
  cases x (g, w) <;> rfl

theorem besideLog_apply_of_ok {x : EStateM ε (ρ × W) α} {a : α} {g g' : ρ} {w w' : W}
    (h : x (g, w) = .ok a (g', w')) (log : L) :
    besideLog x (g, w, log) = .ok a (g', w', log) := by rw [besideLog_apply, h]

@[simp] theorem besideLog_pure (a : α) :
    besideLog (pure a : EStateM ε (ρ × W) α) = (pure a : EStateM ε (ρ × W × L) α) := rfl

@[simp] theorem besideLog_bind (x : EStateM ε (ρ × W) α) (f : α → EStateM ε (ρ × W) β) :
    besideLog (x >>= f) = (besideLog x >>= fun a => besideLog (f a) : EStateM ε (ρ × W × L) β) := by
  funext ⟨g, w, log⟩
  simp only [besideLog_apply, bind_apply]
  cases x (g, w) with
  | error e s => rfl
  | ok a s => exact (besideLog_apply (f a) s.1 s.2 log).symm

@[simp] theorem besideLog_check (x : Except ε α) :
    besideLog (liftM x : EStateM ε (ρ × W) α) = (liftM x : EStateM ε (ρ × W × L) α) := by
  cases x <;> rfl

@[simp] theorem besideLog_onFirst (x : EStateM ε ρ α) :
    besideLog (onFirst x : EStateM ε (ρ × W) α) = (onFirst x : EStateM ε (ρ × W × L) α) := by
  funext ⟨g, w, log⟩
  rw [besideLog_apply]
  unfold onFirst focus
  dsimp only
  cases x g <;> rfl

/-- Places are filled in the same way beside a log. -/
@[simp] theorem fill_besideLog (brood : EStateM Fault (ρ × W) (List (Solution D)))
    (create : EStateM Fault (ρ × W) (Solution D)) (places : ℕ) (pending : List (Solution D)) :
    fill (besideLog brood) (besideLog create) places pending =
      (besideLog (fill brood create places pending) : EStateM Fault (ρ × W × L) _) := by
  fun_induction fill brood create places pending with
  | case1 => rfl
  | case2 places s pending ih => simp only [fill, ih, besideLog_bind, besideLog_pure]
  | case3 places ih₁ ih₂ =>
    simp only [fill, besideLog_bind]
    congr 1
    funext children
    cases children with
    | nil => simp only [ih₁, besideLog_bind, besideLog_pure]
    | cons s pending => simp only [ih₂, besideLog_bind, besideLog_pure]

/-- The problem, where each decision is written down before it is evaluated. -/
@[simps]
def Problem.logging (p : Problem ρ W D) : Problem ρ (W × List D) D where
  objectives := p.objectives
  constraints := p.constraints
  create := besideLog p.create
  evaluate x := do
    modify fun (w, log) => (w, log ++ [x])
    onFirst (p.evaluate x)

/-- The operator, where there is a log beside the world. -/
@[simps]
def Variation.logging (v : Variation ρ W D) : Variation ρ (W × L) D where
  arity := v.arity
  evolve parents := besideLog (v.evolve parents)

namespace Problem

variable {p : Problem ρ W D} {solutions found : List (Solution D)} {w w' : W}

theorem createMany_logging (p : Problem ρ W D) (n : ℕ) :
    p.logging.createMany n = besideLog (p.createMany n) := by
  induction n with
  | zero => rfl
  | succ n ih => simp only [createMany, ih, logging_create, besideLog_bind, besideLog_pure]

theorem evaluateSolution_logging {s : Solution D} {r : Solution D × Except Error Unit}
    (h : p.evaluateSolution s w = .ok r w') (log : List D) :
    p.logging.evaluateSolution s (w, log) = .ok r (w', log ++ [s.decision]) := by
  obtain ⟨e, w₁, hevaluate, h⟩ := bind_apply_eq_ok.1 h
  obtain ⟨rfl, rfl⟩ := pure_apply_eq_ok.1 h
  have hlogging : p.logging.evaluate s.decision (w, log) = .ok e (w₁, log ++ [s.decision]) :=
    bind_apply_eq_ok.2 ⟨_, _, modify_apply _ _, focus_apply_eq_ok.2 ⟨w₁, hevaluate, rfl⟩⟩
  exact bind_apply_of_ok hlogging

/-- If all are evaluated without an error, the decision of each is written down. -/
theorem evaluateAll_logging (h : p.evaluateAll solutions w = .ok (found, .ok ()) w')
    (log : List D) :
    p.logging.evaluateAll solutions (w, log) =
      .ok (found, .ok ()) (w', log ++ solutions.map Solution.decision) := by
  induction solutions generalizing w w' found log with
  | nil =>
    obtain ⟨heq, rfl⟩ := pure_apply_eq_ok.1 h
    cases heq
    simp [evaluateAll]
  | cons s rest ih =>
    obtain ⟨⟨s', verdict⟩, w₁, hfirst, h⟩ := bind_apply_eq_ok.1 h
    dsimp only at h
    cases verdict with
    | error e =>
      obtain ⟨heq, -⟩ := pure_apply_eq_ok.1 h
      cases heq
    | ok =>
      obtain ⟨⟨others, _⟩, _, hrest, h⟩ := bind_apply_eq_ok.1 h
      obtain ⟨heq, rfl⟩ := pure_apply_eq_ok.1 h
      cases heq
      rw [List.map_cons, List.append_cons, evaluateAll,
        bind_apply_of_ok (evaluateSolution_logging hfirst log)]
      exact bind_apply_of_ok (ih hrest _)

end Problem

namespace Nsga2

variable {call : Search.Call D} {solutions found : List (Solution D)} {a b : Nsga2 ρ W D}
  {w w' : W}

/-- The algorithm, where what it evaluates is written down. -/
@[simps]
def logging (a : Nsga2 ρ W D) : Nsga2 ρ (W × List D) D where
  problem := a.problem.logging
  variation := a.variation.logging
  config := a.config
  generator := a.generator
  population := a.population
  archive := a.archive
  evaluations := a.evaluations
  steps := a.steps
  started := a.started

theorem drawing_logging {x : EStateM Fault (ρ × W) α} {r : α}
    (h : drawing x (a, w) = .ok r (b, w')) (log : List D) :
    drawing (besideLog x) (a.logging, w, log) = .ok r (b.logging, w', log) := by
  obtain ⟨g, hx, rfl⟩ := drawing_eq_ok.1 h
  exact drawing_eq_ok.2 ⟨g, besideLog_apply_of_ok hx log, rfl⟩

/-- What is taken in without an evaluation is written down. -/
theorem takeIn_logging (h : takeIn solutions (a, w) = .ok found (b, w')) (log : List D) :
    takeIn solutions (a.logging, w, log) = .ok found (b.logging, w',
      log ++ (solutions.filter (Bool.not ∘ (·.isEvaluated))).map Solution.decision) := by
  obtain ⟨evaluated, hevaluated, hfound, hall, rfl⟩ := takeIn_eq_ok.1 h
  exact takeIn_eq_ok.2
    ⟨evaluated, Problem.evaluateAll_logging hevaluated log, hfound, hall, rfl⟩

variable [Generator ρ]

theorem brood_logging (a : Nsga2 ρ W D) : a.logging.brood = besideLog a.brood := by
  simp [brood]

theorem brought_logging (h : brought call (a, w) = .ok solutions (b, w')) (log : List D) :
    brought call (a.logging, w, log) = .ok solutions (b.logging, w', log) := by
  cases call with
  | replacePopulation given =>
    cases given with
    | nil => cases h
    | cons s rest =>
      cases h
      rfl
  | step =>
    rw [brought_step_eq_ok] at h ⊢
    simp only [brood_logging, logging_started, logging_problem, logging_population, logging_config,
      Problem.logging_create, fill_besideLog, Problem.createMany_logging]
    split_ifs at h ⊢ with hstarted
    · exact drawing_logging h log
    · exact h.imp_right (drawing_logging · log)

/-- The decisions that come to a call without an evaluation, in order. -/
def asked (call : Search.Call D) (s : Nsga2 ρ W D × W) : List D :=
  match brought call s with
  | .ok solutions _ => (solutions.filter (Bool.not ∘ (·.isEvaluated))).map Solution.decision
  | .error _ _ => []

theorem admitted_logging (h : admitted call (a, w) = .ok found (b, w')) (log : List D) :
    admitted call (a.logging, w, log) = .ok found (b.logging, w', log ++ asked call (a, w)) := by
  obtain ⟨solutions, ⟨a₁, w₁⟩, hbrought, htake⟩ := bind_apply_eq_ok.1 h
  rw [admitted, bind_apply_of_ok (brought_logging hbrought log), takeIn_logging htake log, asked,
    hbrought]

/-- **A call goes on as without a log**, and what it evaluates is written down. -/
theorem run_logging (call : Search.Call D) (h : call.run (a, w) = .ok () (b, w')) (log : List D) :
    call.run (a.logging, w, log) = .ok () (b.logging, w', log ++ asked call (a, w)) := by
  obtain ⟨found, g, n, P, hadmitted, -, -, hP, rfl⟩ := exists_of_run_eq_ok h
  have hrivals : a.logging.rivals call = a.rivals call := by cases call <;> rfl
  rw [run_apply, admitted_logging hadmitted log]
  simp only [hrivals, hP]
  rfl

/-- What a call brings is asked for, unless it came evaluated. -/
theorem map_decision_newcomers (h : admitted call (a, w) = .ok found (b, w')) :
    (newcomers call (a, w)).map Solution.decision =
      (ready call (a, w)).map Solution.decision ++ asked call (a, w) := by
  obtain ⟨solutions, ⟨a₁, w₁⟩, hbrought, htake⟩ := bind_apply_eq_ok.1 h
  obtain ⟨evaluated, hevaluated, hfound, -, -⟩ := takeIn_eq_ok.1 htake
  simp only [newcomers_eq h, hfound, ready, asked, hbrought, List.map_append,
    Problem.map_decision_of_evaluateAll hevaluated]

end Nsga2

/-! ### Where nothing comes evaluated -/

/-- What a problem accepts has been evaluated. -/
theorem Problem.Accepts.isEvaluated {p : Problem ρ W D} {s : Solution D} (h : p.Accepts s)
    (hobjectives : 0 < p.objectives) : s.isEvaluated := by
  obtain ⟨hm, -, -⟩ := accepts_iff.1 h
  rw [Solution.isEvaluated, Bool.not_eq_true', List.isEmpty_eq_false_iff]
  exact List.ne_nil_of_length_pos (hm ▸ hobjectives)

namespace Nsga2

variable {call : Search.Call D} {solutions : List (Solution D)} {a b : Nsga2 ρ W D} {w w' : W}

theorem filter_isEvaluated_eq_nil (h : ∀ x ∈ solutions, x.isEvaluated = false) :
    solutions.filter (·.isEvaluated) = [] :=
  List.filter_eq_nil_iff.2 fun x hx => Bool.eq_false_iff.1 (h x hx)

variable [Generator ρ]

theorem unevaluated_of_brood (hvariation : a.variation.MakesUnevaluated)
    {children : List (Solution D)} {s t : ρ × W} (h : a.brood s = .ok children t) :
    ∀ x ∈ children, x.isEvaluated = false := by
  obtain ⟨_, _, -, h⟩ := bind_apply_eq_ok.1 h
  obtain ⟨parents, _, -, h⟩ := bind_apply_eq_ok.1 h
  exact hvariation _ _ _ _ h

/-- Nothing comes to a step evaluated, if the problem and the operator do not evaluate. -/
theorem ready_step (hproblem : a.problem.MakesUnevaluated)
    (hvariation : a.variation.MakesUnevaluated) : ready .step (a, w) = [] := by
  unfold ready
  split
  next solutions s hbrought =>
    refine filter_isEvaluated_eq_nil ?_
    rw [brought_step_eq_ok] at hbrought
    split_ifs at hbrought
    · obtain ⟨g, hfill, -⟩ := drawing_eq_ok.1 hbrought
      exact forall_mem_of_fill (unevaluated_of_brood hvariation) (hproblem _ _ _)
        (List.forall_mem_nil _) hfill
    · obtain ⟨g, hmany, -⟩ := drawing_eq_ok.1 hbrought.2
      exact Problem.forall_mem_of_createMany (hproblem _ _ _) hmany
  next => rfl

theorem ready_replacePopulation (h : ∀ x ∈ solutions, x.isEvaluated = false) :
    ready (.replacePopulation solutions) (a, w) = [] := by
  cases solutions with
  | nil => rfl
  | cons s rest => exact filter_isEvaluated_eq_nil h

/-- If nothing comes to a call evaluated, all that it brings is asked for, counted and accepted. -/
theorem of_ready_eq_nil (h : call.run (a, w) = .ok () (b, w')) (hready : ready call (a, w) = []) :
    asked call (a, w) = (newcomers call (a, w)).map Solution.decision ∧
    b.evaluations = a.evaluations + a.room call ∧
    ∀ s ∈ newcomers call (a, w), a.problem.Accepts s := by
  obtain ⟨found, g, n, P, hadmitted, hroom, -, -, rfl⟩ := exists_of_run_eq_ok h
  obtain ⟨evaluated, hfound, hcount, haccepts⟩ := exists_of_admitted_eq_ok hadmitted
  rw [hready, List.nil_append] at hfound
  refine ⟨?_, ?_, ?_⟩
  · rw [map_decision_newcomers hadmitted, hready]
    rfl
  · rw [← hroom, hfound, ← hcount]
    rfl
  · rw [newcomers_eq hadmitted, hfound]
    exact haccepts

/-- The problem and the operator leave all evaluations to the algorithm, and every member has been
evaluated. -/
structure EvaluatesAll (a : Nsga2 ρ W D) : Prop where
  creates : a.problem.MakesUnevaluated
  varies : a.variation.MakesUnevaluated
  objectives_pos : 0 < a.problem.objectives
  evaluated : ∀ s ∈ a.population, s.isEvaluated

/-- No call but one that is given evaluated solutions lets an unevaluated member in. -/
theorem EvaluatesAll.run (h : a.EvaluatesAll) (hrun : call.run (a, w) = .ok () (b, w'))
    (hready : ready call (a, w) = []) : b.EvaluatesAll := by
  obtain ⟨-, -, haccepts⟩ := of_ready_eq_nil hrun hready
  have hevaluated : ∀ s ∈ b.population, s.isEvaluated := by
    intro s hs
    obtain ⟨t, ht, heq⟩ := exists_mem_of_run hrun s hs
    have hobjectives : s.objectives = t.objectives := congrArg Entry.objectives heq
    rw [Solution.isEvaluated, hobjectives]
    rcases List.mem_append.1 (a.rivals_append_subset call _ ht) with ht | ht
    · exact h.evaluated t ht
    · exact (haccepts t ht).isEvaluated h.objectives_pos
  obtain ⟨found, g, n, P, -, -, -, -, rfl⟩ := exists_of_run_eq_ok hrun
  exact ⟨h.creates, h.varies, h.objectives_pos, hevaluated⟩

/-- The ledger of a run in which nothing has come evaluated to the calls so far: what is written
down are the decisions that they have brought, and as many evaluations are counted. -/
structure Ledger (calls : List (Search.Call D × Nsga2 ρ W D × W)) (log : List D)
    (a : Nsga2 ρ W D) : Prop where
  evaluatesAll : a.EvaluatesAll
  ready_eq : ∀ p ∈ calls, ready p.1 p.2 = []
  log_eq : log = (calls.flatMap fun p => newcomers p.1 p.2).map Solution.decision
  evaluations_eq : a.evaluations = log.length

/-- The ledger goes on with each call to which nothing comes evaluated. -/
theorem Ledger.run {calls : List (Search.Call D × Nsga2 ρ W D × W)} {log : List D}
    (h : a.Ledger calls log) (hrun : call.run (a, w) = .ok () (b, w'))
    (hready : ready call (a, w) = []) :
    b.Ledger (calls ++ [(call, a, w)]) (log ++ asked call (a, w)) := by
  obtain ⟨hasked, hcount, -⟩ := of_ready_eq_nil hrun hready
  refine ⟨h.evaluatesAll.run hrun hready, ?_, ?_, ?_⟩
  · intro p hp
    rcases List.mem_append.1 hp with hp | hp
    · exact h.ready_eq p hp
    · rw [List.mem_singleton.1 hp]
      exact hready
  · rw [h.log_eq, hasked]
    simp
  · rw [hcount, h.evaluations_eq, hasked]
    simp [length_newcomers hrun]

end Nsga2

end ParetoSearch
