import ParetoSearch.Proofs.Nsga2.Memory
import ParetoSearch.Proofs.Population.Room
import ParetoSearch.Random.ChaCha
import ParetoSearch.Rehearsal.Benchmark
import ParetoSearch.Rehearsal.Operators

/-!
# Which members are valid

What NSGA-II evaluates itself is checked against the numbers of objectives and
constraints that the problem declares. What comes to it evaluated already, as a child of
an operator, from the problem or in a replacement, is not: it only has to be comparable
with what it is ranked with, and to fit the archive, if there is one. So in a run in which
calls may fail, every member has been accepted by the problem, or it is one of those that
came evaluated (`Attempts.vouched`).

Members that are ranked together agree in shape. Hence one of them that the problem
accepts speaks for all, and a call that has evaluated anything itself leaves members only
that the problem accepts (`accepts_of_run`). Where all that was ranked came evaluated, it
may be of another shape than declared, and then all of it is (`not_forall_accepts`).
-/

namespace ParetoSearch

variable {ρ W D : Type}

/-! ### Accepted evaluations -/

theorem Solution.validate_eq_ok {s : Solution D} {m c : ℕ} :
    s.validate m c = .ok () ↔ s.Fits m c := by
  simp only [validate, check_bind_eq_ok, ensureLength_eq_ok, ensureFinite_eq_ok, Fits, AllFinite]
  exact and_congr eq_comm (and_congr_left' eq_comm)

theorem Solution.Fits.of_entry_eq {s t : Solution D} {m c : ℕ} (h : t.Fits m c)
    (heq : Entry.ofSolution s = Entry.ofSolution t) : s.Fits m c := by
  have hentry : (Entry.ofSolution t).toSolution.Fits m c := h
  rw [← heq] at hentry
  exact hentry

namespace Problem

variable {p : Problem ρ W D} {s t : Solution D}

/-- The solution passes the check of what the problem evaluates. -/
def Accepts (p : Problem ρ W D) (s : Solution D) : Prop :=
  s.validate p.objectives p.constraints = .ok ()

theorem accepts_iff : p.Accepts s ↔ s.Fits p.objectives p.constraints := Solution.validate_eq_ok

theorem Accepts.of_entry_eq (h : p.Accepts t) (heq : Entry.ofSolution s = Entry.ofSolution t) :
    p.Accepts s := accepts_iff.2 ((accepts_iff.1 h).of_entry_eq heq)

/-- One solution that is accepted speaks for all that it can be compared with. -/
theorem Accepts.of_pairwise (h : p.Accepts s) {P : Population D}
    (hP : P.Pairwise Solution.Comparable) (hs : s ∈ P) : ∀ t ∈ P, p.Accepts t := by
  intro t ht
  by_cases heq : s = t
  · exact heq ▸ h
  · have hcomparable := hP.forall hs ht heq
    obtain ⟨hm, hc, -⟩ := accepts_iff.1 h
    exact accepts_iff.2
      ⟨hcomparable.1.1.symm.trans hm, hcomparable.1.2.symm.trans hc, hcomparable.2.2⟩

/-- If all are evaluated without an error, all are accepted. -/
theorem accepts_of_evaluateAll {solutions found : List (Solution D)} {w w' : W}
    (h : p.evaluateAll solutions w = .ok (found, .ok ()) w') : ∀ s ∈ found, p.Accepts s := by
  induction solutions generalizing w w' found with
  | nil =>
    obtain ⟨heq, -⟩ := pure_apply_eq_ok.1 h
    cases heq
    simp
  | cons s rest ih =>
    obtain ⟨⟨s', verdict⟩, _, hfirst, h⟩ := bind_apply_eq_ok.1 h
    dsimp only at h
    cases verdict with
    | error e =>
      obtain ⟨heq, -⟩ := pure_apply_eq_ok.1 h
      cases heq
    | ok =>
      obtain ⟨e, _, -, hfirst⟩ := bind_apply_eq_ok.1 hfirst
      obtain ⟨hverdict, -⟩ := pure_apply_eq_ok.1 hfirst
      obtain ⟨rfl, haccepts⟩ := Prod.mk.inj hverdict
      obtain ⟨⟨others, _⟩, _, hrest, h⟩ := bind_apply_eq_ok.1 h
      obtain ⟨heq, -⟩ := pure_apply_eq_ok.1 h
      cases heq
      exact List.forall_mem_cons.2 ⟨haccepts, ih hrest⟩

end Problem

namespace Nsga2

variable {a b c : Nsga2 ρ W D} {w w' : W} {call : Search.Call D}
  {found given : List (Solution D)} {s t : Solution D}

/-- What is taken in came evaluated, or it is counted as an evaluation and accepted. -/
theorem exists_of_takeIn_eq_ok {solutions : List (Solution D)}
    (h : takeIn solutions (a, w) = .ok found (b, w')) :
    ∃ evaluated, found = solutions.filter (·.isEvaluated) ++ evaluated ∧
      b.evaluations = a.evaluations + evaluated.length ∧ ∀ s ∈ evaluated, a.problem.Accepts s := by
  obtain ⟨evaluated, hevaluated, rfl, -, rfl⟩ := takeIn_eq_ok.1 h
  exact ⟨evaluated, rfl, rfl, Problem.accepts_of_evaluateAll hevaluated⟩

variable [Generator ρ]

/-! ### What a call brings -/

/-- The solutions that come to a call evaluated already. -/
def ready (call : Search.Call D) (s : Nsga2 ρ W D × W) : List (Solution D) :=
  match brought call s with
  | .ok solutions _ => solutions.filter (·.isEvaluated)
  | .error _ _ => []

theorem exists_of_admitted_eq_ok (h : admitted call (a, w) = .ok found (b, w')) :
    ∃ evaluated, found = ready call (a, w) ++ evaluated ∧
      b.evaluations = a.evaluations + evaluated.length ∧ ∀ s ∈ evaluated, a.problem.Accepts s := by
  obtain ⟨solutions, ⟨b₁, w₁⟩, hbrought, htake⟩ := bind_apply_eq_ok.1 h
  have hready : ready call (a, w) = solutions.filter (·.isEvaluated) := by rw [ready, hbrought]
  rcases brought_cases call a w with ⟨_, g, w₂, hbrought', -⟩ | ⟨f, s, hbrought'⟩
  · cases hbrought.symm.trans hbrought'
    rw [hready]
    exact exists_of_takeIn_eq_ok (a := a.drawn g) htake
  · cases hbrought.symm.trans hbrought'

theorem mem_ready_or_accepts (hs : s ∈ newcomers call (a, w)) :
    s ∈ ready call (a, w) ∨ a.problem.Accepts s := by
  unfold newcomers at hs
  split at hs
  next found t hadmitted =>
    obtain ⟨b, w'⟩ := t
    obtain ⟨evaluated, rfl, -, haccepts⟩ := exists_of_admitted_eq_ok hadmitted
    exact (List.mem_append.1 hs).imp_right (haccepts s)
  next => cases hs

/-- If a call counts an evaluation, it brings a newcomer that is accepted. -/
theorem exists_accepts_of_evaluations_lt (h : call.run (a, w) = .ok () (b, w'))
    (hlt : a.evaluations < b.evaluations) :
    ∃ s ∈ newcomers call (a, w), a.problem.Accepts s := by
  obtain ⟨found, g, n, P, hadmitted, -, -, -, rfl⟩ := exists_of_run_eq_ok h
  obtain ⟨evaluated, hfound, hcount, haccepts⟩ := exists_of_admitted_eq_ok hadmitted
  obtain ⟨s, hs⟩ : ∃ s, s ∈ evaluated :=
    List.exists_mem_of_length_pos (Nat.lt_add_right_iff_pos.1 (hlt.trans_eq hcount))
  refine ⟨s, ?_, haccepts s hs⟩
  rw [newcomers_eq hadmitted, hfound]
  exact List.mem_append_right _ hs

theorem pairwise_comparable_of_run (h : call.run (a, w) = .ok () (b, w')) :
    (a.rivals call ++ newcomers call (a, w)).Pairwise Solution.Comparable := by
  obtain ⟨found, g, n, P, hadmitted, -, -, hP, -⟩ := exists_of_run_eq_ok h
  rw [newcomers_eq hadmitted]
  exact (Population.exists_of_truncate_eq_ok hP).1

/-! ### Runs -/

/-- Runs of calls that succeed or end in an error, with the solutions that come to them evaluated
already. Each call may find another world. -/
inductive Attempts (a₀ : Nsga2 ρ W D) : List (Solution D) → Nsga2 ρ W D → Prop
  | start : Attempts a₀ [] a₀
  | call {given : List (Solution D)} {a b : Nsga2 ρ W D} {w w' : W} (call : Search.Call D)
      (h : Attempts a₀ given a) (hcall : call.run (a, w) = .ok () (b, w')) :
      Attempts a₀ (given ++ ready call (a, w)) b
  | failed {given : List (Solution D)} {a b : Nsga2 ρ W D} {w w' : W} {e : Error}
      (call : Search.Call D) (h : Attempts a₀ given a)
      (hcall : call.run (a, w) = .error (.error e) (b, w')) :
      Attempts a₀ (given ++ ready call (a, w)) b

/-- The problem accepts the solution, or it is one of those given, but for its attributes. -/
def Vouched (p : Problem ρ W D) (given : List (Solution D)) (s : Solution D) : Prop :=
  p.Accepts s ∨ ∃ t ∈ given, Entry.ofSolution s = Entry.ofSolution t

namespace Vouched

variable {p : Problem ρ W D}

omit [Generator ρ]

theorem append (h : Vouched p given s) (more : List (Solution D)) : Vouched p (given ++ more) s :=
  h.imp_right fun ⟨t, ht, heq⟩ => ⟨t, List.mem_append_left _ ht, heq⟩

theorem of_entry_eq (h : Vouched p given t) (heq : Entry.ofSolution s = Entry.ofSolution t) :
    Vouched p given s :=
  h.imp (·.of_entry_eq heq) fun ⟨u, hu, heq'⟩ => ⟨u, hu, heq.trans heq'⟩

theorem accepts (h : Vouched p given s) (hgiven : ∀ t ∈ given, p.Accepts t) : p.Accepts s :=
  h.elim id fun ⟨t, ht, heq⟩ => (hgiven t ht).of_entry_eq heq

end Vouched

/-- A call vouches for whatever it ranks, if its members were vouched for. -/
theorem vouched_of_mem_ranked (h : ∀ s ∈ a.population, Vouched a.problem given s) (w : W) :
    ∀ s ∈ a.rivals call ++ newcomers call (a, w),
      Vouched a.problem (given ++ ready call (a, w)) s := by
  intro s hs
  rcases List.mem_append.1 (a.rivals_append_subset call _ hs) with hs | hs
  · exact (h s hs).append _
  · rcases mem_ready_or_accepts hs with hs | hs
    · exact .inr ⟨s, List.mem_append_right _ hs, rfl⟩
    · exact .inl hs

namespace Attempts

variable {a₀ : Nsga2 ρ W D} {A : Archive D}

theorem problem_eq (h : Attempts a₀ given a) : a.problem = a₀.problem := by
  induction h with
  | start => rfl
  | call _ _ hcall ih =>
    obtain ⟨found, g, n, P, -, -, -, -, rfl⟩ := exists_of_run_eq_ok hcall
    exact ih
  | failed _ _ hcall ih =>
    rcases of_run_eq_error hcall with ⟨offered, g, n, -, rfl⟩ | ⟨found, g, n, P, -, -, -, -, rfl⟩
    · exact ih
    · exact ih

/-- **Every member is accepted or was given**, whichever calls have failed. -/
theorem vouched (h : Attempts a₀ given a) (hnone : a₀.population = []) :
    ∀ s ∈ a.population, Vouched a₀.problem given s := by
  induction h with
  | start => simp [hnone]
  | @call _ a _ w _ call h hcall ih =>
    rw [← h.problem_eq] at ih ⊢
    intro s hs
    obtain ⟨t, ht, heq⟩ := exists_mem_of_run hcall s hs
    exact (vouched_of_mem_ranked ih w t ht).of_entry_eq heq
  | @failed _ a _ w _ _ call h hcall ih =>
    rw [← h.problem_eq] at ih ⊢
    intro s hs
    -- What could not be ranked stays in the population, and is vouched for all the same.
    rcases population_of_run_eq_error hcall with ⟨-, hsame⟩ | ⟨-, -, hjoined, -⟩
    · exact (ih s (hsame ▸ hs)).append _
    · exact vouched_of_mem_ranked ih w s (hjoined ▸ hs)

/-- With an archive the population is remembered all along. -/
theorem remembers (h : Attempts a₀ given a) (hnone : a₀.population = [])
    (hA : a₀.archive = some A) (hsound : A.Sound) : a.Remembers a.population := by
  induction h with
  | start => exact ⟨A, hA, hsound, by simp [hnone]⟩
  | call _ _ hcall ih => exact ih.run_population hcall
  | failed _ _ hcall ih =>
    obtain ⟨offered, g, n, rfl⟩ := ih.of_run_eq_error hcall
    exact Remembers.fed (a := Nsga2.drawn _ g) ih n offered

/-- What every offer keeps holds of the archive all along. -/
theorem exists_archive_of_addAll {P : Archive D → Prop}
    (hP : ∀ (A : Archive D) (offered : List (Solution D)), P A →
      P (Archive.leftBehind (Archive.addAll offered A)))
    (h : Attempts a₀ given a) (hA : a₀.archive = some A) (hPA : P A) :
    ∃ B, a.archive = some B ∧ P B := by
  induction h with
  | start => exact ⟨A, hA, hPA⟩
  | call _ _ hcall ih =>
    obtain ⟨B, hB, hPB⟩ := ih
    obtain ⟨found, g, n, P, -, -, -, -, rfl⟩ := exists_of_run_eq_ok hcall
    exact ⟨_, congrArg (Option.map _) hB, hP B found hPB⟩
  | failed _ _ hcall ih =>
    obtain ⟨B, hB, hPB⟩ := ih
    rcases of_run_eq_error hcall with ⟨offered, g, n, -, rfl⟩ | ⟨found, g, n, P, -, -, -, -, rfl⟩
    · exact ⟨_, congrArg (Option.map _) hB, hP B offered hPB⟩
    · exact ⟨_, congrArg (Option.map _) hB, hP B found hPB⟩

/-- With an archive whose numbers are fixed as declared every member is accepted. -/
theorem accepts_of_fixes (h : Attempts a₀ given a) (hnone : a₀.population = [])
    (hA : a₀.archive = some A) (hsound : A.Sound)
    (hfixes : A.Fixes a₀.problem.objectives a₀.problem.constraints) :
    ∀ s ∈ a.population, a₀.problem.Accepts s := by
  obtain ⟨B, hB, -, hcovers⟩ := h.remembers hnone hA hsound
  obtain ⟨C, hC, -, hkept⟩ := h.exists_archive_of_addAll
    (P := fun A => A.Sound ∧ A.Fixes a₀.problem.objectives a₀.problem.constraints)
    (fun A offered h => ⟨h.1.addAll offered, h.1.fixes_addAll offered h.2⟩) hA ⟨hsound, hfixes⟩
  obtain rfl : B = C := Option.some.inj (hB.symm.trans hC)
  exact fun s hs => Problem.accepts_iff.2 ((hcovers s hs).1.of_fixes hkept)

end Attempts

/-- **Members are valid where something valid is ranked**: a call that has counted an evaluation, or
in which some parent or newcomer is accepted by the problem, leaves members only that the problem
accepts, whatever came evaluated. In any case each member that is not accepted came evaluated, to
this call or to an earlier one; the members agree in shape and are finite if at least two solutions
were ranked, or if there was an archive from the start; and if the numbers declared were fixed in
this archive, all members are accepted. -/
theorem accepts_of_run {a₀ : Nsga2 ρ W D} (h : Attempts a₀ given a) (hnone : a₀.population = [])
    (hrun : call.run (a, w) = .ok () (b, w')) :
    (a.evaluations < b.evaluations ∨
        (∃ s ∈ a.rivals call ++ newcomers call (a, w), a₀.problem.Accepts s) →
      ∀ s ∈ b.population, a₀.problem.Accepts s) ∧
    (∀ s ∈ b.population, a₀.problem.Accepts s ∨
      ∃ t ∈ given ++ ready call (a, w), Entry.ofSolution s = Entry.ofSolution t) ∧
    (2 ≤ (a.rivals call ++ newcomers call (a, w)).length →
      ∃ m c, ∀ s ∈ b.population, s.validate m c = .ok ()) ∧
    ∀ A, a₀.archive = some A → A.Reachable →
      (∃ m c, ∀ s ∈ b.population, s.validate m c = .ok ()) ∧
      (A.objectives = some a₀.problem.objectives → A.constraints = some a₀.problem.constraints →
        ∀ s ∈ b.population, a₀.problem.Accepts s) := by
  have hb := h.call call hrun
  have hcomparable := pairwise_comparable_of_run hrun
  refine ⟨?_, hb.vouched hnone, ?_, ?_⟩
  · intro hone
    -- Whatever is ranked can be compared with this one, so it has the same shape.
    obtain ⟨s, hs, haccepts⟩ :
        ∃ s ∈ a.rivals call ++ newcomers call (a, w), a₀.problem.Accepts s := by
      rcases hone with hlt | hone
      · obtain ⟨s, hs, haccepts⟩ := exists_accepts_of_evaluations_lt hrun hlt
        exact ⟨s, List.mem_append_right _ hs, h.problem_eq ▸ haccepts⟩
      · exact hone
    intro t ht
    obtain ⟨u, hu, heq⟩ := exists_mem_of_run hrun t ht
    exact (haccepts.of_pairwise hcomparable hs u hu).of_entry_eq heq
  · intro hmany
    obtain ⟨m, c, hfits⟩ := Population.exists_fits_of_pairwise hcomparable hmany
    refine ⟨m, c, fun s hs => ?_⟩
    obtain ⟨t, ht, heq⟩ := exists_mem_of_run hrun s hs
    exact Solution.validate_eq_ok.2 ((hfits t ht).of_entry_eq heq)
  · intro A hA hreachable
    obtain ⟨m, c, hfits⟩ := (hb.remembers hnone hA hreachable.sound).exists_fits
    refine ⟨⟨m, c, fun s hs => Solution.validate_eq_ok.2 (hfits s hs)⟩, ?_⟩
    intro hm hc
    exact hb.accepts_of_fixes hnone hA hreachable.sound ⟨hm, hc⟩

open Rehearsal

/-- A problem with two objectives, and two decisions to give out. -/
def twoObjectives : Problem ChaCha Stage (List Float) :=
  BenchmarkProblem.toProblem
    { function := .identity 2, objectives := 2, constraints := 0, bounds := []
      decisions := [[1.0, 2.0], [2.0, 1.0]], raiseFlagAt := none }

/-- Two solutions that come evaluated, with one objective each. -/
def oneObjective : List (Solution (List Float)) :=
  [Solution.ofEvaluation [1.0] ⟨[1.0], []⟩, Solution.ofEvaluation [2.0] ⟨[2.0], []⟩]

/-- A new algorithm takes solutions that come evaluated for its population, although the problem
accepts none of them. -/
theorem not_forall_accepts : ¬∀ (entropy : UInt64) (config : Nsga2Config)
    (a₀ a b : Nsga2 ChaCha Stage (List Float)) (given : List (Solution (List Float)))
    (call : Search.Call (List Float)) (w w' : Stage),
    Nsga2.ofConfig entropy twoObjectives (shift 1 [1.0]) config = .ok a₀ → Attempts a₀ given a →
    call.run (a, w) = .ok () (b, w') → ∀ s ∈ b.population, twoObjectives.Accepts s := by
  intro hall
  have hends : (firstCall (Nsga2.ofConfig 0 twoObjectives (shift 1 [1.0]) { populationSize := 2 })
      (.replacePopulation oneObjective) ({} : Stage)).any (fun t =>
        t.1.population.any fun s => s.objectives.length == 1) = true := by decide +kernel
  obtain ⟨a₀, t, ha₀, hrun, hends⟩ := exists_of_firstCall hends
  obtain ⟨s, hs, hlength⟩ := List.any_eq_true.1 hends
  obtain ⟨htwo, -⟩ := Problem.accepts_iff.1 (hall 0 _ a₀ a₀ t.1 [] _ {} t.2 ha₀ .start hrun s hs)
  exact absurd ((beq_iff_eq.1 hlength).symm.trans htwo) (by decide)

/-- An empty archive for solutions with two objectives and no constraints. -/
def forTwo (ε : Epsilons) : Archive (List Float) where
  epsilons := ε
  objectives := some 2
  constraints := some 0

theorem reachable_forTwo (ε : Epsilons) : (forTwo ε).Reachable :=
  .withDimensions (rfl : Archive.withDimensions ε 2 0 = .ok (forTwo ε))

/-- An operator with two children, of which one comes evaluated. -/
def halfEvaluated : Variation ChaCha Stage (List Float) :=
  playback 1 2 [Solution.ofEvaluation [0.0] ⟨[0.5, 2.5], []⟩, Solution.ofDecision [2.5, 0.5]] 0

/-- In the second step one child comes evaluated and the other one is evaluated. -/
theorem accepts_of_run_of_half : ∃ (a₀ a b : Nsga2 ChaCha Stage (List Float))
    (A : Archive (List Float)) (given : List (Solution (List Float))) (w w' : Stage),
    Attempts a₀ given a ∧ a₀.population = [] ∧ Search.Call.step.run (a, w) = .ok () (b, w') ∧
    (ready .step (a, w)).length = 1 ∧ a.evaluations < b.evaluations ∧
    a₀.archive = some A ∧ A.Reachable ∧ A.objectives = some a₀.problem.objectives ∧
    A.constraints = some a₀.problem.constraints ∧ ∀ s ∈ b.population, a₀.problem.Accepts s := by
  let A := forTwo ⟨[1.0], by decide, by decide⟩
  have hends : (firstCall ((Nsga2.ofConfig 0 twoObjectives halfEvaluated
      { populationSize := 2 }).map (·.withArchive A)) .step ({} : Stage)).any (fun s =>
        (ready .step s).length == 1 && match Search.Call.step.run s with
        | .error _ _ => false
        | .ok _ t => decide (s.1.evaluations < t.1.evaluations)) = true := by decide +kernel
  obtain ⟨a₀, s, ha₀, hstart, hends⟩ := exists_of_firstCall hends
  obtain ⟨a₁, ha₁, rfl⟩ := map_eq_ok.1 ha₀
  obtain ⟨-, -, rfl⟩ := ofConfig_eq_ok.1 ha₁
  simp only [Bool.and_eq_true, beq_iff_eq] at hends
  obtain ⟨hready, hends⟩ := hends
  cases hrun : Search.Call.step.run s with
  | error e t => simp [hrun] at hends
  | ok _ t =>
    simp only [hrun, decide_eq_true_eq] at hends
    have h := Attempts.start.call .step hstart
    exact ⟨_, s.1, t.1, A, _, s.2, t.2, h, rfl, hrun, hready, hends, rfl, reachable_forTwo _, rfl,
      rfl, (accepts_of_run h rfl hrun).1 (.inl hends)⟩

end Nsga2

end ParetoSearch
