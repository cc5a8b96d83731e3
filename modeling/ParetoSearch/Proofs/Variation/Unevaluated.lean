import Mathlib.Data.Nat.Notation
import Mathlib.Tactic.SplitIfs
import ParetoSearch.Rehearsal.Benchmark
import ParetoSearch.Rehearsal.Operators
import ParetoSearch.Variation.Crossover
import ParetoSearch.Variation.Mutation

/-!
# Who evaluates

A search evaluates what comes to it without an evaluation. A problem and its operators
leave all evaluations to the search if they make solutions of decisions only. Crossover
and both mutations do so, and so does an operator behind another one if it does so by
itself, whatever the first one makes. Of those of a rehearsal, the benchmarks and the
shift do; what is played back may have been evaluated.
-/

namespace ParetoSearch

variable {ρ W D σ : Type}

/-- The problem makes only solutions that are not evaluated. -/
def Problem.MakesUnevaluated (p : Problem ρ W D) : Prop :=
  ∀ (x : Solution D) (s t : ρ × W), p.create s = .ok x t → x.isEvaluated = false

/-- The operator makes only children that are not evaluated. -/
def Variation.MakesUnevaluated (v : Variation ρ W D) : Prop :=
  ∀ (parents children : List (Solution D)) (s t : ρ × W),
    v.evolve parents s = .ok children t → ∀ x ∈ children, x.isEvaluated = false

/-! ### Operators -/

namespace Variation

/-- The second operator has the last word. -/
theorem MakesUnevaluated.compound {second : Variation ρ W D} (h : second.MakesUnevaluated)
    (first : Variation ρ W D) : (first.compound second).MakesUnevaluated := by
  have heach : ∀ {made children : List (Solution D)} {s t : ρ × W},
      evolveEach second made s = .ok children t → ∀ x ∈ children, x.isEvaluated = false := by
    intro made
    induction made with
    | nil =>
      intro children s t hevolve
      obtain ⟨rfl, -⟩ := pure_apply_eq_ok.1 hevolve
      exact List.forall_mem_nil _
    | cons child rest ih =>
      intro children s t hevolve
      obtain ⟨found, _, hfound, hevolve⟩ := bind_apply_eq_ok.1 hevolve
      obtain ⟨others, _, hothers, hevolve⟩ := bind_apply_eq_ok.1 hevolve
      obtain ⟨rfl, -⟩ := pure_apply_eq_ok.1 hevolve
      exact List.forall_mem_append.2 ⟨h _ _ _ _ hfound, ih hothers⟩
  intro parents children s t hevolve
  obtain ⟨made, _, -, hevolve⟩ := bind_apply_eq_ok.1 hevolve
  exact heach hevolve

/-- An operator that only draws makes unevaluated children if its draws do. -/
theorem makesUnevaluated_of_draws {arity : ℕ}
    {draws : List (Solution D) → EStateM Fault ρ (List (Solution D))}
    (h : ∀ {parents children : List (Solution D)} {g g' : ρ},
      draws parents g = .ok children g' → ∀ x ∈ children, x.isEvaluated = false) :
    ({ arity, evolve := fun parents => onFirst (draws parents) } :
      Variation ρ W D).MakesUnevaluated := by
  intro parents children s t hevolve
  dsimp only at hevolve
  obtain ⟨g, hdraws, -⟩ := focus_apply_eq_ok.1 hevolve
  exact h hdraws

end Variation

section Operators

variable [Generator ρ]

theorem BinaryCrossover.makesUnevaluated (op : BinaryCrossover) :
    (op.toVariation : Variation ρ W (List Float)).MakesUnevaluated := by
  refine Variation.makesUnevaluated_of_draws fun {parents children g g'} hevolve => ?_
  match parents with
  | [] | [_] => cases hevolve
  | p :: q :: _ =>
    obtain ⟨⟨xs, ys⟩, _, -, hevolve⟩ := bind_apply_eq_ok.1 hevolve
    obtain ⟨rfl, -⟩ := pure_apply_eq_ok.1 hevolve
    simp

theorem PolynomialMutation.makesUnevaluated (op : PolynomialMutation) :
    (op.toVariation : Variation ρ W (List Float)).MakesUnevaluated := by
  refine Variation.makesUnevaluated_of_draws fun {parents children g g'} hevolve => ?_
  cases parents with
  | nil => cases hevolve
  | cons p _ =>
    obtain ⟨xs, _, -, hevolve⟩ := bind_apply_eq_ok.1 hevolve
    obtain ⟨rfl, -⟩ := pure_apply_eq_ok.1 hevolve
    simp

theorem UniformMutation.makesUnevaluated (op : UniformMutation) :
    (op.toVariation : Variation ρ W (List Float)).MakesUnevaluated := by
  refine Variation.makesUnevaluated_of_draws fun {parents children g g'} hevolve => ?_
  cases parents with
  | nil => cases hevolve
  | cons p _ =>
    obtain ⟨xs, _, -, hevolve⟩ := bind_apply_eq_ok.1 hevolve
    obtain ⟨rfl, -⟩ := pure_apply_eq_ok.1 hevolve
    simp

end Operators

/-! ### Rehearsals -/

namespace Rehearsal

theorem BenchmarkProblem.makesUnevaluated [Generator ρ] (p : BenchmarkProblem) :
    (p.toProblem : Problem ρ Stage (List Float)).MakesUnevaluated := by
  intro x s t hcreate
  change p.create s = .ok x t at hcreate
  unfold create at hcreate
  split at hcreate
  all_goals
    obtain ⟨_, _, -, hcreate⟩ := bind_apply_eq_ok.1 hcreate
    obtain ⟨rfl, -⟩ := pure_apply_eq_ok.1 hcreate
    rfl

theorem unevaluated_of_shifted {arity turn : ℕ} {parents children : List (Solution (List Float))}
    {amounts : List Float} (h : shifted arity parents turn amounts = .ok children) :
    ∀ x ∈ children, x.isEvaluated = false := by
  induction amounts generalizing turn children with
  | nil =>
    cases h
    exact List.forall_mem_nil _
  | cons amount rest ih =>
    unfold shifted at h
    split_ifs at h
    · cases h
    · dsimp only at h
      split at h
      · cases h
      · obtain ⟨others, hothers, h⟩ := bind_eq_ok.1 h
        cases h
        exact List.forall_mem_cons.2 ⟨rfl, ih hothers⟩

theorem shift_makesUnevaluated (arity : ℕ) (amounts : List Float) :
    (shift arity amounts : Variation ρ Stage (List Float)).MakesUnevaluated := by
  intro parents children s t hevolve
  change (liftM (shifted arity parents 0 amounts) : EStateM Fault (ρ × Stage) _) s = _ at hevolve
  cases hshifted : shifted arity parents 0 amounts with
  | error f =>
    rw [hshifted] at hevolve
    cases hevolve
  | ok found =>
    rw [hshifted] at hevolve
    cases hevolve
    exact unevaluated_of_shifted hshifted

end Rehearsal

end ParetoSearch
