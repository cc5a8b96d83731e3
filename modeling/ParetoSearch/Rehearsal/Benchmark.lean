import ParetoSearch.Problem
import ParetoSearch.Random.Generator
import ParetoSearch.Rehearsal.Stage

/-!
# Benchmark problems

Small problems on decisions of real variables: Schaffer's function, with and without a constraint,
ZDT1, and a problem whose decisions are their own evaluations. The declared numbers of objectives
and constraints are free, so that they can be made to disagree with the evaluations.
-/

namespace ParetoSearch.Rehearsal

/-- Which function is evaluated. -/
inductive Benchmark where
  /-- The first values are the objectives, the others the constraints. -/
  | identity (split : Nat)
  | schaffer
  /-- Schaffer's function where the variable should be at least one. -/
  | constrainedSchaffer
  | zdt1
  deriving Repr, DecidableEq

namespace Benchmark

/-- The first value of a decision. -/
def first (x : List Float) : Except Fault Float :=
  match x with
  | [] => .error .indexOutside
  | x₀ :: _ => .ok x₀

/-- Schaffer's two objectives. -/
def schafferObjectives (x₀ : Float) : List Float := [x₀ * x₀, (x₀ - 2.0) * (x₀ - 2.0)]

/-- The value of the function at a decision. -/
def value : Benchmark → List Float → Except Fault Evaluation
  | identity split, x => return ⟨x.take split, x.drop split⟩
  | schaffer, x => return ⟨schafferObjectives (← first x), []⟩
  | constrainedSchaffer, x => do
    let x₀ ← first x
    return ⟨schafferObjectives x₀, [if x₀ < 1.0 then 1.0 - x₀ else 0.0]⟩
  | zdt1, x => do
    let x₀ ← first x
    let sum := (x.drop 1).foldl (· + ·) 0.0
    let g := 1.0 + 9.0 * sum / Float.ofNat (x.length - 1)
    return ⟨[x₀, g * (1.0 - (x₀ / g).sqrt)], []⟩

end Benchmark

/-- A benchmark with what it declares, where its decisions come from, and when it raises its
flag. -/
structure BenchmarkProblem where
  function : Benchmark
  objectives : Nat
  constraints : Nat
  /-- Decisions are drawn from these intervals, one variable from each. -/
  bounds : List (Float × Float)
  /-- If there are any, these decisions are given out in turn instead. -/
  decisions : List (List Float)
  /-- The evaluation from which on the flag is raised. -/
  raiseFlagAt : Option Nat
  deriving Repr, DecidableEq

namespace BenchmarkProblem

variable {ρ : Type} [Generator ρ]

/-- One variable from each interval. -/
def drawAll : List (Float × Float) → EStateM Fault ρ (List Float)
  | [] => return []
  | (low, high) :: rest => do
    let x ← Draw.halfOpen low high
    let others ← drawAll rest
    return x :: others

/-- The next decision of a list that is not empty. -/
def nextDecision (decisions : List (List Float)) (h : decisions ≠ []) :
    StateM Stage (List Float) := do
  let stage ← get
  set { stage with creations := stage.creations + 1 }
  return decisions.get
    ⟨stage.creations % decisions.length, Nat.mod_lt _ (List.length_pos_iff.2 h)⟩

/-- A decision, not evaluated. -/
def create (p : BenchmarkProblem) : EStateM Fault (ρ × Stage) (Solution (List Float)) := do
  if h : p.decisions ≠ [] then
    return Solution.ofDecision (← onSecond (EStateM.fromStateM (nextDecision p.decisions h)))
  else return Solution.ofDecision (← onFirst (drawAll p.bounds))

/-- Counts an evaluation and raises the flag if it is time. -/
def countEvaluation (p : BenchmarkProblem) (stage : Stage) : Stage :=
  let evaluations := stage.evaluations + 1
  { stage with
    evaluations
    flag := stage.flag || p.raiseFlagAt.any (· ≤ evaluations) }

/-- The evaluation of a decision. -/
def evaluate (p : BenchmarkProblem) (x : List Float) : EStateM Fault Stage Evaluation := do
  modify p.countEvaluation
  (p.function.value x : Except Fault Evaluation)

/-- The benchmark as a problem. -/
def toProblem (p : BenchmarkProblem) : Problem ρ Stage (List Float) where
  objectives := p.objectives
  constraints := p.constraints
  create := p.create
  evaluate := p.evaluate

end BenchmarkProblem

end ParetoSearch.Rehearsal
