import ParetoSearch.Search
import ParetoSearch.Selection
import ParetoSearch.Truncation
import ParetoSearch.Variation.Basic

/-!
# NSGA-II

The population starts with random decisions. In each later step as many children as there are
members are made of selected parents; the children join the population, and it is cut down to its
old size. Every solution that enters is evaluated, unless it came evaluated, and offered to the
archive, if there is one.
-/

namespace ParetoSearch

/-! ### Configuration -/

/-- How an NSGA-II works. -/
structure Nsga2Config where
  populationSize : Nat := 100
  selection : Selection := .tournament 2
  /-- The seed of the generator, if the run is to be repeatable. -/
  seed : Option UInt64 := none
  deriving Repr, DecidableEq

/-- Refuses a population of fewer than two members and a tournament of none. -/
def Nsga2Config.validate (c : Nsga2Config) : Except Error Unit :=
  if c.populationSize < 2 then .error (.configuration (.populationTooSmall c.populationSize))
  else if c.selection = .tournament 0 then .error (.configuration .emptyTournament)
  else .ok ()

/-! ### The algorithm -/

/-- An NSGA-II at work. -/
structure Nsga2 (ρ W D : Type) where
  problem : Problem ρ W D
  variation : Variation ρ W D
  config : Nsga2Config
  generator : ρ
  population : Population D := []
  archive : Option (Archive D) := none
  evaluations : Nat := 0
  steps : Nat := 0
  /-- Whether there has been a population. -/
  started : Bool := false

namespace Nsga2

variable {ρ W D α : Type}

/-- An algorithm that has not started. A configured seed starts the generator, `entropy` where there
is none. -/
def ofConfig [Seedable ρ] (entropy : UInt64) (problem : Problem ρ W D)
    (variation : Variation ρ W D) (config : Nsga2Config) : Except Error (Nsga2 ρ W D) := do
  config.validate
  if variation.arity = 0 then throw (.configuration .variationWithoutParents)
  return { problem, variation, config, generator := Seedable.ofOption entropy config.seed }

/-- An algorithm is made if the configuration makes sense and the operator takes parents. -/
theorem ofConfig_eq_ok [Seedable ρ] {entropy : UInt64} {problem : Problem ρ W D}
    {variation : Variation ρ W D} {config : Nsga2Config} {a : Nsga2 ρ W D} :
    ofConfig entropy problem variation config = .ok a ↔
      config.validate = .ok () ∧ variation.arity ≠ 0 ∧
        a = { problem, variation, config, generator := Seedable.ofOption entropy config.seed } := by
  unfold ofConfig
  simp only [check_bind_eq_ok]
  refine and_congr_right fun _ => ?_
  by_cases harity : variation.arity = 0
  · simp [harity, throw, throwThe, MonadExceptOf.throw, Functor.map, Except.map]
  · simp [harity, pure, Except.pure, eq_comm]

/-- The algorithm with an archive to feed. -/
def withArchive (a : Nsga2 ρ W D) (archive : Archive D) : Nsga2 ρ W D :=
  { a with archive := some archive }

/-! ### Taking in solutions -/

/-- Runs draws with the algorithm's generator. -/
def drawing (x : EStateM Fault (ρ × W) α) : EStateM Failure (Nsga2 ρ W D × W) α :=
  focus (fun (a, w) => (a.generator, w)) (fun (g, w) (a, _) => ({ a with generator := g }, w))
    (EStateM.adaptExcept .fault x)

/-- Changes the algorithm's population. -/
def onPopulation (x : EStateM Failure (Population D) α) : EStateM Failure (Nsga2 ρ W D × W) α :=
  focus (fun (a, _) => a.population) (fun p (a, w) => ({ a with population := p }, w)) x

/-- Offers solutions to the archive, if there is one, up to the first that it refuses with an
error. -/
def offer (solutions : List (Solution D)) : EStateM Failure (Nsga2 ρ W D × W) Unit :=
  focus (fun (a, _) => a.archive) (fun archive (a, w) => ({ a with archive }, w))
    (EStateM.adaptExcept .error (Archive.offerAll solutions))

/-- Evaluates the solutions that are not yet evaluated, counts them, and offers all solutions to the
archive; those that came evaluated go first. -/
def takeIn (solutions : List (Solution D)) :
    EStateM Failure (Nsga2 ρ W D × W) (List (Solution D)) := do
  let (ready, fresh) := solutions.partition (·.isEvaluated)
  let problem := (← get).1.problem
  let (evaluated, verdict) ← (onSecond (EStateM.adaptExcept .fault (problem.evaluateAll fresh)) :
    EStateM Failure (Nsga2 ρ W D × W) _)
  (verdict : Except Error Unit)
  modify fun (a, w) => ({ a with evaluations := a.evaluations + evaluated.length }, w)
  offer (ready ++ evaluated)
  return ready ++ evaluated

/-- Makes the solutions the population, all of them ranked and measured. -/
def install (solutions : List (Solution D)) : EStateM Failure (Nsga2 ρ W D × W) Unit := do
  let members ← takeIn solutions
  onPopulation do
    set members
    Population.truncate members.length
  modify fun (a, w) => ({ a with started := true }, w)

/-! ### Steps -/

/-- The first population. -/
def start : EStateM Failure (Nsga2 ρ W D × W) Unit := do
  let (a, _) ← get
  ensureRoom Population.capacity a.config.populationSize
  install (← drawing (a.problem.createMany a.config.populationSize))

variable [Generator ρ]

/-- Selected members, as many as asked for. -/
def chooseParents (how : Selection) (members : Population D) :
    Nat → EStateM Fault ρ (List (Solution D))
  | 0 => return []
  | n + 1 => do
    let i ← how.select members
    let others ← chooseParents how members n
    return members[i] :: others

/-- The children of newly selected parents. -/
def brood (a : Nsga2 ρ W D) : EStateM Fault (ρ × W) (List (Solution D)) := do
  ensureRoom Variation.maxParents a.variation.arity
  let parents ← onFirst (chooseParents a.config.selection a.population a.variation.arity)
  a.variation.evolve parents

/-- The next population. -/
def generation : EStateM Failure (Nsga2 ρ W D × W) Unit := do
  let (a, _) ← get
  let size := a.population.length
  let offspring ← takeIn (← drawing (fill a.brood a.problem.create size []))
  onPopulation do
    modify (· ++ offspring)
    Population.truncate size

/-- Takes a step: the first makes a population, each later one the next generation. -/
def step : EStateM Failure (Nsga2 ρ W D × W) Unit := do
  if (← get).1.started then generation else start
  modify fun (a, w) => ({ a with steps := a.steps + 1 }, w)

/-- Puts other solutions in the place of the population; there must be some. -/
def replacePopulation (solutions : List (Solution D)) :
    EStateM Failure (Nsga2 ρ W D × W) Unit := do
  if solutions.isEmpty then throw (.fault .emptyReplacement)
  install solutions

instance : Search (Nsga2 ρ W D) ρ W D where
  problem := problem
  population := population
  archive := archive
  evaluations := evaluations
  steps := steps
  step := step
  replacePopulation := replacePopulation

end Nsga2

end ParetoSearch
