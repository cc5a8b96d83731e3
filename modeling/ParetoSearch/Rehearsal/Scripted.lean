import ParetoSearch.Search

/-!
# A scripted algorithm

An algorithm that does what a script says: each cue names how many evaluations a step is said to use
and what it offers to the archive. It serves to rehearse what wraps an algorithm.
-/

namespace ParetoSearch.Rehearsal

/-- What a step does. -/
structure Cue (D : Type) where
  /-- How many evaluations the step uses; it may take some back. -/
  evaluations : Int := 0
  /-- What the step offers to the archive. -/
  offers : List (Solution D) := []
  deriving Repr, DecidableEq

/-- An algorithm that follows a script. -/
structure Scripted (ρ W D : Type) where
  problem : Problem ρ W D
  population : Population D
  archive : Option (Archive D)
  /-- The cues of the steps; the last one is repeated. -/
  script : List (Cue D)
  /-- Whether a replacing population is offered to the archive. -/
  archivesReplacements : Bool
  evaluations : Nat := 0
  steps : Nat := 0

namespace Scripted

variable {ρ W D : Type}

/-- Offers solutions to the archive, if there is one. -/
def offer (solutions : List (Solution D)) : EStateM Failure (Scripted ρ W D × W) Unit :=
  focus (fun (a, _) => a.archive) (fun archive (a, w) => ({ a with archive }, w))
    (EStateM.adaptExcept .error (Archive.offerAll solutions))

/-- The cue of the next step. -/
def cue (a : Scripted ρ W D) : Cue D :=
  (a.script[a.steps]?.orElse fun _ => a.script.getLast?).getD {}

/-- Follows the next cue. -/
def step : EStateM Failure (Scripted ρ W D × W) Unit := do
  let cue := (← get).1.cue
  modify fun (a, w) =>
    ({ a with
      steps := a.steps + 1
      evaluations := ((a.evaluations : Int) + cue.evaluations).toNat }, w)
  offer cue.offers

/-- Evaluates the solutions that are not yet evaluated, counting each. -/
def evaluateFresh : List (Solution D) → EStateM Failure (Scripted ρ W D × W) (List (Solution D))
  | [] => return []
  | s :: rest => do
    if s.isEvaluated then
      let others ← evaluateFresh rest
      return s :: others
    else
      let problem := (← get).1.problem
      let (s, verdict) ← (onSecond (EStateM.adaptExcept .fault (problem.evaluateSolution s)) :
        EStateM Failure (Scripted ρ W D × W) _)
      (verdict : Except Error Unit)
      modify fun (a, w) => ({ a with evaluations := a.evaluations + 1 }, w)
      let others ← evaluateFresh rest
      return s :: others

/-- Puts other solutions in the place of the population. -/
def replacePopulation (solutions : List (Solution D)) :
    EStateM Failure (Scripted ρ W D × W) Unit := do
  let members ← evaluateFresh solutions
  if (← get).1.archivesReplacements then offer members
  modify fun (a, w) => ({ a with population := members }, w)

instance : Search (Scripted ρ W D) ρ W D where
  problem := problem
  population := population
  archive := archive
  evaluations := evaluations
  steps := steps
  step := step
  replacePopulation := replacePopulation

end Scripted

end ParetoSearch.Rehearsal
