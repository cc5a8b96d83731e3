import ParetoSearch.Continuation.Basic
import ParetoSearch.Nsga2
import ParetoSearch.Variation.Mutation

/-!
# ε-NSGA-II

NSGA-II with an archive of boxes, under adaptive continuation.
-/

namespace ParetoSearch

variable {ρ W D : Type}

/-- An NSGA-II with an archive under adaptive continuation. -/
abbrev EpsilonNsga2 (ρ W D : Type) := Continuation (Nsga2 ρ W D) ρ W D

/-- The widths of the boxes and the configurations of the two parts. -/
structure EpsilonNsga2Config where
  epsilons : List Float
  nsga2 : Nsga2Config := {}
  continuation : ContinuationConfig := {}
  deriving Repr, DecidableEq

namespace EpsilonNsga2Config

/-- The configuration with another size of the first population; the least size of later ones is
lowered to it, if it was greater. -/
def withPopulationSize (c : EpsilonNsga2Config) (n : Nat) : EpsilonNsga2Config :=
  { c with
    nsga2 := { c.nsga2 with populationSize := n }
    continuation :=
      { c.continuation with minimumPopulation := min c.continuation.minimumPopulation n } }

/-- The configuration with another window between checks. -/
def withWindow (c : EpsilonNsga2Config) (n : Nat) : EpsilonNsga2Config :=
  { c with continuation := { c.continuation with window := n } }

/-- The configuration with a seed; the generator for rebuilds gets the number after it. -/
def withSeed (c : EpsilonNsga2Config) (seed : UInt64) : EpsilonNsga2Config :=
  { c with
    nsga2 := { c.nsga2 with seed := some seed }
    continuation := { c.continuation with seed := some (seed + 1) } }

/-- Refuses bad widths and whatever one of the parts refuses. -/
def validate (c : EpsilonNsga2Config) : Except Error Unit := do
  let _ ← Epsilons.ofList c.epsilons
  c.nsga2.validate
  c.continuation.validate

end EpsilonNsga2Config

namespace EpsilonNsga2

variable [Seedable ρ]

/-- The algorithm with a given operator for rebuilds. -/
def ofPerturbation (entropy : UInt64) (problem : Problem ρ W D)
    (variation perturbation : Variation ρ W D) (config : EpsilonNsga2Config) :
    Except Error (EpsilonNsga2 ρ W D) := do
  config.validate
  let ε ← Epsilons.ofList config.epsilons
  let archive ← Archive.withDimensions ε problem.objectives problem.constraints
  let inner ← Nsga2.ofConfig entropy problem variation config.nsga2
  Continuation.ofConfig entropy (inner.withArchive archive) config.continuation perturbation

/-- What an algorithm that is made is made of. -/
theorem exists_of_ofPerturbation_eq_ok {entropy : UInt64} {problem : Problem ρ W D}
    {variation perturbation : Variation ρ W D} {config : EpsilonNsga2Config}
    {c : EpsilonNsga2 ρ W D}
    (h : ofPerturbation entropy problem variation perturbation config = .ok c) :
    ∃ ε A a, Archive.withDimensions ε problem.objectives problem.constraints = .ok A ∧
      Nsga2.ofConfig entropy problem variation config.nsga2 = .ok a ∧
      Continuation.ofConfig entropy (a.withArchive A) config.continuation perturbation = .ok c := by
  obtain ⟨-, h⟩ := check_bind_eq_ok.1 h
  obtain ⟨ε, -, h⟩ := bind_eq_ok.1 h
  obtain ⟨A, hA, h⟩ := bind_eq_ok.1 h
  obtain ⟨a, ha, h⟩ := bind_eq_ok.1 h
  exact ⟨ε, A, a, hA, ha, h⟩

/-- The algorithm with uniform mutation of every variable for rebuilds. -/
def ofBounds (entropy : UInt64) (problem : Problem ρ W (List Float))
    (variation : Variation ρ W (List Float)) (bounds : List (Float × Float))
    (config : EpsilonNsga2Config) : Except Failure (EpsilonNsga2 ρ W (List Float)) := do
  let intervals ← Interval.ofPairs bounds
  ofPerturbation entropy problem variation (UniformMutation.ofBounds intervals 1.0).toVariation
    config

end EpsilonNsga2

end ParetoSearch
