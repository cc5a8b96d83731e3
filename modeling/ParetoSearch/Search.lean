import ParetoSearch.Archive.Basic
import ParetoSearch.Problem

/-!
# Search algorithms

A search algorithm works on a problem step by step and counts its evaluations and its steps. Its
steps change the algorithm and the world of its problem and operators together, and what a failing
step has changed stays changed. A run takes steps until a budget of evaluations is used up, a flag
is raised, or a step uses no evaluations.
-/

namespace ParetoSearch

/-- The algorithms of type `α`, on decisions of type `D` in a world of type `W`. -/
class Search (α : Type) (ρ W D : outParam Type) where
  /-- The problem that is searched. -/
  problem : α → Problem ρ W D
  /-- The solutions that the algorithm works on. -/
  population : α → Population D
  /-- The archive that the algorithm feeds, if it has one. -/
  archive : α → Option (Archive D)
  /-- How many evaluations have been counted, over all calls. -/
  evaluations : α → Nat
  /-- How many steps have been counted, over all calls. -/
  steps : α → Nat
  /-- Takes a step. -/
  step : EStateM Failure (α × W) Unit
  /-- Puts other solutions in the place of the population. -/
  replacePopulation : List (Solution D) → EStateM Failure (α × W) Unit

namespace Search

variable {α ρ W D : Type} [Search α ρ W D]

/-- The number of members of the archive; zero without an archive. -/
def archiveSize (a : α) : Nat := ((archive a).map Archive.size).getD 0

/-- Takes a number of steps, up to the first that fails. -/
def stepMany : Nat → EStateM Failure (α × W) Unit
  | 0 => return ()
  | n + 1 => do
    step
    stepMany n

/-- What every step that succeeds keeps is kept by any number of them. -/
theorem of_stepMany {P : α × W → Prop} (hstep : ∀ {s t : α × W}, P s → step s = .ok () t → P t)
    {n : Nat} {s t : α × W} (hs : P s) (h : stepMany n s = .ok () t) : P t := by
  induction n generalizing s with
  | zero =>
    obtain ⟨-, rfl⟩ := pure_apply_eq_ok.1 h
    exact hs
  | succ n ih =>
    obtain ⟨_, u, hfirst, h⟩ := bind_apply_eq_ok.1 h
    exact ih (hstep hs hfirst) h

/-! ### Runs -/

/-- How a run ended. -/
structure Outcome where
  evaluations : Nat
  steps : Nat
  /-- Whether a raised flag ended the run. -/
  cancelled : Bool
  deriving Repr, DecidableEq

/-- The outcome of a run that ends with the algorithm as it is. -/
def outcome (a : α) (cancelled : Bool) : Outcome := ⟨evaluations a, steps a, cancelled⟩

/-- Looks at the flag, if there is one. -/
def isRaised : Option (StateM W Bool) → StateM W Bool
  | none => return false
  | some look => look

/-- Takes steps while evaluations are left of the budget, the flag is not raised and steps use
evaluations, but at most `limit` steps; no outcome means that the limit was met. -/
def runWithin (flag : Option (StateM W Bool)) (budget : Nat) :
    (limit : Nat) → EStateM Failure (α × W) (Option Outcome)
  | limit, (a, w) =>
    if budget ≤ evaluations a then .ok (some (outcome a false)) (a, w)
    else
      match isRaised flag w with
      | (true, w) => .ok (some (outcome a true)) (a, w)
      | (false, w) =>
        match limit with
        | 0 => .ok none (a, w)
        | limit + 1 =>
          match (step : EStateM Failure (α × W) Unit) (a, w) with
          | .error e s => .error e s
          | .ok _ (a', w') =>
            if evaluations a' = evaluations a then .ok (some (outcome a' false)) (a', w')
            else runWithin flag budget limit (a', w')

/-- Runs until the budget is used up or the flag is raised. A step that uses evaluations uses at
least one, so there are never more steps than evaluations left, unless the algorithm takes back
evaluations it has counted. -/
def runUnlessCancelled (flag : Option (StateM W Bool)) (budget : Nat) :
    EStateM Failure (α × W) (Option Outcome) := fun (a, w) =>
  runWithin flag budget (budget - evaluations a) (a, w)

/-- Runs until the budget is used up. -/
def run (budget : Nat) : EStateM Failure (α × W) (Option Outcome) :=
  runUnlessCancelled none budget

end Search

end ParetoSearch
