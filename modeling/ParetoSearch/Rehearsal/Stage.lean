/-!
# The stage of a rehearsal

The world in which the problems and operators of a rehearsal remember how far they have come.
-/

namespace ParetoSearch.Rehearsal

/-- What the problems and operators of a rehearsal remember. -/
structure Stage where
  /-- How often the problem has evaluated. -/
  evaluations : Nat := 0
  /-- How many listed decisions the problem has given out. -/
  creations : Nat := 0
  /-- The problem's flag. -/
  flag : Bool := false
  /-- How many listed children each operator that plays a list back has given out. -/
  turns : List Nat := []
  deriving Repr, DecidableEq

/-- Reads the problem's flag. -/
def Stage.look : StateM Stage Bool := return (← get).flag

/-- Lowers the problem's flag. -/
def Stage.lowerFlag (stage : Stage) : Stage := { stage with flag := false }

/-- Makes room for an operator that plays a list back, and gives its place. -/
def Stage.reserve : StateM Stage Nat := do
  let stage ← get
  set { stage with turns := stage.turns ++ [0] }
  return stage.turns.length

end ParetoSearch.Rehearsal
