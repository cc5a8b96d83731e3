import ParetoSearch.Epsilon

/-!
# Members of an archive

The members of an archive stand under the keys of their boxes, at most one under each, in the order
of the keys.
-/

namespace ParetoSearch

variable {D : Type}

/-- Solutions under the keys of their boxes, in the order of the keys. -/
abbrev Members (D : Type) := List (BoxKey × Solution D)

namespace Members

/-- The solution in a box. -/
def find? (members : Members D) (key : BoxKey) : Option (Solution D) := members.lookup key

/-- Puts a solution into a box; the one that was there is replaced. -/
def place (key : BoxKey) (s : Solution D) : Members D → Members D
  | [] => [(key, s)]
  | (k, m) :: rest =>
    match compare key k with
    | .lt => (key, s) :: (k, m) :: rest
    | .eq => (key, s) :: rest
    | .gt => (k, m) :: place key s rest

/-- The solutions, in the order of their keys. -/
def solutions (members : Members D) : List (Solution D) := members.map (·.2)

/-- Whether some member is better than the solution; the first that is settles it. -/
def anyDominates (compare : Comparison D) (s : Solution D) (members : Members D) :
    Except Error Bool :=
  members.anyM fun p => compare.dominates p.2 s

/-- The members that the solution is not better than; the one in the box to be spared is not
compared. -/
def notDominatedBy (compare : Comparison D) (s : Solution D) (spared : Option BoxKey) :
    Members D → Except Error (Members D)
  | [] => return []
  | (k, m) :: rest => do
    let worse ← if spared = some k then pure false else compare.dominates s m
    let others ← notDominatedBy compare s spared rest
    return if worse then others else (k, m) :: others

end Members

end ParetoSearch
