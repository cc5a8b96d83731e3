import ParetoSearch.Crowding

/-!
# Truncation

A population is cut down to a size by keeping its best fronts whole and of the first front that
does not fit the members with the greatest crowding distances, earlier members before later ones at
equal distances. The survivors keep their order, and each keeps its rank and crowding distance.
-/

namespace ParetoSearch.Population

variable {D : Type}

/-- Ranks the members by dominance and stores the number of each one's front. A population that
cannot be ranked is left alone. -/
def assignRanks : EStateM Failure (Population D) Ranking := do
  let ranking ← Ranking.ofSolutions paretoComparison (← get)
  modify fun members => members.zipWith Solution.setRank ranking.ranks
  return ranking

/-- The members of a front from the greatest crowding distance down. -/
def byCrowding (front : List Nat) (distances : List Float) : Except Fault (List Nat) := do
  let sorted ← Sorting.sortByKey (fun a b => decide (b < a)) (·.2) (front.zip distances)
  return sorted.map (·.1)

/-- Measures the fronts in turn and chooses members as long as there is room; the front at which
the room has run out is still measured. -/
def chooseMembers : (room : Nat) → (fronts : List (List Nat)) →
    EStateM Fault (Population D) (List Nat)
  | _, [] => return []
  | room, front :: later => do
    let distances ← assignCrowding front
    if room = 0 then return []
    else if front.length ≤ room then
      return front ++ (← chooseMembers (room - front.length) later)
    else
      let chosen := (← byCrowding front distances).take room
      return chosen ++ (← chooseMembers 0 later)

/-- The members with the given indices, in the population's order. -/
def retain (members : Population D) (indices : List Nat) : Population D :=
  (members.zipIdx.filter fun p => indices.contains p.2).map (·.1)

/-- Cuts the population down to its best members. -/
def truncate (size : Nat) : EStateM Failure (Population D) Unit := do
  let ranking ← assignRanks
  let chosen ← (chooseMembers size ranking.fronts : EStateM Fault (Population D) (List Nat))
  modify (·.retain chosen)

end ParetoSearch.Population
