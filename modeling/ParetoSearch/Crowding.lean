import ParetoSearch.Ranking
import ParetoSearch.Sorting.Adaptive

/-!
# Crowding

The crowding distance of a vector tells how far apart its neighbours are. In each column the vectors
are sorted; the two at the ends are at an infinite distance, and every other one gains the gap
between its two neighbours as a share of the column's range. A column without a range gives no
shares. Of at most two vectors both are ends.
-/

namespace ParetoSearch

open Binary64

variable {D : Type}

namespace Crowding

/-- A value of a column with the index of its vector. -/
abbrev Cell := Float × Nat

/-- The column with the given index, from its smallest value up. -/
def sortedColumn (vectors : List (List Float)) (column : Nat) : Except Fault (List Cell) := do
  let values ← vectors.mapM fun v =>
    match v[column]? with
    | some value => .ok value
    | none => .error .indexOutside
  Sorting.sortByKey (fun a b => decide (a < b)) (·.1) values.zipIdx

/-- The shares of the vectors between the ends of a sorted column. -/
def shares (range : Float) : List Cell → List (Nat × Float)
  | below :: here :: above :: rest =>
    (here.2, (above.1 - below.1) / range) :: shares range (here :: above :: rest)
  | _ => []

/-- The distances with what a sorted column adds to them. -/
def addColumn (cells : List Cell) (distances : List Float) : List Float :=
  match cells.head?, cells.getLast? with
  | some least, some greatest =>
    let ends := (distances.set least.2 infinity).set greatest.2 infinity
    let range := greatest.1 - least.1
    if 0.0 < range then
      (shares range cells).foldl (fun d share => d.modify share.1 (· + share.2)) ends
    else ends
  | _, _ => distances

/-- The crowding distances of some vectors, which must all be as long as the first. -/
def distances (vectors : List (List Float)) : Except Fault (List Float) :=
  if vectors.length ≤ 2 then return List.replicate vectors.length infinity
  else
    let columns := (vectors.head?.map List.length).getD 0
    (List.range columns).foldlM
      (fun d column => return addColumn (← sortedColumn vectors column) d)
      (List.replicate vectors.length 0.0)

end Crowding

namespace Population

/-- The objectives of the members with the given indices. -/
def objectivesAt (members : Population D) (front : List Nat) : Except Fault (List (List Float)) :=
  front.mapM fun i =>
    match members[i]? with
    | some s => .ok s.objectives
    | none => .error .indexOutside

/-- Measures the crowding distances of some members among themselves and stores them. -/
def assignCrowding (front : List Nat) : EStateM Fault (Population D) (List Float) := do
  let distances ← Crowding.distances (← objectivesAt (← get) front)
  modify fun members =>
    (front.zip distances).foldl (fun ms (i, d) => ms.modify i (·.setCrowding d)) members
  return distances

end Population

end ParetoSearch
