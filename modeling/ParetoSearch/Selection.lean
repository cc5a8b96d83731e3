import ParetoSearch.Random.Generator
import ParetoSearch.Solution

/-!
# Selection

Parents are chosen from a population at random: every member with the same chance, or the winner of
a tournament among members drawn with replacement. In a tournament a smaller rank wins, and at equal
ranks a greater crowding distance; a draw stays with the one who was there first. A member without
a rank stands behind all ranks, one without a crowding distance behind all distances.
-/

namespace ParetoSearch

open Binary64

variable {D ρ : Type} [Generator ρ]

/-- How parents are chosen. -/
inductive Selection where
  | tournament (size : Nat)
  | uniform
  deriving Repr, DecidableEq

/-- By default two members meet. -/
instance : Inhabited Selection := ⟨.tournament 2⟩

/-- Whether the first solution wins against the second. -/
def Solution.crowdedBetter (a b : Solution D) : Bool :=
  let rankA := a.rank.getD maxCount
  let rankB := b.rank.getD maxCount
  if rankA ≠ rankB then rankA < rankB
  else b.crowding.getD (-infinity) < a.crowding.getD (-infinity)

namespace Selection

/-- Lets further members, drawn one after another, challenge the best so far. -/
def contest (members : Population D) (h : 0 < members.length) :
    (rounds : Nat) → (best : Fin members.length) → StateM ρ (Fin members.length)
  | 0, best => return best
  | rounds + 1, best => do
    let challenger ← Draw.below members.length h
    contest members h rounds
      (if members[challenger].crowdedBetter members[best] then challenger else best)

/-- The winner of a tournament; at least one member is drawn. -/
def hold (members : Population D) (h : 0 < members.length) (size : Nat) :
    StateM ρ (Fin members.length) := do
  let first ← Draw.below members.length h
  contest members h (size - 1) first

/-- The index of a chosen member. -/
def select (how : Selection) (members : Population D) :
    EStateM Fault ρ (Fin members.length) :=
  if h : 0 < members.length then
    EStateM.fromStateM <|
      match how with
      | tournament size => hold members h size
      | uniform => Draw.below members.length h
  else throw .emptySelection

end Selection

end ParetoSearch
