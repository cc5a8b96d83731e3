/-!
# Progress of adaptive continuation

What is kept between checks, and the record of the rebuilds so far.
-/

namespace ParetoSearch

/-- The record of one rebuild. -/
structure Resize where
  /-- The number of the check that led to it. -/
  check : Nat
  /-- The size of the archive at the end of the check before. -/
  previousArchive : Nat
  /-- The size of the archive at the check. -/
  archive : Nat
  /-- The factor by which the population was to grow. -/
  growth : Float
  oldPopulation : Nat
  newPopulation : Nat
  /-- How many members of the new population were random. -/
  injected : Nat
  /-- Whether the archive had grown and only the number of checks led to the rebuild. -/
  forced : Bool
  deriving Repr, DecidableEq

/-- What is kept between checks. -/
structure Progress where
  /-- How much of the window has passed since the last check. -/
  counter : Nat := 0
  /-- The evaluations when the counter was last moved. -/
  lastEvaluations : Nat := 0
  /-- The size of the archive at the end of the last check. -/
  previousArchive : Nat := 0
  /-- The number of checks since the last rebuild. -/
  checksSinceResize : Nat := 0
  /-- The number of checks. -/
  checks : Nat := 0
  /-- The rebuilds, in order. -/
  resizes : List Resize := []
  deriving Repr, DecidableEq

/-- The last rebuild. -/
def Progress.lastResize? (p : Progress) : Option Resize := p.resizes.getLast?

end ParetoSearch
