import ParetoSearch.Continuation.Config
import ParetoSearch.Continuation.Progress
import ParetoSearch.Random.Generator
import ParetoSearch.Search
import ParetoSearch.Variation.Basic

/-!
# Adaptive continuation

A search is wrapped and watched. Whenever a window of steps or evaluations has passed, the archive's
size is checked. If the archive has not grown since the last check, or too many checks have passed
without a rebuild, the population is rebuilt: a share of it at random, the rest as children of
archive members, its size following the growth of the archive.
-/

namespace ParetoSearch

open Binary64

/-- An algorithm of type `α` under adaptive continuation. -/
structure Continuation (α ρ W D : Type) where
  inner : α
  config : ContinuationConfig
  /-- The operator that makes the members of a rebuilt population. -/
  perturbation : Variation ρ W D
  generator : ρ
  progress : Progress

namespace Continuation

variable {α ρ W D β : Type}

/-- Runs draws with the generator for rebuilds. -/
def drawing (x : EStateM Fault (ρ × W) β) : EStateM Failure (Continuation α ρ W D × W) β :=
  focus (fun (c, w) => (c.generator, w)) (fun (g, w) (c, _) => ({ c with generator := g }, w))
    (EStateM.adaptExcept .fault x)

/-- Lets the inner algorithm act. -/
def onInner (x : EStateM Failure (α × W) β) : EStateM Failure (Continuation α ρ W D × W) β :=
  focus (fun (c, w) => (c.inner, w)) (fun (a, w) (c, _) => ({ c with inner := a }, w)) x

/-- Changes what is kept between checks. -/
def modifyProgress (f : Progress → Progress) : EStateM Failure (Continuation α ρ W D × W) Unit :=
  modify fun (c, w) => ({ c with progress := f c.progress }, w)

variable [Search α ρ W D]

/-- The wrapped algorithm, before its first step under continuation. It must have an archive. A
configured seed starts the generator, `entropy` where there is none. -/
def ofConfig [Seedable ρ] (entropy : UInt64) (inner : α) (config : ContinuationConfig)
    (perturbation : Variation ρ W D) : Except Error (Continuation α ρ W D) := do
  config.validate
  if perturbation.arity = 0 then throw (.configuration .perturbationWithoutParents)
  match Search.archive inner with
  | none => throw (.configuration .noArchive)
  | some archive =>
    return {
      inner, config, perturbation
      generator := Seedable.ofOption entropy config.seed
      progress :=
        { previousArchive := archive.size, lastEvaluations := Search.evaluations inner } }

/-- An algorithm is wrapped if the configuration makes sense, the operator takes parents, and there
is an archive, whose size is that of the last check. -/
theorem ofConfig_eq_ok [Seedable ρ] {entropy : UInt64} {inner : α} {config : ContinuationConfig}
    {perturbation : Variation ρ W D} {c : Continuation α ρ W D} :
    ofConfig entropy inner config perturbation = .ok c ↔
      config.validate = .ok () ∧ perturbation.arity ≠ 0 ∧ ∃ A, Search.archive inner = some A ∧
        c = {
          inner, config, perturbation
          generator := Seedable.ofOption entropy config.seed
          progress :=
            { previousArchive := A.size, lastEvaluations := Search.evaluations inner } } := by
  unfold ofConfig
  simp only [check_bind_eq_ok]
  refine and_congr_right fun _ => ?_
  by_cases harity : perturbation.arity = 0
  · simp [harity]
  · cases Search.archive inner with
    | none => simp [harity]
    | some A => simp [harity, pure, Except.pure, eq_comm]

/-! ### Sizes -/

/-- The point closest to `x` between two bounds, which must be in order. -/
def clampFloat (low high x : Float) : Except Fault Float :=
  if low ≤ high then .ok (if x < low then low else if high < x then high else x)
  else .error .clampInverted

/-- The size closest to `n` between two bounds, which must be in order. -/
def clampSize (low high n : Nat) : Except Fault Nat :=
  if low ≤ high then .ok (max low (min n high)) else .error .clampInverted

/-- The factor by which the population is to grow: as the archive has grown, within the growth
bounds; from an empty archive, as much as possible. -/
def growth (config : ContinuationConfig) (previous current : Nat) : Except Fault Float :=
  if previous = 0 then .ok config.maxGrowth
  else clampFloat config.minGrowth config.maxGrowth (Float.ofNat current / Float.ofNat previous)

/-- The new size of a population that is to grow by a factor. -/
def newSize (config : ContinuationConfig) (old : Nat) (factor : Float) : Except Fault Nat :=
  clampSize config.minimumPopulation config.maximumPopulation
    (roundCount (Float.ofNat old * factor))

/-- How many members of a rebuilt population are random. -/
def injectedCount (config : ContinuationConfig) (size : Nat) : Nat :=
  floorCount (config.injectionRate * Float.ofNat size)

/-! ### Rebuilding -/

variable [Generator ρ]

/-- Archive members drawn with replacement, as many as asked for. -/
def drawParents (members : List (Solution D)) (h : 0 < members.length) :
    Nat → StateM ρ (List (Solution D))
  | 0 => return []
  | n + 1 => do
    let i ← Draw.below members.length h
    let others ← drawParents members h n
    return members[i] :: others

/-- The children of newly drawn archive members; none if the archive is empty. -/
def brood (members : List (Solution D)) (perturbation : Variation ρ W D) :
    EStateM Fault (ρ × W) (List (Solution D)) :=
  if h : 0 < members.length then do
    ensureRoom Variation.maxParents perturbation.arity
    let parents ← onFirst (EStateM.fromStateM (drawParents members h perturbation.arity))
    perturbation.evolve parents
  else return []

/-- A population of the given size, so many of its members random and the others children of archive
members. -/
def rebuild (size injected : Nat) :
    EStateM Failure (Continuation α ρ W D × W) (List (Solution D)) := do
  ensureRoom Population.capacity size
  let (c, _) ← get
  let problem := Search.problem c.inner
  let members := ((Search.archive c.inner).map Archive.solutions).getD []
  drawing do
    let random ← problem.createMany injected
    let others ← fill (brood members c.perturbation) problem.create (size - injected) []
    return random ++ others

/-- Rebuilds the population and records it. -/
def resize (current : Nat) (forced : Bool) : EStateM Failure (Continuation α ρ W D × W) Unit := do
  let (c, _) ← get
  let previous := c.progress.previousArchive
  let factor ← growth c.config previous current
  let old := (Search.population c.inner).length
  let new ← newSize c.config old factor
  let injected := injectedCount c.config new
  let solutions ← rebuild new injected
  onInner (Search.replacePopulation solutions)
  let (c, _) ← get
  modifyProgress fun p =>
    { p with
      resizes := p.resizes ++ [{
        check := p.checks, previousArchive := previous, archive := current, growth := factor
        oldPopulation := old, newPopulation := new, injected, forced }]
      checksSinceResize := 0
      previousArchive := Search.archiveSize c.inner
      lastEvaluations := Search.evaluations c.inner }

/-! ### Steps -/

/-- Checks whether the archive has grown, and rebuilds the population if it has not or if it is
time. -/
def check : EStateM Failure (Continuation α ρ W D × W) Unit := do
  modifyProgress fun p =>
    { p with checks := p.checks + 1, checksSinceResize := p.checksSinceResize + 1 }
  let (c, _) ← get
  let current := Search.archiveSize c.inner
  let stalled := decide (current ≤ c.progress.previousArchive)
  let forced := !stalled && decide (c.config.maxWindow ≤ c.progress.checksSinceResize)
  if stalled || forced then resize current forced
  else modifyProgress fun p => { p with previousArchive := current }

/-- How much a step moves the counter. -/
def advance (frequency : Frequency) (lastEvaluations evaluations : Nat) : Nat :=
  match frequency with
  | .steps => 1
  | .evaluations => evaluations - lastEvaluations

/-- The counter after a step; there is a greatest count. -/
def movedCounter (frequency : Frequency) (p : Progress) (evaluations : Nat) : Except Fault Nat :=
  let counter := p.counter + advance frequency p.lastEvaluations evaluations
  if counter ≤ maxCount then .ok counter else .error .countOverflow

/-- Lets the inner algorithm take a step, and checks the archive if the window has passed. -/
def step : EStateM Failure (Continuation α ρ W D × W) Unit := do
  onInner Search.step
  let (c, _) ← get
  let evaluations := Search.evaluations c.inner
  let counter ← movedCounter c.config.frequency c.progress evaluations
  modifyProgress fun p => { p with counter, lastEvaluations := evaluations }
  if c.config.window ≤ (← get).1.progress.counter then
    modifyProgress fun p => { p with counter := 0 }
    check

instance : Search (Continuation α ρ W D) ρ W D where
  problem c := Search.problem c.inner
  population c := Search.population c.inner
  archive c := Search.archive c.inner
  evaluations c := Search.evaluations c.inner
  steps c := Search.steps c.inner
  step := step
  replacePopulation solutions := onInner (Search.replacePopulation solutions)

end Continuation

end ParetoSearch
