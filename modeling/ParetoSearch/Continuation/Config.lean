import ParetoSearch.Binary64
import ParetoSearch.Failure

/-!
# Configuration of adaptive continuation

How often the archive's growth is checked, how large a rebuilt population may be, and how much of it
is random.
-/

namespace ParetoSearch

/-- What the window between two checks is measured in. -/
inductive Frequency where
  | evaluations
  | steps
  deriving Repr, DecidableEq

/-- Windows are measured in steps by default. -/
instance : Inhabited Frequency := ⟨.steps⟩

/-- How adaptive continuation works. -/
structure ContinuationConfig where
  /-- How much passes between two checks. -/
  window : Nat := 100
  /-- After how many checks at the latest the population is rebuilt. -/
  maxWindow : Nat := 100
  /-- The share of a rebuilt population that is random. -/
  injectionRate : Float := 0.25
  minimumPopulation : Nat := 100
  maximumPopulation : Nat := 10000
  frequency : Frequency := .steps
  /-- The least factor by which a rebuild changes the size of the population. -/
  minGrowth : Float := 0.5
  /-- The greatest factor by which a rebuild changes the size of the population. -/
  maxGrowth : Float := 2.0
  /-- The seed of the generator for rebuilds, if the run is to be repeatable. -/
  seed : Option UInt64 := none
  deriving Repr, DecidableEq

namespace ContinuationConfig

/-- The configuration with another injection rate, kept in `[0, 1]`. -/
def withInjectionRate (c : ContinuationConfig) (rate : Float) : ContinuationConfig :=
  { c with injectionRate := if rate < 0.0 then 0.0 else if 1.0 < rate then 1.0 else rate }

/-- Whether the growth bounds are finite and enclose `1`, the lower one above zero. -/
def growthBoundsOk (c : ContinuationConfig) : Bool :=
  c.minGrowth.isFinite && c.maxGrowth.isFinite && 0.0 < c.minGrowth && c.minGrowth ≤ 1.0 &&
    1.0 ≤ c.maxGrowth

/-- What is wrong with the configuration, if something is. -/
def misconfiguration? (c : ContinuationConfig) : Option Misconfiguration :=
  if c.window = 0 then some .emptyWindow
  else if c.maxWindow = 0 then some .emptyMaxWindow
  else if c.minimumPopulation = 0 then some .emptyMinimumPopulation
  else if c.maximumPopulation < c.minimumPopulation then
    some (.populationBoundsInverted c.minimumPopulation c.maximumPopulation)
  else if !(0.0 ≤ c.injectionRate && c.injectionRate ≤ 1.0) then
    some (.injectionRateOutside c.injectionRate)
  else if !c.growthBoundsOk then some (.growthBoundsOutside c.minGrowth c.maxGrowth)
  else none

/-- Refuses a configuration that makes no sense. -/
def validate (c : ContinuationConfig) : Except Error Unit :=
  match c.misconfiguration? with
  | some cause => .error (.configuration cause)
  | none => .ok ()

/-- What a configuration that makes sense satisfies. -/
theorem validate_eq_ok {c : ContinuationConfig} : c.validate = .ok () ↔
    0 < c.window ∧ 0 < c.maxWindow ∧ 0 < c.minimumPopulation ∧
      c.minimumPopulation ≤ c.maximumPopulation ∧
      (0.0 ≤ c.injectionRate ∧ c.injectionRate ≤ 1.0) ∧ c.growthBoundsOk := by
  unfold validate misconfiguration?
  grind

theorem growthBounds_of_validate {c : ContinuationConfig} (h : c.validate = .ok ()) :
    c.minGrowth.isFinite = true ∧ c.maxGrowth.isFinite = true ∧ 0.0 < c.minGrowth ∧
      c.minGrowth ≤ 1.0 ∧ 1.0 ≤ c.maxGrowth := by
  obtain ⟨-, -, -, -, -, hgrowth⟩ := validate_eq_ok.1 h
  simpa [growthBoundsOk, and_assoc] using hgrowth

end ContinuationConfig

end ParetoSearch
