import ParetoSearch.Solution

/-!
# Dominance

Of two solutions the one with the smaller violation is better; between equal violations the
objectives decide, by a finer rule that is a parameter here. The plain rule is Pareto dominance:
better in some objective and worse in none. Solutions of different shape, or with a value that is
not finite, cannot be compared.
-/

namespace ParetoSearch

variable {D : Type}

/-- Which of two things is better. -/
inductive Dominance where
  | left
  | right
  | neither
  deriving Repr, DecidableEq

namespace Dominance

/-- The verdict with the two things exchanged. -/
def flip : Dominance → Dominance
  | left => right
  | right => left
  | neither => neither

@[simp] theorem flip_flip (d : Dominance) : d.flip.flip = d := by cases d <;> rfl

/-- The first verdict, unless it is open: then the second. -/
def andThen : Dominance → Dominance → Dominance
  | left, _ => left
  | right, _ => right
  | neither, d => d

/-- The verdict on two values, of which the smaller is better. -/
def ofValues {α : Type} [LT α] [DecidableLT α] (a b : α) : Dominance :=
  if a < b then left else if b < a then right else neither

/-- The verdict on two vectors: one must be better somewhere and worse nowhere. Entries beyond the
shorter vector do not count. -/
def componentwise {α : Type} [LT α] [DecidableLT α] (a b : List α) : Dominance :=
  let verdicts := List.zipWith ofValues a b
  match verdicts.contains left, verdicts.contains right with
  | true, false => left
  | false, true => right
  | _, _ => neither

end Dominance

/-- A rule that compares two solutions, where they can be compared. -/
abbrev Comparison (D : Type) := Solution D → Solution D → Except Error Dominance

/-- Refuses two solutions of different shape or with a value that is not finite. -/
def ensureComparable (a b : Solution D) : Except Error Unit := do
  ensureLength .objectives a.objectives.length b.objectives.length
  ensureLength .constraints a.constraints.length b.constraints.length
  ensureFinite .objectives a.objectives
  ensureFinite .objectives b.objectives
  ensureFinite .constraints a.constraints
  ensureFinite .constraints b.constraints

/-- The comparison that looks at the violations first and then, by the given rule, at the
objectives. -/
def violationFirst (rule : List Float → List Float → Dominance) : Comparison D := fun a b => do
  ensureComparable a b
  return (Dominance.ofValues a.violation b.violation).andThen (rule a.objectives b.objectives)

/-- Pareto dominance of objective vectors. -/
def paretoDominance (a b : List Float) : Dominance := Dominance.componentwise a b

/-- Violations first, then Pareto dominance. -/
def paretoComparison : Comparison D := violationFirst paretoDominance

/-- Whether the first solution is the better one. -/
def Comparison.dominates (compare : Comparison D) (a b : Solution D) : Except Error Bool := do
  return (← compare a b) == .left

/-! ### When solutions can be compared -/

/-- A solution whose values are all finite. -/
def Solution.AllFinite (s : Solution D) : Prop :=
  s.objectives.all Float.isFinite ∧ s.constraints.all Float.isFinite

/-- Two solutions with vectors of the same lengths. -/
def Solution.SameShape (a b : Solution D) : Prop :=
  a.objectives.length = b.objectives.length ∧ a.constraints.length = b.constraints.length

/-- Exactly the finite solutions of one shape can be compared. -/
theorem ensureComparable_eq_ok {a b : Solution D} :
    ensureComparable a b = .ok () ↔ a.SameShape b ∧ a.AllFinite ∧ b.AllFinite := by
  simp only [ensureComparable, Solution.SameShape, Solution.AllFinite, check_bind_eq_ok,
    ensureLength_eq_ok, ensureFinite_eq_ok]
  grind

end ParetoSearch
