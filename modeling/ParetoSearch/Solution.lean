import ParetoSearch.Failure

/-!
# Solutions

A solution is a decision with what is known of it: the objectives to be minimised, the constraint
values (zero where a constraint holds, and the further from zero the worse it is broken), and two
attributes that ranking leaves on it. A solution without objectives has not been evaluated yet.
Attributes speak of one evaluation, so every change of the evaluation drops them.
-/

namespace ParetoSearch

variable {D : Type}

/-- What evaluating a decision yields. -/
structure Evaluation where
  objectives : List Float
  constraints : List Float := []
  deriving Repr, DecidableEq

/-- What ranking a population leaves on a member. -/
structure Attributes where
  /-- The number of the member's front, `0` the best. -/
  rank : Option Nat := none
  /-- How far apart the member's neighbours in its front are. -/
  crowding : Option Float := none
  deriving Repr, DecidableEq

/-- A decision, its evaluation and its attributes. -/
structure Solution (D : Type) where
  decision : D
  objectives : List Float := []
  constraints : List Float := []
  attributes : Attributes := {}
  deriving Repr, DecidableEq

/-- The sum of the sizes of the constraint values. The empty sum is minus zero, the neutral element
of addition. -/
def aggregateViolation (constraints : List Float) : Float :=
  constraints.foldl (fun total c => total + c.abs) (-0.0)

namespace Solution

/-- A decision that has not been evaluated. -/
def ofDecision (x : D) : Solution D := { decision := x }

/-- A decision with its evaluation. -/
def ofEvaluation (x : D) (e : Evaluation) : Solution D :=
  { decision := x, objectives := e.objectives, constraints := e.constraints }

/-- Whether the solution has been evaluated. -/
def isEvaluated (s : Solution D) : Bool := !s.objectives.isEmpty

/-- The number of the solution's front, if it has been ranked. -/
def rank (s : Solution D) : Option Nat := s.attributes.rank

/-- The crowding distance, if it has been measured. -/
def crowding (s : Solution D) : Option Float := s.attributes.crowding

/-- Stores an evaluation; the attributes are dropped. -/
def setEvaluation (s : Solution D) (e : Evaluation) : Solution D := ofEvaluation s.decision e

/-- Forgets the evaluation and the attributes. -/
def clearEvaluation (s : Solution D) : Solution D := ofDecision s.decision

/-- Stores the number of the solution's front. -/
def setRank (s : Solution D) (rank : Nat) : Solution D :=
  { s with attributes := { s.attributes with rank := some rank } }

/-- Stores the crowding distance. -/
def setCrowding (s : Solution D) (distance : Float) : Solution D :=
  { s with attributes := { s.attributes with crowding := some distance } }

/-- The sum of the sizes of the solution's constraint values. -/
def violation (s : Solution D) : Float := aggregateViolation s.constraints

/-- Whether every constraint holds. -/
def isFeasible (s : Solution D) : Bool := s.constraints.all (· == 0.0)

/-- Refuses an evaluation that has the wrong lengths or a value that is not finite. -/
def validate (s : Solution D) (objectives constraints : Nat) : Except Error Unit := do
  ensureLength .objectives objectives s.objectives.length
  ensureLength .constraints constraints s.constraints.length
  ensureFinite .objectives s.objectives
  ensureFinite .constraints s.constraints

/-! ### What the changes keep -/

@[simp] theorem decision_setEvaluation (s : Solution D) (e : Evaluation) :
    (s.setEvaluation e).decision = s.decision := rfl

@[simp] theorem attributes_setEvaluation (s : Solution D) (e : Evaluation) :
    (s.setEvaluation e).attributes = {} := rfl

@[simp] theorem isEvaluated_ofDecision (x : D) : (ofDecision x).isEvaluated = false := rfl

@[simp] theorem isEvaluated_clearEvaluation (s : Solution D) :
    s.clearEvaluation.isEvaluated = false := rfl

@[simp] theorem rank_setRank (s : Solution D) (r : Nat) : (s.setRank r).rank = some r := rfl

@[simp] theorem objectives_setRank (s : Solution D) (r : Nat) :
    (s.setRank r).objectives = s.objectives := rfl

@[simp] theorem constraints_setRank (s : Solution D) (r : Nat) :
    (s.setRank r).constraints = s.constraints := rfl

@[simp] theorem rank_setCrowding (s : Solution D) (d : Float) :
    (s.setCrowding d).rank = s.rank := rfl

@[simp] theorem objectives_setCrowding (s : Solution D) (d : Float) :
    (s.setCrowding d).objectives = s.objectives := rfl

@[simp] theorem constraints_setCrowding (s : Solution D) (d : Float) :
    (s.setCrowding d).constraints = s.constraints := rfl

end Solution

/-- The solutions that a search works on, in order. -/
abbrev Population (D : Type) := List (Solution D)

/-- The most members that a population can have: a list takes less than `2 ^ 63` bytes, and each of
its solutions 104 of them. -/
def Population.capacity : Nat := 0x7fffffffffffffff / 104

/-- Changes the member with the given index, which must be there. -/
def Population.modifyMember (i : Nat) (f : Solution D → Solution D) :
    EStateM Fault (Population D) Unit := do
  if i < (← get).length then modify (·.modify i f) else throw .indexOutside

end ParetoSearch
