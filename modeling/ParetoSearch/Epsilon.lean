import ParetoSearch.Dominance

/-!
# Boxes

Positive widths, one for each objective, cut the space of objectives into boxes. The box of a
vector is named by its coordinates, each the objective divided by its width and rounded down. Boxes
are compared coordinate by coordinate, which gives a coarser dominance than the plain one; inside a
box, vectors are told apart by their distance to its lower corner.
-/

namespace ParetoSearch

open Binary64

variable {D : Type}

/-- Whether a value can be the width of a box. -/
def isWidth (v : Float) : Bool := v.isFinite && 0.0 < v

/-- The widths of the boxes, one for each objective; the last holds for all objectives after it. -/
structure Epsilons where
  values : List Float
  values_ne_nil : values ≠ []
  all_isWidth : values.all isWidth = true
  deriving DecidableEq

/-- The coordinates of a box. -/
structure BoxKey where
  coordinates : List Int
  deriving Repr, DecidableEq

/-- Keys are ordered by their first different coordinate. -/
instance : Ord BoxKey := ⟨fun a b => compare a.coordinates b.coordinates⟩

/-- The verdict on two boxes. -/
def BoxKey.dominance (a b : BoxKey) : Dominance :=
  Dominance.componentwise a.coordinates b.coordinates

namespace Epsilons

/-- Widths from a list that must not be empty and holds positive finite values only. -/
def ofList (values : List Float) : Except Error Epsilons :=
  if hne : values = [] then .error (.configuration .noEpsilons)
  else
    match h : firstFailing? isWidth values with
    | some (index, value) => .error (.configuration (.epsilonNotPositive index value))
    | none => .ok ⟨values, hne, firstFailing?_eq_none.1 h⟩

/-- One width for all objectives. -/
def uniform (value : Float) : Except Error Epsilons := ofList [value]

/-- The width for the objective with the given index. -/
def get (ε : Epsilons) (i : Nat) : Float :=
  ε.values.get ⟨min i (ε.values.length - 1), by
    have := List.length_pos_iff.2 ε.values_ne_nil
    omega⟩

/-- The box of a vector. -/
def boxKey (ε : Epsilons) (objectives : List Float) : BoxKey :=
  ⟨objectives.mapIdx fun i v => floorCoordinate (v / ε.get i)⟩

/-- The distance of a vector from the lower corner of a box. Objectives and coordinates without a
partner do not count. -/
def cornerDistance (ε : Epsilons) (key : BoxKey) (objectives : List Float) : Float :=
  let squares := (objectives.zip key.coordinates).mapIdx fun i (v, k) =>
    let d := v - Float.ofInt k * ε.get i
    d * d
  (squares.foldl (· + ·) (-0.0)).sqrt

/-- Violations first, then dominance of the boxes. -/
def comparison (ε : Epsilons) : Comparison D :=
  violationFirst fun a b => (ε.boxKey a).dominance (ε.boxKey b)

/-! ### Widths and keys -/

/-- A list makes widths exactly when it can. -/
theorem ofList_eq_ok {values : List Float} {ε : Epsilons} :
    ofList values = .ok ε ↔ ε.values = values := by
  constructor
  · unfold ofList
    grind
  · rintro rfl
    have h := firstFailing?_eq_none.2 ε.all_isWidth
    unfold ofList
    rw [dif_neg ε.values_ne_nil]
    split
    · simp_all
    · rfl

/-- Every width is positive and finite. -/
theorem isWidth_get (ε : Epsilons) (i : Nat) : isWidth (ε.get i) = true :=
  List.all_eq_true.1 ε.all_isWidth _ (List.get_mem _ _)

@[simp] theorem length_boxKey (ε : Epsilons) (objectives : List Float) :
    (ε.boxKey objectives).coordinates.length = objectives.length := by
  simp [boxKey]

end Epsilons

end ParetoSearch
