import ParetoSearch.Archive.Members

/-!
# Archives

An archive keeps the best trade-offs seen so far, at most one in each box. A solution offered to an
occupied box must win it: by a smaller violation, or at equal violations by being closer to the
box's lower corner. A solution offered to a free box is refused if a member is better. In both cases
the newcomer drives out the members it is better than. The first solution that passes the checks
fixes the numbers of objectives and constraints, unless they were fixed at the start.
-/

namespace ParetoSearch

variable {D : Type}

/-- An archive of solutions, one in each box. -/
structure Archive (D : Type) where
  /-- The widths of the boxes. -/
  epsilons : Epsilons
  /-- The solutions under the keys of their boxes. -/
  members : Members D := []
  /-- The number of objectives every member has, once it is fixed. -/
  objectives : Option Nat := none
  /-- The number of constraints every member has, once it is fixed. -/
  constraints : Option Nat := none
  /-- How many offers were taken. -/
  improvements : Nat := 0
  /-- How many of them drove out a member of another box. -/
  dominatingImprovements : Nat := 0

namespace Archive

/-! ### Making and reading an archive -/

/-- An empty archive with boxes of the given widths. -/
def ofEpsilons (ε : Epsilons) : Archive D := { epsilons := ε }

/-- An empty archive with boxes of the widths in a list. -/
def ofWidths (values : List Float) : Except Error (Archive D) :=
  return ofEpsilons (← Epsilons.ofList values)

/-- An empty archive whose members will have the given numbers of objectives and constraints. -/
def withDimensions (ε : Epsilons) (objectives constraints : Nat) : Except Error (Archive D) :=
  if objectives = 0 then .error (.configuration .archiveWithoutObjectives)
  else .ok { epsilons := ε, objectives := some objectives, constraints := some constraints }

/-- The number of members. -/
def size (A : Archive D) : Nat := A.members.length

/-- The members, in the order of their keys. -/
def solutions (A : Archive D) : List (Solution D) := A.members.solutions

/-- The box of a vector. -/
def boxKey (A : Archive D) (objectives : List Float) : BoxKey := A.epsilons.boxKey objectives

/-- The comparison by which members are compared. -/
def comparison (A : Archive D) : Comparison D := A.epsilons.comparison

/-- Whether the member in the solution's box has the same objectives and constraints. -/
def contains (A : Archive D) (s : Solution D) : Bool :=
  match A.members.find? (A.boxKey s.objectives) with
  | some m => m.objectives == s.objectives && m.constraints == s.constraints
  | none => false

/-- The archive without its members. The numbers of objectives and constraints stay fixed and the
counts of improvements stay as they are. -/
def clear (A : Archive D) : Archive D := { A with members := [] }

/-! ### Offering solutions -/

/-- Refuses a solution that the archive cannot hold. -/
def ensureFits (A : Archive D) (s : Solution D) : Except Error Unit :=
  if A.objectives = none ∧ s.objectives = [] then .error (.dimensionMismatch .objectives 1 0)
  else do
    let m := s.objectives.length
    let c := s.constraints.length
    ensureLength .objectives (A.objectives.getD m) m
    ensureLength .constraints (A.constraints.getD c) c
    ensureFinite .objectives s.objectives
    ensureFinite .constraints s.constraints

/-- The archive with its numbers of objectives and constraints fixed, by the solution if not
before. -/
def fixDimensions (A : Archive D) (s : Solution D) : Archive D :=
  { A with
    objectives := some (A.objectives.getD s.objectives.length)
    constraints := some (A.constraints.getD s.constraints.length) }

/-- Whether a challenger wins a box from the solution in it. -/
def prefers (A : Archive D) (key : BoxKey) (challenger incumbent : Solution D) : Bool :=
  if challenger.violation != incumbent.violation then
    challenger.violation < incumbent.violation
  else
    A.epsilons.cornerDistance key challenger.objectives <
      A.epsilons.cornerDistance key incumbent.objectives

/-- Puts a solution into its box, drives out the members it is better than, and counts the
improvement. A member in a box to be spared is not compared. -/
def settle (key : BoxKey) (s : Solution D) (spared : Option BoxKey) :
    EStateM Error (Archive D) Unit := do
  let A ← get
  let others ← A.members.notDominatedBy A.comparison s spared
  let drivenOut := decide (others.length < A.members.length)
  set { A with
    members := others.place key s
    improvements := A.improvements + 1
    dominatingImprovements := A.dominatingImprovements + if drivenOut then 1 else 0 }

/-- Offers a solution; tells whether it was taken. -/
def add (s : Solution D) : EStateM Error (Archive D) Bool := do
  (← get).ensureFits s
  modify (·.fixDimensions s)
  let A ← get
  let key := A.boxKey s.objectives
  match A.members.find? key with
  | some incumbent =>
    if A.prefers key s incumbent then
      settle key s (some key)
      return true
    else return false
  | none =>
    if ← A.members.anyDominates A.comparison s then return false
    else
      settle key s none
      return true

/-- Offers solutions in order, up to the first that is refused with an error; tells how many were
taken. -/
def addAll : List (Solution D) → EStateM Error (Archive D) Nat
  | [] => return 0
  | s :: rest => do
    let taken ← add s
    let others ← addAll rest
    return (if taken then 1 else 0) + others

/-- A list fails with its first solution. -/
theorem addAll_cons_of_error {A B : Archive D} {s : Solution D} {e : Error}
    (h : add s A = .error e B) (rest : List (Solution D)) : addAll (s :: rest) A = .error e B := by
  rw [addAll, bind_apply_of_error h]

/-- Behind its first solution a list fails as the rest does. -/
theorem addAll_cons_eq_error_iff {A B C : Archive D} {s : Solution D} {rest : List (Solution D)}
    {taken : Bool} {e : Error} (h : add s A = .ok taken B) :
    addAll (s :: rest) A = .error e C ↔ addAll rest B = .error e C := by
  rw [addAll, bind_apply_of_ok h, bind_apply]
  cases addAll rest B <;> simp [pure, EStateM.pure]

/-- A list is added when its first solution and then the rest is. -/
theorem addAll_cons_eq_ok_iff {A C : Archive D} {s : Solution D} {rest : List (Solution D)}
    {n : Nat} : addAll (s :: rest) A = .ok n C ↔ ∃ taken others B, add s A = .ok taken B ∧
      addAll rest B = .ok others C ∧ (if taken then 1 else 0) + others = n := by
  simp only [addAll, bind_apply_eq_ok, pure_apply_eq_ok]
  constructor
  · rintro ⟨taken, B, hadd, others, C', hrest, hn, rfl⟩
    exact ⟨taken, others, B, hadd, hrest, hn⟩
  · rintro ⟨taken, others, B, hadd, hrest, hn⟩
    exact ⟨taken, B, hadd, others, C, hrest, hn, rfl⟩

/-- Offers solutions in order to an archive, if there is one. -/
def offerAll (solutions : List (Solution D)) : EStateM Error (Option (Archive D)) Unit
  | none => .ok () none
  | some A =>
    match addAll solutions A with
    | .ok _ A => .ok () (some A)
    | .error e A => .error e (some A)

end Archive

end ParetoSearch
