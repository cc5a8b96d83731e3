import ParetoSearch.Archive.Basic

/-!
# Snapshots

What is worth keeping of an archive: the widths of its boxes and the decisions, objectives and
constraints of its members. An archive is made from a snapshot by offering the entries in order to
an empty one.
-/

namespace ParetoSearch

variable {D : Type}

/-- What a snapshot keeps of a member. -/
structure Entry (D : Type) where
  decision : D
  objectives : List Float
  constraints : List Float
  deriving Repr, DecidableEq

/-- The widths of an archive's boxes and its members. -/
structure Snapshot (D : Type) where
  epsilons : List Float
  entries : List (Entry D)
  deriving Repr, DecidableEq

/-- What a snapshot keeps of a solution. -/
def Entry.ofSolution (s : Solution D) : Entry D :=
  ⟨s.decision, s.objectives, s.constraints⟩

/-- The solution that an entry describes, without attributes. -/
def Entry.toSolution (e : Entry D) : Solution D :=
  Solution.ofEvaluation e.decision ⟨e.objectives, e.constraints⟩

/-- The snapshot of an archive. -/
def Archive.snapshot (A : Archive D) : Snapshot D :=
  ⟨A.epsilons.values, A.solutions.map Entry.ofSolution⟩

/-- The archive made from a snapshot. -/
def Archive.ofSnapshot (snapshot : Snapshot D) : Except Error (Archive D) := do
  let A ← Archive.ofWidths snapshot.epsilons
  match Archive.addAll (snapshot.entries.map Entry.toSolution) A with
  | .ok _ A => return A
  | .error e _ => throw e

end ParetoSearch
