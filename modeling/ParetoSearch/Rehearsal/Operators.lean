import ParetoSearch.Rehearsal.Stage
import ParetoSearch.Variation.Basic

/-!
# Operators without chance

Two operators that draw nothing: one moves parents by fixed amounts, the other plays back a list of
children whatever the parents are.
-/

namespace ParetoSearch.Rehearsal

variable {ρ : Type}

/-- The children of a shift: the parents in turn, each with the next amount added to every
variable. -/
def shifted (arity : Nat) (parents : List (Solution (List Float))) :
    (turn : Nat) → List Float → Except Fault (List (Solution (List Float)))
  | _, [] => return []
  | turn, amount :: rest => do
    if arity = 0 then throw .indexOutside
    match parents[turn % arity]? with
    | none => throw .indexOutside
    | some parent =>
      let others ← shifted arity parents (turn + 1) rest
      return Solution.ofDecision (parent.decision.map (· + amount)) :: others

/-- The operator that makes one child for each amount. -/
def shift (arity : Nat) (amounts : List Float) : Variation ρ Stage (List Float) where
  arity := arity
  evolve parents := (shifted arity parents 0 amounts : Except Fault _)

/-- The next children of a list that starts again at its end. -/
def takeTurns {D : Type} (children : List (Solution D)) (start : Nat) :
    Nat → Except Fault (List (Solution D))
  | 0 => return []
  | n + 1 => do
    if h : children ≠ [] then
      let child := children.get
        ⟨start % children.length, Nat.mod_lt _ (List.length_pos_iff.2 h)⟩
      let others ← takeTurns children (start + 1) n
      return child :: others
    else throw .indexOutside

/-- The operator that plays back a list, so many children with each call; it remembers where it is
under its place on the stage. -/
def playback {D : Type} (arity perCall : Nat) (children : List (Solution D)) (place : Nat) :
    Variation ρ Stage D where
  arity := arity
  evolve _ := onSecond do
    let start := (← get).turns.getD place 0
    let found ← (takeTurns children start perCall : Except Fault _)
    modify fun stage => { stage with turns := stage.turns.set place (start + perCall) }
    return found

end ParetoSearch.Rehearsal
