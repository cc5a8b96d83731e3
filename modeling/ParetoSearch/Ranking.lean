import ParetoSearch.Dominance
import ParetoSearch.Sorting.Insertion

/-!
# Ranking

Items are divided into fronts: the first front holds those that nothing dominates, the next those
that nothing dominates once the first front is gone, and so on. Every pair is compared once. Of
each item we keep whom it dominates and by how many it is dominated; releasing a front takes one
dominator away from everything it dominates, and the items left without any form the next front.
Each release uses up one dominator, so the fronts come to an end whatever the comparison says
(`total_releaseAll`). An item on a cycle of dominance, or behind one, is in no front.
-/

namespace ParetoSearch

variable {D : Type} {n : Nat}

/-- The fronts of some items, and the number of each item's front. -/
structure Ranking where
  /-- Of each item the number of its front; `0` also for an item in no front. -/
  ranks : List Nat := []
  /-- The fronts, best first, each with its items in ascending order. -/
  fronts : List (List Nat) := []
  deriving Repr, DecidableEq

/-- Whether nothing was ranked. -/
def Ranking.isEmpty (r : Ranking) : Bool := r.ranks.isEmpty

/-! ### Who dominates whom -/

/-- The dominance among `n` items. -/
structure DominanceGraph (n : Nat) where
  /-- Of each item the items it dominates. -/
  dominated : Vector (List (Fin n)) n
  /-- Of each item the number of items that dominate it. -/
  dominators : Vector Nat n

namespace DominanceGraph

/-- No item dominates another. -/
def empty (n : Nat) : DominanceGraph n := ⟨Vector.replicate n [], Vector.replicate n 0⟩

/-- One more dominance. -/
def add (g : DominanceGraph n) (winner loser : Fin n) : DominanceGraph n where
  dominated := g.dominated.set winner (loser :: g.dominated[winner])
  dominators := g.dominators.set loser (g.dominators[loser] + 1)

/-- The verdict on two items, recorded. -/
def record (g : DominanceGraph n) (i j : Fin n) : Dominance → DominanceGraph n
  | .left => g.add i j
  | .right => g.add j i
  | .neither => g

/-- Every pair of different items once, by the first item and then by the second. -/
def pairs (n : Nat) : List (Fin n × Fin n) :=
  (List.finRange n).flatMap fun i =>
    ((List.finRange n).drop (i.val + 1)).map fun j => (i, j)

/-- Compares every pair; stops at the first comparison that fails. -/
def ofComparison (compare : Fin n → Fin n → Except Error Dominance) :
    Except Error (DominanceGraph n) :=
  (pairs n).foldlM (fun g p => return g.record p.1 p.2 (← compare p.1 p.2)) (empty n)

/-- The items that nothing dominates, in ascending order. -/
def undominated (g : DominanceGraph n) : List (Fin n) :=
  (List.finRange n).filter fun i => g.dominators[i] == 0

end DominanceGraph

/-! ### Releasing a front -/

/-- Takes one dominator away from each listed item, in order, and puts the items that lose their
last one in front of `freed`. -/
def releaseAll :
    List (Fin n) → Vector Nat n → List (Fin n) → Except Fault (Vector Nat n × List (Fin n))
  | [], counts, freed => .ok (counts, freed)
  | j :: js, counts, freed =>
    match counts[j] with
    | 0 => .error .countBelowZero
    | k + 1 => releaseAll js (counts.set j k) (if k = 0 then j :: freed else freed)

/-- The sum of some counts. -/
def total : List Nat → Nat
  | [] => 0
  | x :: xs => x + total xs

theorem total_set_add (xs : List Nat) (i : Fin xs.length) (x : Nat) :
    total (xs.set i x) + xs.get i = total xs + x := by
  obtain ⟨i, h⟩ := i
  induction xs generalizing i with
  | nil => exact absurd h (Nat.not_lt_zero i)
  | cons y ys ih =>
    cases i with
    | zero =>
      simp only [List.set_cons_zero, total, List.get_eq_getElem, List.getElem_cons_zero]
      omega
    | succ i =>
      have := ih i (Nat.lt_of_succ_lt_succ h)
      simp only [List.set_cons_succ, total, List.get_eq_getElem, List.getElem_cons_succ] at this ⊢
      omega

/-- Each release uses up one dominator. -/
theorem total_releaseAll {js freed freed' : List (Fin n)} {counts counts' : Vector Nat n}
    (h : releaseAll js counts freed = .ok (counts', freed')) :
    total counts'.toList + js.length = total counts.toList ∧
      freed'.length ≤ freed.length + js.length := by
  induction js generalizing counts freed with
  | nil => simp_all [releaseAll]
  | cons j js ih =>
    unfold releaseAll at h
    split at h
    · simp at h
    · rename_i k hk
      obtain ⟨h₁, h₂⟩ := ih h
      have hj : counts.toList.get ⟨j, by simp⟩ = k + 1 := by simpa using hk
      have hs : total (counts.toList.set j k) + (k + 1) = total counts.toList + k :=
        hj ▸ total_set_add counts.toList ⟨j, by simp⟩ k
      rw [Vector.toList_set] at h₁
      refine ⟨by simp only [List.length_cons]; omega, ?_⟩
      split at h₂ <;> simp only [List.length_cons] at h₂ ⊢ <;> omega

/-- The fronts behind a given one. -/
def laterFronts (dominated : Vector (List (Fin n)) n) (front : List (Fin n))
    (counts : Vector Nat n) : Except Fault (List (List (Fin n))) :=
  match h : releaseAll (front.flatMap fun i => dominated[i]) counts [] with
  | .error f => .error f
  | .ok (counts', freed) =>
    if hf : freed = [] then .ok []
    else do
      let next := Sorting.stableSort (fun i j => decide (i < j)) freed
      let later ← laterFronts dominated next counts'
      return next :: later
termination_by total counts.toList
decreasing_by
  have := total_releaseAll h
  have := List.length_pos_iff.2 hf
  simp only [List.length_nil] at *
  omega

/-! ### Rankings -/

namespace Ranking

/-- The ranking with the given fronts. -/
def ofFronts (fronts : List (List (Fin n))) : Ranking where
  ranks := (List.finRange n).map fun i => (fronts.findIdx? (·.contains i)).getD 0
  fronts := fronts.map (·.map Fin.val)

/-- Ranks `n` items by comparing every pair of them. -/
def ofComparison (compare : Fin n → Fin n → Except Error Dominance) :
    Except Failure Ranking :=
  if n = 0 then return {}
  else do
    let graph ← DominanceGraph.ofComparison compare
    let first := graph.undominated
    let later ← laterFronts graph.dominated first graph.dominators
    return ofFronts (first :: later)

/-- Ranks solutions. -/
def ofSolutions (compare : Comparison D) (solutions : List (Solution D)) :
    Except Failure Ranking :=
  let items := solutions.toArray
  ofComparison fun i j : Fin items.size => compare items[i] items[j]

/-- Refuses vectors that differ in length from the first one or hold a value that is not finite. -/
def ensureVectors (vectors : List (List Float)) : Except Error Unit :=
  let expected := (vectors.head?.map List.length).getD 0
  vectors.forM fun v => do
    ensureLength .objectives expected v.length
    ensureFinite .objectives v

/-- Ranks objective vectors by Pareto dominance. -/
def ofVectors (vectors : List (List Float)) : Except Failure Ranking := do
  ensureVectors vectors
  let items := vectors.toArray
  ofComparison fun i j : Fin items.size => return paretoDominance items[i] items[j]

end Ranking

end ParetoSearch
