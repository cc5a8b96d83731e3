import ParetoSearch.Proofs.Search.Faults
import ParetoSearch.Sorting.Adaptive

/-!
# What sorting may raise

Sorting raises one fault only: that the test is no order. The merge from both ends
notices it, and everything else passes it on. Sorting by a key comes to such a merge only
with more than twenty elements, of which one has a key that is no number
(`failsOnly_sortByKey`).
-/

namespace ParetoSearch.Sorting

variable {α : Type} {less : α → α → Bool} {sort : List α → Except Fault (List α)}

/-- A way of sorting that only ever notices that the test is no order. -/
def Notices (sort : List α → Except Fault (List α)) : Prop :=
  ∀ xs, FailsOnly (· = Fault.notOrdered) (sort xs)

theorem failsOnly_mergeEnds (less : α → α → Bool) (left right : List α) :
    FailsOnly (· = Fault.notOrdered) (mergeEnds less left right) := by
  unfold mergeEnds
  dsimp only
  split
  · exact .ok _
  · exact .error rfl

theorem notices_sortHalf (less : α → α → Bool) (size : ℕ) : Notices (sortHalf less size) := by
  intro half
  unfold sortHalf
  split
  next a b c d rest =>
    by_cases hsmall : size < 8
    · rw [if_pos hsmall]
      exact .ok _
    rw [if_neg hsmall]
    by_cases hmiddle : size < 16
    · rw [if_pos hmiddle]
      exact .ok _
    rw [if_neg hmiddle]
    split
    · exact (failsOnly_mergeEnds less _ _).bind fun eight => .ok _
    · exact .ok _
  next => exact .ok _

theorem notices_sortBlock (less : α → α → Bool) : Notices (sortBlock less) := fun _ =>
  (notices_sortHalf less _ _).bind fun _ => (notices_sortHalf less _ _).bind fun _ =>
    failsOnly_mergeEnds less _ _

theorem failsOnly_settle (hs : Notices sort) (run : Run α) :
    FailsOnly (· = Fault.notOrdered) (run.settle sort) := by
  unfold Run.settle
  split
  · exact .ok _
  · exact (hs _).bind fun _ => .ok _

theorem failsOnly_join (hs : Notices sort) (left right : Run α) :
    FailsOnly (· = Fault.notOrdered) (left.join less sort right) := by
  unfold Run.join
  split
  · exact (failsOnly_settle hs left).bind fun _ => (failsOnly_settle hs right).bind fun _ => .ok _
  · exact .ok _

theorem failsOnly_joinDeeper (hs : Notices sort) (depth : ℕ) (before : List (Run α × ℕ))
    (run : Run α) : FailsOnly (· = Fault.notOrdered) (joinDeeper less sort depth before run) := by
  induction before generalizing run with
  | nil => exact .ok _
  | cons first before ih =>
    unfold joinDeeper
    split
    · exact (failsOnly_join hs first.1 run).bind ih
    · exact .ok _

theorem failsOnly_joinAll (hs : Notices sort) (total : ℕ) (before : List (Run α × ℕ)) (start : ℕ)
    (run : Run α) (later : List (Run α)) :
    FailsOnly (· = Fault.notOrdered) (joinAll less sort total before start run later) := by
  induction later generalizing before start run with
  | nil => exact (failsOnly_joinDeeper hs 0 before run).bind fun _ => .ok _
  | cons next later ih => exact (failsOnly_joinDeeper hs _ before run).bind fun _ => ih _ _ _

theorem failsOnly_assemble (hs : Notices sort) (total : ℕ) (runs : List (Run α)) :
    FailsOnly (· = Fault.notOrdered) (assemble less sort total runs) := by
  unfold assemble
  split
  · exact .ok _
  · exact (failsOnly_joinAll hs total _ _ _ _).bind fun whole =>
      (failsOnly_settle hs whole).bind fun _ => .ok _

theorem notices_sortByRuns (less : α → α → Bool) : Notices (sortByRuns less) := fun _ =>
  (FailsOnly.mapM fun run _ => failsOnly_settle (notices_sortBlock less) run).bind fun _ =>
    failsOnly_assemble (notices_sortBlock less) _ _

theorem notices_divideSort (less : α → α → Bool) (limit : ℕ) (border : Option α) :
    Notices (divideSort less limit border) := by
  intro xs
  fun_induction divideSort less limit border xs with
  | case1 => exact notices_sortBlock less _
  | case2 _ _ _ _ _ _ _ _ _ _ _ _ _ _ _ _ ih => exact ih.bind fun _ => .ok _
  | case3 _ _ _ _ _ _ _ _ _ _ _ _ _ ih₂ ih₁ => exact ih₂.bind fun _ => ih₁.bind fun _ => .ok _
  | case4 => exact notices_sortByRuns less _

theorem notices_adaptiveSort (less : α → α → Bool) : Notices (adaptiveSort less) := by
  intro xs
  unfold adaptiveSort
  split
  · exact .ok _
  · split
    · exact notices_sortByRuns less xs
    · exact failsOnly_assemble (fun _ => notices_divideSort less _ _ _) _ _

/-- **Sorting by a key raises one fault only**: that the test is no order, which needs more than
twenty elements and a key that is no number. -/
theorem failsOnly_sortByKey (before : Float → Float → Bool) (key : α → Float) (xs : List α) :
    FailsOnly (fun f => f = .notOrdered ∧ 20 < xs.length ∧ ∃ a ∈ xs, (key a).isNaN = true)
      (sortByKey before key xs) := by
  unfold sortByKey
  split
  next => exact .ok _
  next hkeys =>
    intro f hf
    refine ⟨notices_adaptiveSort _ xs f hf, Nat.lt_of_not_le fun hfew => ?_, by simpa using hkeys⟩
    unfold adaptiveSort at hf
    rw [if_pos hfew] at hf
    cases hf

end ParetoSearch.Sorting
