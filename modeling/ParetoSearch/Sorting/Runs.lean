import ParetoSearch.Sorting.Block

/-!
# Runs

A list is cut into runs: where it ascends or strictly descends for long enough, the run is what is
there already; elsewhere it is a piece of fixed length, which is yet to be sorted. Runs are brought
together pairwise like the leaves of a search tree over the whole list: of two neighbours, those
meet first whose common edge lies deeper in the tree. Two unsorted runs are joined as they are and
sorted together later; otherwise both are sorted and merged.
-/

namespace ParetoSearch.Sorting

variable {α : Type}

/-- A part of a list that is to be sorted. -/
structure Run (α : Type) where
  items : List α
  /-- Whether the items are in order already. -/
  sorted : Bool

/-! ### Cutting a list into runs -/

/-- The elements from `x` on of which each two neighbours pass the test, and the others. -/
def chain (test : α → α → Bool) (x : α) : List α → List α × List α
  | [] => ([x], [])
  | y :: ys =>
    if test x y then
      let (run, rest) := chain test y ys
      (x :: run, rest)
    else ([x], y :: ys)

/-- The elements from `x` on that are in order, or in strictly descending order and then turned
round, and the others. -/
def leadingRun (less : α → α → Bool) (x : α) (xs : List α) : List α × List α :=
  if xs.head?.any (less · x) then
    let (run, rest) := chain (fun a b => less b a) x xs
    (run.reverse, rest)
  else chain (fun a b => !less b a) x xs

theorem chain_append (test : α → α → Bool) (x : α) (xs : List α) :
    (chain test x xs).1 ++ (chain test x xs).2 = x :: xs := by
  fun_induction chain test x xs with
  | case1 => rfl
  | case2 x y ys _ run rest h ih => simpa [h] using ih
  | case3 => rfl

theorem leadingRun_perm (less : α → α → Bool) (x : α) (xs : List α) :
    ((leadingRun less x xs).1 ++ (leadingRun less x xs).2).Perm (x :: xs) := by
  unfold leadingRun
  split
  · exact ((List.reverse_perm _).append_right _).trans (.of_eq (chain_append ..))
  · exact .of_eq (chain_append ..)

theorem length_chain_lt (test : α → α → Bool) (x : α) (xs : List α) :
    (chain test x xs).2.length < (x :: xs).length := by
  fun_induction chain test x xs with
  | case1 => simp
  | case2 x y ys _ run rest h ih =>
    rw [h] at ih
    exact Nat.lt_succ_of_lt ih
  | case3 => simp

theorem length_leadingRun_lt (less : α → α → Bool) (x : α) (xs : List α) :
    (leadingRun less x xs).2.length < (x :: xs).length := by
  unfold leadingRun
  split <;> exact length_chain_lt ..

/-- The list cut into runs. What is there counts as a run from `goal` elements on; a piece that is
yet to be sorted has `size` elements. -/
def cutRuns (less : α → α → Bool) (goal size : Nat) : List α → List (Run α)
  | [] => []
  | x :: xs =>
    let run := leadingRun less x xs
    if goal ≤ run.1.length then ⟨run.1, true⟩ :: cutRuns less goal size run.2
    else ⟨x :: xs.take (size - 1), false⟩ :: cutRuns less goal size (xs.drop (size - 1))
termination_by xs => xs.length
decreasing_by
  · exact length_leadingRun_lt less x xs
  · simp only [List.length_drop, List.length_cons]
    omega

/-! ### Bringing runs together -/

/-- The run, sorted. -/
def Run.settle (sort : List α → Except Fault (List α)) (run : Run α) :
    Except Fault (Run α) := do
  if run.sorted then return run else return ⟨← sort run.items, true⟩

/-- Two neighbouring runs as one. -/
def Run.join (less : α → α → Bool) (sort : List α → Except Fault (List α)) (left right : Run α) :
    Except Fault (Run α) := do
  if left.sorted || right.sorted then
    return ⟨mergeLists less (← left.settle sort).items (← right.settle sort).items, true⟩
  else return ⟨left.items ++ right.items, false⟩

/-- How deep in the tree over `total` elements the edge of two runs lies, the first of which starts
behind `start` elements: how many leading binary digits the places of their middles share. -/
def edgeDepth (total start left right : Nat) : Nat :=
  let scale := (0x4000000000000000 + total - 1) / total
  63 - Nat.log2 (scale * (2 * start + left) ^^^ scale * (2 * (start + left) + right))

/-- Joins a run to those before it whose edge lies at least as deep as `depth`. The runs before it
are given last one first, each with the depth of the edge behind it. -/
def joinDeeper (less : α → α → Bool) (sort : List α → Except Fault (List α)) (depth : Nat) :
    (before : List (Run α × Nat)) → (run : Run α) → Except Fault (List (Run α × Nat) × Run α)
  | [], run => return ([], run)
  | (left, edge) :: before, run =>
    if depth ≤ edge then do joinDeeper less sort depth before (← left.join less sort run)
    else return ((left, edge) :: before, run)

/-- Brings a run, which starts behind `start` of `total` elements, together with the runs before and
after it. -/
def joinAll (less : α → α → Bool) (sort : List α → Except Fault (List α)) (total : Nat) :
    (before : List (Run α × Nat)) → (start : Nat) → (run : Run α) → (later : List (Run α)) →
      Except Fault (Run α)
  | before, _, run, [] => do return (← joinDeeper less sort 0 before run).2
  | before, start, run, next :: later => do
    let depth := edgeDepth total start run.items.length next.items.length
    let (before, joined) ← joinDeeper less sort depth before run
    joinAll less sort total ((joined, depth) :: before) (start + run.items.length) next later

/-- All runs of a list brought together and sorted. -/
def assemble (less : α → α → Bool) (sort : List α → Except Fault (List α)) (total : Nat) :
    List (Run α) → Except Fault (List α)
  | [] => return []
  | run :: later => do
    let whole ← joinAll less sort total [] 0 run later
    return (← whole.settle sort).items

/-! ### Sorting by runs -/

/-- About the square root of `n`. -/
def nearRoot (n : Nat) : Nat :=
  let power := Nat.pow 2 ((1 + Nat.log2 n) / 2)
  (power + n / power) / 2

/-- From how many elements on a run that is there already is kept. -/
def goodLength (total : Nat) : Nat :=
  if total ≤ 4096 then min (total - total / 2) 64 else nearRoot total

/-- The list sorted by its runs, the pieces between them as blocks. -/
def sortByRuns (less : α → α → Bool) (xs : List α) : Except Fault (List α) := do
  let runs ← (cutRuns less (goodLength xs.length) blockSize xs).mapM (·.settle (sortBlock less))
  assemble less (sortBlock less) xs.length runs

/-! ### Elements are kept -/

/-- A way of sorting that loses and invents nothing. -/
def Keeps (sort : List α → Except Fault (List α)) : Prop :=
  ∀ xs ys, sort xs = .ok ys → ys.Perm xs

theorem keeps_sortBlock (less : α → α → Bool) : Keeps (sortBlock less) := fun _ _ => sortBlock_perm

theorem cutRuns_perm (less : α → α → Bool) (goal size : Nat) (xs : List α) :
    ((cutRuns less goal size xs).flatMap (·.items)).Perm xs := by
  fun_induction cutRuns less goal size xs with
  | case1 => rfl
  | case2 x xs run _ ih =>
    rw [List.flatMap_cons]
    exact (ih.append_left _).trans (leadingRun_perm less x xs)
  | case3 x xs run _ ih =>
    rw [List.flatMap_cons]
    exact (ih.append_left _).trans (.of_eq (by simp))

variable {less : α → α → Bool} {sort : List α → Except Fault (List α)}

theorem settle_perm (hs : Keeps sort) {run settled : Run α} (h : run.settle sort = .ok settled) :
    settled.items.Perm run.items := by
  unfold Run.settle at h
  split at h
  · obtain rfl := Except.ok.inj h
    rfl
  · obtain ⟨items, hi, h⟩ := bind_eq_ok.1 h
    obtain rfl := Except.ok.inj h
    exact hs _ _ hi

theorem join_perm (hs : Keeps sort) {left right joined : Run α}
    (h : left.join less sort right = .ok joined) :
    joined.items.Perm (left.items ++ right.items) := by
  unfold Run.join at h
  split at h
  · obtain ⟨l, hl, h⟩ := bind_eq_ok.1 h
    obtain ⟨r, hr, h⟩ := bind_eq_ok.1 h
    obtain rfl := Except.ok.inj h
    exact (mergeLists_perm ..).trans ((settle_perm hs hl).append (settle_perm hs hr))
  · obtain rfl := Except.ok.inj h
    rfl

theorem joinDeeper_perm (hs : Keeps sort) {depth : Nat} {before : List (Run α × Nat)} {run : Run α}
    {found : List (Run α × Nat) × Run α} (h : joinDeeper less sort depth before run = .ok found) :
    (found.2.items ++ found.1.flatMap (·.1.items)).Perm
      (run.items ++ before.flatMap (·.1.items)) := by
  induction before generalizing run with
  | nil =>
    obtain rfl := Except.ok.inj h
    rfl
  | cons first before ih =>
    unfold joinDeeper at h
    split at h
    · obtain ⟨joined, hj, h⟩ := bind_eq_ok.1 h
      refine (ih h).trans (((join_perm hs hj).append_right _).trans ?_)
      rw [List.flatMap_cons, ← List.append_assoc]
      exact List.perm_append_comm.append_right _
    · obtain rfl := Except.ok.inj h
      rfl

/-- Every edge lies at least at depth zero. -/
theorem joinDeeper_zero {before : List (Run α × Nat)} {run : Run α}
    {found : List (Run α × Nat) × Run α} (h : joinDeeper less sort 0 before run = .ok found) :
    found.1 = [] := by
  induction before generalizing run with
  | nil =>
    obtain rfl := Except.ok.inj h
    rfl
  | cons first before ih =>
    unfold joinDeeper at h
    rw [if_pos (Nat.zero_le _)] at h
    obtain ⟨joined, -, h⟩ := bind_eq_ok.1 h
    exact ih h

theorem joinAll_perm (hs : Keeps sort) {total start : Nat} {before : List (Run α × Nat)}
    {run whole : Run α} {later : List (Run α)}
    (h : joinAll less sort total before start run later = .ok whole) :
    whole.items.Perm (run.items ++ before.flatMap (·.1.items) ++ later.flatMap (·.items)) := by
  induction later generalizing before start run with
  | nil =>
    obtain ⟨found, hf, h⟩ := bind_eq_ok.1 h
    obtain rfl := Except.ok.inj h
    simpa [joinDeeper_zero hf] using joinDeeper_perm hs hf
  | cons next later ih =>
    obtain ⟨found, hf, h⟩ := bind_eq_ok.1 h
    refine (ih h).trans ?_
    simp only [List.flatMap_cons, ← List.append_assoc]
    refine List.Perm.append_right _ ?_
    rw [List.append_assoc next.items]
    exact List.perm_append_comm.trans ((joinDeeper_perm hs hf).append_right _)

theorem assemble_perm (hs : Keeps sort) (total : Nat) {runs : List (Run α)} {sorted : List α}
    (h : assemble less sort total runs = .ok sorted) :
    sorted.Perm (runs.flatMap (·.items)) := by
  unfold assemble at h
  split at h
  · obtain rfl := Except.ok.inj h
    rfl
  · obtain ⟨whole, hw, h⟩ := bind_eq_ok.1 h
    obtain ⟨settled, hse, h⟩ := bind_eq_ok.1 h
    obtain rfl := Except.ok.inj h
    simpa using (settle_perm hs hse).trans (joinAll_perm hs hw)

theorem mapM_settle_perm (hs : Keeps sort) {runs settled : List (Run α)}
    (h : runs.mapM (·.settle sort) = .ok settled) :
    (settled.flatMap (·.items)).Perm (runs.flatMap (·.items)) := by
  induction runs generalizing settled with
  | nil =>
    obtain rfl := Except.ok.inj h
    rfl
  | cons run runs ih =>
    rw [List.mapM_cons] at h
    obtain ⟨first, hf, h⟩ := bind_eq_ok.1 h
    obtain ⟨others, ho, h⟩ := bind_eq_ok.1 h
    obtain rfl := Except.ok.inj h
    simpa using (settle_perm hs hf).append (ih ho)

/-- Sorting by runs keeps the elements. -/
theorem keeps_sortByRuns (less : α → α → Bool) : Keeps (sortByRuns less) := by
  intro xs ys h
  obtain ⟨runs, hr, h⟩ := bind_eq_ok.1 h
  exact (assemble_perm (keeps_sortBlock less) _ h).trans <|
    (mapM_settle_perm (keeps_sortBlock less) hr).trans (cutRuns_perm ..)

end ParetoSearch.Sorting
