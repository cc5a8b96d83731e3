import ParetoSearch.Sorting.Runs

/-!
# Sorting by partition

A list is divided by a pivot, into what is smaller and the rest, and both parts are sorted by
themselves. The pivot is a median of samples. Where nothing is smaller than the pivot, or the pivot
is not greater than the border on the left of the part, all that is not greater than the pivot is
in its place already. A part that fits into a block is sorted as a block, and one that has been
divided too often by its runs.
-/

namespace ParetoSearch.Sorting

variable {α : Type}

/-! ### The pivot -/

/-- Of three places the one whose item lies between those of the others. -/
def median (less : Nat → Nat → Bool) (a b c : Nat) : Nat :=
  if less a b == less a c then if less b c == less a b then b else c else a

/-- A median of places spread over three stretches of length `n` that start at the given places; of
long stretches a median of medians. -/
def spreadMedian (less : Nat → Nat → Bool) (n a b c : Nat) : Nat :=
  if 8 ≤ n then
    let inner (start : Nat) :=
      spreadMedian less (n / 8) start (start + n / 8 * 4) (start + n / 8 * 7)
    median less (inner a) (inner b) (inner c)
  else median less a b c
termination_by n
decreasing_by omega

/-- The place of the pivot of a list. -/
def pivotPlace (less : α → α → Bool) (xs : List α) : Nat :=
  let items := xs.toArray
  let lessAt (i j : Nat) : Bool :=
    match items[i]?, items[j]? with
    | some x, some y => less x y
    | _, _ => false
  spreadMedian lessAt (items.size / 8) 0 (items.size / 8 * 4) (items.size / 8 * 7)

/-! ### Division -/

/-- The elements that pass a test and those that do not, each part in its old order. The element
between those before and those after it is not tested; it goes to those that pass if `keep` says
so. -/
def divide (test : α → Bool) (keep : Bool) (before : List α) (middle : α) (after : List α) :
    List α × List α :=
  if keep then
    (before.filter test ++ middle :: after.filter test,
      before.filter (!test ·) ++ after.filter (!test ·))
  else
    (before.filter test ++ after.filter test,
      before.filter (!test ·) ++ middle :: after.filter (!test ·))

/-- The list sorted by division; at most `limit` divisions are nested. The border is the pivot that
the list stands to the right of, if there is one. -/
def divideSort (less : α → α → Bool) :
    (limit : Nat) → (border : Option α) → List α → Except Fault (List α)
  | limit, border, xs =>
    if xs.length ≤ blockSize then sortBlock less xs
    else
      let place := pivotPlace less xs
      match limit, xs.drop place with
      | limit + 1, pivot :: after => do
        let before := xs.take place
        let (smaller, others) := divide (less · pivot) false before pivot after
        if border.any (!less · pivot) || smaller.isEmpty then
          let (settled, greater) := divide (!less pivot ·) true before pivot after
          return settled ++ (← divideSort less limit none greater)
        else
          let low ← divideSort less limit border smaller
          let high ← divideSort less limit (some pivot) others
          return low ++ high
      | _, _ => sortByRuns less xs

/-! ### Elements are kept -/

theorem divide_perm (test : α → Bool) (keep : Bool) (before : List α) (middle : α)
    (after : List α) :
    ((divide test keep before middle after).1 ++ (divide test keep before middle after).2).Perm
      (before ++ middle :: after) := by
  classical
  rw [List.perm_iff_count]
  intro a
  have hb := (List.filter_append_perm test before).count_eq a
  have ha := (List.filter_append_perm test after).count_eq a
  unfold divide
  split <;> simp only [List.count_append, List.count_cons] at * <;> omega

/-- Sorting by division keeps the elements. -/
theorem keeps_divideSort (less : α → α → Bool) (limit : Nat) (border : Option α) :
    Keeps (divideSort less limit border) := by
  intro xs ys h
  fun_induction divideSort less limit border xs generalizing ys with
  | case1 => exact keeps_sortBlock less _ _ h
  | case2 border xs _ place limit pivot after hd before _ _ _ _ settled greater he ih =>
    obtain ⟨rest, hr, h⟩ := bind_eq_ok.1 h
    obtain rfl := Except.ok.inj h
    have hp := divide_perm (!less pivot ·) true before pivot after
    rw [he, ← hd, List.take_append_drop] at hp
    exact ((ih _ hr).append_left _).trans hp
  | case3 border xs _ place limit pivot after hd before smaller others he _ ih₂ ih₁ =>
    obtain ⟨low, hl, h⟩ := bind_eq_ok.1 h
    obtain ⟨high, hh, h⟩ := bind_eq_ok.1 h
    obtain rfl := Except.ok.inj h
    have hp := divide_perm (less · pivot) false before pivot after
    rw [he, ← hd, List.take_append_drop] at hp
    exact ((ih₂ _ hl).append (ih₁ _ hh)).trans hp
  | case4 => exact keeps_sortByRuns less _ _ h

end ParetoSearch.Sorting
