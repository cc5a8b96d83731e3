/-!
# Sorting by insertion

A list is sorted by inserting its elements one after another, each behind all those it is not
smaller than. Elements that are not smaller than each other keep their order. The test need not be
a linear order: with one that never answers yes the list stays as it is.
-/

namespace ParetoSearch.Sorting

variable {α : Type}

/-- Puts `x` into a list that is sorted from the greatest down, in front of the first element that
it is not smaller than. -/
def insertDown (less : α → α → Bool) (x : α) : List α → List α
  | [] => [x]
  | y :: ys => if less x y then y :: insertDown less x ys else x :: y :: ys

/-- A list sorted from the smallest up with further elements inserted into it one after another. -/
def insertAll (less : α → α → Bool) (sorted xs : List α) : List α :=
  (xs.foldl (fun down x => insertDown less x down) sorted.reverse).reverse

/-- The list sorted from the smallest up, equal elements in their old order. -/
def stableSort (less : α → α → Bool) (xs : List α) : List α := insertAll less [] xs

theorem insertDown_perm (less : α → α → Bool) (x : α) (ys : List α) :
    (insertDown less x ys).Perm (x :: ys) := by
  fun_induction insertDown less x ys with
  | case1 => rfl
  | case2 y ys _ ih => exact (ih.cons y).trans (.swap x y ys)
  | case3 => rfl

/-- Inserting keeps the elements. -/
theorem insertAll_perm (less : α → α → Bool) (sorted xs : List α) :
    (insertAll less sorted xs).Perm (sorted ++ xs) := by
  have key : ∀ (xs down : List α),
      (xs.foldl (fun down x => insertDown less x down) down).Perm (xs ++ down) := by
    intro xs
    induction xs with
    | nil => exact fun _ => .rfl
    | cons x xs ih =>
      intro down
      exact (ih _).trans (((insertDown_perm less x down).append_left xs).trans List.perm_middle)
  exact (List.reverse_perm _).trans <| (key xs sorted.reverse).trans <|
    List.perm_append_comm.trans ((List.reverse_perm sorted).append_right xs)

/-- Sorting keeps the elements. -/
theorem stableSort_perm (less : α → α → Bool) (xs : List α) : (stableSort less xs).Perm xs :=
  insertAll_perm less [] xs

@[simp] theorem length_stableSort (less : α → α → Bool) (xs : List α) :
    (stableSort less xs).length = xs.length :=
  (stableSort_perm less xs).length_eq

@[simp] theorem mem_stableSort {less : α → α → Bool} {xs : List α} {a : α} :
    a ∈ stableSort less xs ↔ a ∈ xs :=
  (stableSort_perm less xs).mem_iff

end ParetoSearch.Sorting
