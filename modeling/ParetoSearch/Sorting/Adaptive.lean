import ParetoSearch.Sorting.Partition

/-!
# Sorting by a key

Elements are sorted stably by keys that are floats. Where every key is a number the comparison of
keys is an order, and it settles the result. A key that is no number compares with nothing, and then
the result hangs on which elements meet: up to twenty are inserted one after another, up to two
blocks are sorted by their runs, and more are brought together in long runs, which are sorted by
division. Such a sort may notice that it has no order, and it fails; when it succeeds it has kept
the elements (`sortByKey_perm`).
-/

namespace ParetoSearch.Sorting

variable {α : Type}

/-- The list sorted by a test that need not be an order. -/
def adaptiveSort (less : α → α → Bool) (xs : List α) : Except Fault (List α) :=
  if xs.length ≤ 20 then return stableSort less xs
  else if xs.length ≤ 2 * blockSize then sortByRuns less xs
  else
    assemble less (fun part => divideSort less (2 * Nat.log2 part.length) none part) xs.length
      (cutRuns less (goodLength xs.length) (goodLength xs.length) xs)

/-- The list sorted by its keys, equal elements in their old order: a key that is `before` another
one comes first. -/
def sortByKey (before : Float → Float → Bool) (key : α → Float) (xs : List α) :
    Except Fault (List α) :=
  let less (a b : α) := before (key a) (key b)
  if xs.all fun a => !(key a).isNaN then return stableSort less xs else adaptiveSort less xs

/-- An adaptive sort keeps the elements. -/
theorem keeps_adaptiveSort (less : α → α → Bool) : Keeps (adaptiveSort less) := by
  intro xs ys h
  unfold adaptiveSort at h
  split at h
  · obtain rfl := Except.ok.inj h
    exact stableSort_perm ..
  · split at h
    · exact keeps_sortByRuns less _ _ h
    · exact (assemble_perm (fun _ _ => keeps_divideSort less _ _ _ _) _ h).trans (cutRuns_perm ..)

/-- Where every key is a number, sorting succeeds and the result is settled. -/
theorem sortByKey_eq_ok {before : Float → Float → Bool} {key : α → Float} {xs : List α}
    (h : ∀ a ∈ xs, (key a).isNaN = false) :
    sortByKey before key xs = .ok (stableSort (fun a b => before (key a) (key b)) xs) := by
  unfold sortByKey
  rw [if_pos (by simpa using h)]
  rfl

/-- Sorting by a key keeps the elements. -/
theorem sortByKey_perm {before : Float → Float → Bool} {key : α → Float} {xs ys : List α}
    (h : sortByKey before key xs = .ok ys) : ys.Perm xs := by
  unfold sortByKey at h
  split at h
  · obtain rfl := Except.ok.inj h
    exact stableSort_perm ..
  · exact keeps_adaptiveSort _ _ _ h

end ParetoSearch.Sorting
