import ParetoSearch.Sorting.Insertion
import ParetoSearch.Sorting.Merge

/-!
# Sorting a block

A block of at most `blockSize` elements is sorted in two halves, which are then merged from both
ends. In a half the first eight or four elements, as the block is large enough for it, are sorted by
a fixed scheme, and the others are inserted one after another.
-/

namespace ParetoSearch.Sorting

variable {α : Type}

/-- The greatest number of elements that are sorted as one block. -/
def blockSize : Nat := 32

/-- Four elements of which the least and the greatest are known. -/
def sortBetween (less : α → α → Bool) (least x y greatest : α) : List α :=
  if less y x then [least, y, x, greatest] else [least, x, y, greatest]

/-- Four elements, the first two and the last two of them in order. -/
def sortPairs (less : α → α → Bool) (a b c d : α) : List α :=
  match less c a, less d b with
  | false, false => sortBetween less a b c d
  | false, true => sortBetween less a c d b
  | true, false => sortBetween less c a b d
  | true, true => sortBetween less c a d b

/-- Four elements, sorted by five comparisons. -/
def sortFour (less : α → α → Bool) (a b c d : α) : List α :=
  match less b a, less d c with
  | false, false => sortPairs less a b c d
  | false, true => sortPairs less a b d c
  | true, false => sortPairs less b a c d
  | true, true => sortPairs less b a d c

/-- A half of a block of the given size, sorted. -/
def sortHalf (less : α → α → Bool) (size : Nat) : List α → Except Fault (List α)
  | a :: b :: c :: d :: rest =>
    if size < 8 then return stableSort less (a :: b :: c :: d :: rest)
    else if size < 16 then return insertAll less (sortFour less a b c d) rest
    else
      match rest with
      | e :: f :: g :: h :: rest => do
        let eight ← mergeEnds less (sortFour less a b c d) (sortFour less e f g h)
        return insertAll less eight rest
      | _ => return stableSort less (a :: b :: c :: d :: rest)
  | few => return stableSort less few

/-- A block, sorted. -/
def sortBlock (less : α → α → Bool) (block : List α) : Except Fault (List α) := do
  let left ← sortHalf less block.length (block.take (block.length / 2))
  let right ← sortHalf less block.length (block.drop (block.length / 2))
  mergeEnds less left right

/-! ### Elements are kept -/

theorem sortFour_perm (less : α → α → Bool) (a b c d : α) :
    (sortFour less a b c d).Perm [a, b, c, d] := by
  classical
  rw [List.perm_iff_count]
  intro x
  unfold sortFour
  split <;> unfold sortPairs <;> split <;> unfold sortBetween <;> split <;>
    simp only [List.count_cons, List.count_nil] <;> omega

theorem sortHalf_perm {less : α → α → Bool} {size : Nat} {half sorted : List α}
    (h : sortHalf less size half = .ok sorted) : sorted.Perm half := by
  unfold sortHalf at h
  split at h
  · split at h
    · obtain rfl := Except.ok.inj h
      exact stableSort_perm ..
    · split at h
      · obtain rfl := Except.ok.inj h
        exact (insertAll_perm ..).trans ((sortFour_perm ..).append_right _)
      · split at h
        · obtain ⟨eight, he, h⟩ := bind_eq_ok.1 h
          obtain rfl := Except.ok.inj h
          exact (insertAll_perm ..).trans <| ((mergeEnds_perm he).trans <|
            (sortFour_perm ..).append (sortFour_perm ..)).append_right _
        · obtain rfl := Except.ok.inj h
          exact stableSort_perm ..
  · obtain rfl := Except.ok.inj h
    exact stableSort_perm ..

/-- Sorting a block keeps its elements. -/
theorem sortBlock_perm {less : α → α → Bool} {block sorted : List α}
    (h : sortBlock less block = .ok sorted) : sorted.Perm block := by
  obtain ⟨left, hl, h⟩ := bind_eq_ok.1 h
  obtain ⟨right, hr, h⟩ := bind_eq_ok.1 h
  have := (mergeEnds_perm h).trans ((sortHalf_perm hl).append (sortHalf_perm hr))
  rwa [List.take_append_drop] at this

end ParetoSearch.Sorting
