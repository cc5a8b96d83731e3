import ParetoSearch.Failure

/-!
# Merging

Two sorted lists become one. `mergeLists` merges from the end at which the shorter list runs out
sooner. `mergeEnds` merges from both ends at once, half of the elements from each. With a test that
is an order the halves fit together; with another one an element may be drawn from both ends, or
from neither, and the merge notices (`Fault.notOrdered`). A merge that succeeds keeps the elements,
whatever the test says (`mergeEnds_perm`).
-/

namespace ParetoSearch.Sorting

variable {α : Type}

/-- The two lists merged, elements of the left one first where neither is smaller. -/
def mergeLists (less : α → α → Bool) (left right : List α) : List α :=
  if left.length ≤ right.length then left.merge right fun x y => !less y x
  else (left.reverse.merge right.reverse fun x y => less y x).reverse

/-- Draws `n` heads from two lists while both have one, each time the second list's where `second`
says so: what was drawn, and what is left of both. -/
def drawHeads (second : α → α → Bool) : (n : Nat) → (xs ys : List α) → List α × List α × List α
  | n + 1, x :: xs, y :: ys =>
    if second x y then
      let (drawn, rest) := drawHeads second n (x :: xs) ys
      (y :: drawn, rest)
    else
      let (drawn, rest) := drawHeads second n xs (y :: ys)
      (x :: drawn, rest)
  | _, xs, ys => ([], xs, ys)

/-- The two lists merged from both ends, as many elements from each end as the left list has. What
neither end has drawn stands between them; it must not be less than nothing. -/
def mergeEnds (less : α → α → Bool) (left right : List α) : Except Fault (List α) :=
  let (low, left₁, right₁) := drawHeads (fun x y => less y x) left.length left right
  let (high, left₂, right₂) :=
    drawHeads (fun x y => !less y x) left.length left.reverse right.reverse
  if left.length ≤ left₁.length + left₂.length ∧ right.length ≤ right₁.length + right₂.length then
    .ok (low ++ left₁.take (left₁.length + left₂.length - left.length) ++
      right₁.take (right₁.length + right₂.length - right.length) ++ high.reverse)
  else .error .notOrdered

/-! ### Elements are kept -/

theorem mergeLists_perm (less : α → α → Bool) (left right : List α) :
    (mergeLists less left right).Perm (left ++ right) := by
  unfold mergeLists
  split
  · exact List.merge_perm_append _
  · exact (List.reverse_perm _).trans <| (List.merge_perm_append _).trans <|
      (List.reverse_perm left).append (List.reverse_perm right)

/-- What is drawn is the fronts of both lists. -/
theorem exists_of_drawHeads (second : α → α → Bool) (n : Nat) (xs ys : List α) :
    ∃ us vs, xs = us ++ (drawHeads second n xs ys).2.1 ∧ ys = vs ++ (drawHeads second n xs ys).2.2 ∧
      (drawHeads second n xs ys).1.Perm (us ++ vs) := by
  fun_induction drawHeads second n xs ys with
  | case1 n x xs y ys _ drawn rest h ih =>
    obtain ⟨us, vs, h₁, h₂, h₃⟩ := ih
    rw [h] at h₁ h₂ h₃
    exact ⟨us, y :: vs, h₁, by simp [← h₂], (h₃.cons y).trans List.perm_middle.symm⟩
  | case2 n x xs y ys _ drawn rest h ih =>
    obtain ⟨us, vs, h₁, h₂, h₃⟩ := ih
    rw [h] at h₁ h₂ h₃
    exact ⟨x :: us, vs, by simp [← h₁], h₂, h₃.cons x⟩
  | case3 => exact ⟨[], [], rfl, rfl, .rfl⟩

/-- A list with a part drawn from each end, and the part between them. -/
theorem append_take_append {front rest back rest' xs : List α} (h : xs = front ++ rest)
    (h' : xs.reverse = back ++ rest') (hle : xs.length ≤ rest.length + rest'.length) :
    front ++ rest.take (rest.length + rest'.length - xs.length) ++ back.reverse = xs := by
  have hback : back.reverse = rest.drop (rest.length + rest'.length - xs.length) := by
    have hx : xs = rest'.reverse ++ back.reverse := by
      rw [← List.reverse_append, ← h', List.reverse_reverse]
    have hl := congrArg List.length hx
    have hl' := congrArg List.length h
    simp only [List.length_append, List.length_reverse] at hl hl'
    have := congrArg (List.drop rest'.length) hx
    rw [List.drop_left' (by simp), h] at this
    rw [← this, List.drop_append, List.drop_eq_nil_of_le (by omega), List.nil_append]
    congr 1
    omega
  rw [hback, List.append_assoc, List.take_append_drop, ← h]

/-- A merge from both ends keeps the elements. -/
theorem mergeEnds_perm {less : α → α → Bool} {left right merged : List α}
    (h : mergeEnds less left right = .ok merged) : merged.Perm (left ++ right) := by
  obtain ⟨us₁, vs₁, hu₁, hv₁, hp₁⟩ :=
    exists_of_drawHeads (fun x y => less y x) left.length left right
  obtain ⟨us₂, vs₂, hu₂, hv₂, hp₂⟩ :=
    exists_of_drawHeads (fun x y => !less y x) left.length left.reverse right.reverse
  unfold mergeEnds at h
  generalize drawHeads (fun x y => less y x) left.length left right = low at *
  generalize drawHeads (fun x y => !less y x) left.length left.reverse right.reverse = high at *
  obtain ⟨low, left₁, right₁⟩ := low
  obtain ⟨high, left₂, right₂⟩ := high
  dsimp only at h hu₁ hv₁ hp₁ hu₂ hv₂ hp₂
  split at h
  · rename_i hle
    have hl := append_take_append hu₁ hu₂ hle.1
    have hr := append_take_append hv₁ hv₂ hle.2
    obtain rfl := Except.ok.inj h
    generalize left₁.take _ = middle₁ at *
    generalize right₁.take _ = middle₂ at *
    classical
    rw [← hl, ← hr, List.perm_iff_count]
    intro a
    have h₁ := hp₁.count_eq a
    have h₂ := hp₂.count_eq a
    simp only [List.count_append, List.count_reverse] at *
    omega
  · simp at h

end ParetoSearch.Sorting
