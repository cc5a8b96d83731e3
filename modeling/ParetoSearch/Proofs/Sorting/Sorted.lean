import ParetoSearch.Sorting.Insertion
import Mathlib.Data.List.Induction
import Mathlib.Data.List.Sort

/-!
# Sorting by insertion sorts

With a test that is a strict weak order, the result of `stableSort` has no element
behind one that it is smaller than, and elements of which neither is smaller keep the
order they had (`pairwise_stableSort`). So sorting by a key in a linear order sorts by
the keys first and by the old order second (`pairwise_stableSort_key`); only the keys
of the elements themselves have to compare as the order does. Elements of a linear
order without repetition come out in the one ascending order they have
(`stableSort_eq_of_sortedLT`).
-/

namespace ParetoSearch.Sorting

variable {α : Type} {less less' : α → α → Bool} {R : α → α → Prop} {xs : List α}

/-! ### One insertion after another -/

theorem insertDown_congr {x : α} {ys : List α} (h : ∀ y ∈ ys, less x y = less' x y) :
    insertDown less x ys = insertDown less' x ys := by
  induction ys with
  | nil => rfl
  | cons y ys ih =>
    obtain ⟨hy, hys⟩ := List.forall_mem_cons.1 h
    rw [insertDown, insertDown, hy, ih hys]

theorem stableSort_concat (less : α → α → Bool) (xs : List α) (x : α) :
    (stableSort less (xs ++ [x])).reverse = insertDown less x (stableSort less xs).reverse := by
  simp [stableSort, insertAll, List.foldl_append]

theorem stableSort_congr (h : ∀ a ∈ xs, ∀ b ∈ xs, less a b = less' a b) :
    stableSort less xs = stableSort less' xs := by
  induction xs using List.reverseRecOn with
  | nil => rfl
  | append_singleton xs x ih =>
    have hbefore : ∀ a ∈ xs, a ∈ xs ++ [x] := fun a => List.mem_append_left _
    apply List.reverse_injective
    rw [stableSort_concat, stableSort_concat,
      ih fun a ha b hb => h a (hbefore a ha) b (hbefore b hb)]
    refine insertDown_congr fun y hy => ?_
    rw [List.mem_reverse, mem_stableSort] at hy
    exact h x (by simp) y (hbefore y hy)

/-! ### Orders -/

/-- An element that comes last goes behind those that it is not smaller than, and the list stays
sorted from the greatest down, later elements first where neither is smaller. -/
theorem pairwise_insertDown (hasymm : ∀ a b, less a b → ¬less b a)
    (htrans : ∀ a b c, ¬less a b → ¬less b c → ¬less a c) {x : α} {ys : List α}
    (hx : ∀ y ∈ ys, R y x) (h : ys.Pairwise fun a b => ¬less a b ∧ (¬less b a → R b a)) :
    (insertDown less x ys).Pairwise fun a b => ¬less a b ∧ (¬less b a → R b a) := by
  fun_induction insertDown less x ys with
  | case1 => exact List.pairwise_singleton _ _
  | case2 y ys hxy ih =>
    obtain ⟨hy, hys⟩ := List.pairwise_cons.1 h
    refine List.pairwise_cons.2 ⟨fun b hb => ?_, ih (fun b hb => hx b (.tail y hb)) hys⟩
    rcases List.mem_cons.1 ((insertDown_perm less x ys).mem_iff.1 hb) with rfl | hb
    · exact ⟨hasymm _ _ hxy, fun hyx => absurd hxy hyx⟩
    · exact hy b hb
  | case3 y ys hxy =>
    obtain ⟨hy, -⟩ := List.pairwise_cons.1 h
    refine List.pairwise_cons.2 ⟨fun b hb => ⟨?_, fun _ => hx b hb⟩, h⟩
    rcases List.mem_cons.1 hb with rfl | hb
    · exact hxy
    · exact htrans _ _ _ hxy (hy b hb).1

/-- **Sorting is stable**: a strict weak order puts no element behind one that it is smaller than,
and of two elements of which neither is smaller the one that came first stays first. -/
theorem pairwise_stableSort (hasymm : ∀ a b, less a b → ¬less b a)
    (htrans : ∀ a b c, ¬less a b → ¬less b c → ¬less a c) (h : xs.Pairwise R) :
    (stableSort less xs).Pairwise fun a b => ¬less b a ∧ (¬less a b → R a b) := by
  induction xs using List.reverseRecOn with
  | nil => exact .nil
  | append_singleton xs x ih =>
    obtain ⟨hxs, -, hx⟩ := List.pairwise_append.1 h
    rw [← List.pairwise_reverse, stableSort_concat]
    refine pairwise_insertDown hasymm htrans (fun y hy => ?_) (List.pairwise_reverse.2 (ih hxs))
    rw [List.mem_reverse, mem_stableSort] at hy
    exact hx y hy x (List.mem_singleton_self x)

variable {β : Type} [LinearOrder β]

/-- Elements that compare as their keys come out by their keys, and at equal keys in their old
order. -/
theorem pairwise_stableSort_key (key : α → β)
    (hless : ∀ a ∈ xs, ∀ b ∈ xs, less a b = decide (key a < key b)) (h : xs.Pairwise R) :
    (stableSort less xs).Pairwise fun a b => key a < key b ∨ key a = key b ∧ R a b := by
  rw [stableSort_congr hless]
  refine (pairwise_stableSort ?_ ?_ h).imp fun {a b} hab => ?_
  · simpa using fun a b => le_of_lt
  · simpa using fun a b c h₁ h₂ => le_trans h₂ h₁
  · simp only [decide_eq_true_eq, not_lt] at hab
    rcases hab.1.lt_or_eq with hlt | heq
    · exact .inl hlt
    · exact .inr ⟨heq, hab.2 heq.ge⟩

theorem stableSort_eq_of_sortedLT {xs ys : List β} (hperm : xs.Perm ys)
    (h : ys.Pairwise (· < ·)) : stableSort (fun a b => decide (a < b)) xs = ys := by
  have hsorted : (stableSort (fun a b => decide (a < b)) xs).Pairwise (· ≤ ·) := by
    refine (pairwise_stableSort_key id (fun _ _ _ _ => rfl)
      (List.pairwise_of_forall (R := fun _ _ => True) fun _ _ => trivial)).imp fun {a b} hab => ?_
    exact hab.elim le_of_lt fun heq => heq.1.le
  exact ((stableSort_perm _ xs).trans hperm).eq_of_pairwise (fun a b _ _ => le_antisymm) hsorted
    (h.imp le_of_lt)

end ParetoSearch.Sorting
