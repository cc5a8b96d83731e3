import ParetoSearch.Proofs.Ranking.Chains
import ParetoSearch.Proofs.Ranking.Graph
import ParetoSearch.Proofs.Sorting.Sorted

/-!
# Fronts are the levels of depth

Releasing one front after another finds, as front number `k`, exactly the items of
depth `k`, in ascending order: `exists_laterFronts_eq_ok`. The invariant is that once
the fronts before number `k` are released, an item's count is the number of its
dominators that end a chain of length `k`; the others are gone. It holds for every
recorded relation, with or without cycles.
-/

namespace ParetoSearch

variable {n : ℕ}

/-! ### One release -/

/-- A release of items none of which is listed more often than it has dominators takes away as
many dominators as there are listings, and frees once each item that loses its last one. -/
theorem exists_releaseAll_eq_ok : ∀ (js : List (Fin n)) (counts : Vector ℕ n)
    (freed : List (Fin n)), (∀ j : Fin n, js.count j ≤ counts.get j) →
    ∃ counts' freed', releaseAll js counts freed = .ok (counts', freed') ∧
      (∀ j : Fin n, counts'.get j + js.count j = counts.get j) ∧
      ∀ j : Fin n, freed'.count j =
        freed.count j + if 0 < js.count j ∧ js.count j = counts.get j then 1 else 0
  | [], counts, freed, _ => ⟨counts, freed, rfl, by simp, by simp⟩
  | a :: js, counts, freed, h => by
    have ha : 0 < counts.get a := by
      have := h a
      rw [List.count_cons_self] at this
      omega
    obtain ⟨k, hk⟩ := Nat.exists_eq_succ_of_ne_zero ha.ne'
    have hset : ∀ j : Fin n, (counts.set a.val k a.isLt).get j + (if a = j then 1 else 0) =
        counts.get j := by
      intro j
      rw [get_set]
      split_ifs with hj
      · exact hj ▸ hk.symm
      · rfl
    have hcons : ∀ j, (a :: js).count j = js.count j + if a = j then 1 else 0 := by
      intro j
      simp [List.count_cons]
    obtain ⟨counts', freed', hr, hc, hf⟩ := exists_releaseAll_eq_ok js
      (counts.set a k) (if k = 0 then a :: freed else freed) fun j => by
        have := h j
        rw [hcons] at this
        have := hset j
        omega
    refine ⟨counts', freed', ?_, fun j => ?_, fun j => ?_⟩
    · rw [releaseAll]
      split
      · exact absurd ‹_› ha.ne'
      · obtain rfl : k = _ := Nat.succ_injective (hk.symm.trans ‹_›)
        exact hr
    · have := hc j
      have := hset j
      rw [hcons]
      omega
    · have hfreed : (if k = 0 then a :: freed else freed).count j =
          freed.count j + if k = 0 ∧ a = j then 1 else 0 := by
        split_ifs <;> simp_all
      have hj := hset j
      have hle := h j
      rw [hf j, hfreed, hcons] at *
      by_cases haj : a = j
      · subst haj
        simp only [if_true, eq_self, and_true, hk] at hj hle ⊢
        split_ifs <;> omega
      · simp only [haj, if_false, and_false] at hj hle ⊢
        split_ifs <;> omega

/-! ### The levels of a relation -/

variable {r : Fin n → Fin n → Prop} {k : ℕ}

open Classical in
/-- The items of depth `k`, in ascending order. -/
noncomputable def level (r : Fin n → Fin n → Prop) (k : ℕ) : List (Fin n) :=
  (List.finRange n).filter fun i => decide (Ranking.HasDepth r k i)

@[simp] theorem mem_level_iff {i : Fin n} : i ∈ level r k ↔ Ranking.HasDepth r k i := by
  simp [level]

theorem pairwise_level : (level r k).Pairwise (· < ·) :=
  (List.pairwise_lt_finRange n).filter _

theorem level_eq_nil_of_le {l : ℕ} (hkl : k ≤ l) (h : level r k = []) : level r l = [] := by
  induction hkl with
  | refl => exact h
  | step _ ih =>
    refine List.eq_nil_iff_forall_not_mem.2 fun i hi => ?_
    obtain ⟨j, -, hj⟩ := (mem_level_iff.1 hi).exists_dominator
    simpa [ih] using mem_level_iff.2 hj

/-! ### The dominators that remain -/

/-- The number of dominators of an item that end a chain of length `k`. -/
noncomputable def pending (r : Fin n → Fin n → Prop) (k : ℕ) (j : Fin n) : ℕ :=
  predecessors (fun i j => r i j ∧ Ranking.Chain r k i) j

/-- The number of dominators of an item that have depth `k`. -/
noncomputable def released (r : Fin n → Fin n → Prop) (k : ℕ) (j : Fin n) : ℕ :=
  predecessors (fun i j => r i j ∧ Ranking.HasDepth r k i) j

theorem pending_zero (j : Fin n) : pending r 0 j = predecessors r j := by
  simp [pending, Ranking.Chain]

open Classical in
theorem predecessors_eq_length (j : Fin n) :
    predecessors r j = ((List.finRange n).filter fun i => decide (r i j)).length := by
  rw [predecessors, Fin.univ_def]
  rfl

/-- Listing what a level dominates lists an item once for each of its dominators there. -/
theorem DominanceGraph.Records.count_flatMap_level {g : DominanceGraph n} (hg : g.Records r)
    (k : ℕ) (j : Fin n) :
    ((level r k).flatMap fun i => g.dominated.get i).count j = released r k j := by
  classical
  have hcount : ∀ l : List (Fin n), (l.flatMap fun i => g.dominated.get i).count j =
      (l.filter fun i => decide (r i j)).length := by
    intro l
    induction l with
    | nil => rfl
    | cons i l ih =>
      rw [List.flatMap_cons, List.count_append, ih, List.filter_cons]
      by_cases hi : r i j
      · simp [hi, List.count_eq_one_of_mem (hg.nodup i) ((hg.mem_iff i j).2 hi), Nat.add_comm]
      · simp [hi, List.count_eq_zero_of_not_mem (mt (hg.mem_iff i j).1 hi)]
  rw [hcount, released, predecessors_eq_length, level, List.filter_filter]
  congr 2
  funext i
  simp

/-- Releasing a level leaves the dominators that end a longer chain. -/
theorem pending_succ_add_released (k : ℕ) (j : Fin n) :
    pending r (k + 1) j + released r k j = pending r k j := by
  rw [pending, released, ← predecessors_or fun i h₁ h₂ => h₂.2.2 h₁.2]
  refine congrArg (predecessors · j) (funext₂ fun a b => propext ?_)
  by_cases h : Ranking.Chain r (k + 1) a
  · simp [h, h.of_succ, Ranking.HasDepth]
  · simp [h, Ranking.HasDepth]

theorem hasDepth_succ_iff {j : Fin n} : Ranking.HasDepth r (k + 1) j ↔
    0 < released r k j ∧ released r k j = pending r k j := by
  have hchain : ∀ l, Ranking.Chain r (l + 1) j ↔ 0 < pending r l j := fun l => by
    simp [pending, predecessors, Finset.card_pos, Finset.Nonempty, Ranking.Chain]
  have hsum := pending_succ_add_released (r := r) k j
  rw [Ranking.HasDepth, hchain, hchain]
  omega

/-! ### All releases -/

/-- **Releasing level after level**: from the items of depth `k` and the counts that remain there,
the later fronts are the next levels, up to the first empty one. -/
theorem exists_laterFronts_eq_ok {g : DominanceGraph n} (hg : g.Records r) {k : ℕ}
    {counts : Vector ℕ n} (hcounts : ∀ j : Fin n, counts.get j = pending r k j) :
    ∃ len, laterFronts g.dominated (level r k) counts =
        .ok ((List.range len).map fun m => level r (k + 1 + m)) ∧
      (∀ m < len, level r (k + 1 + m) ≠ []) ∧ level r (k + 1 + len) = [] := by
  obtain ⟨counts', freed, hrelease, hcounts', hfreed⟩ := exists_releaseAll_eq_ok
    ((level r k).flatMap fun i : Fin n => g.dominated.get i) counts [] fun j => by
      have := pending_succ_add_released (r := r) k j
      rw [hg.count_flatMap_level, hcounts]
      omega
  simp only [hg.count_flatMap_level, hcounts, List.count_nil, Nat.zero_add] at hcounts' hfreed
  have hmem : ∀ j, j ∈ freed ↔ Ranking.HasDepth r (k + 1) j := fun j => by
    rw [hasDepth_succ_iff, ← List.count_pos_iff, hfreed]
    split_ifs with h
    · exact iff_of_true Nat.one_pos h
    · exact iff_of_false (Nat.lt_irrefl 0) h
  have hnodup : freed.Nodup := List.nodup_iff_count_le_one.2 fun j => by
    rw [hfreed]
    split_ifs <;> simp
  have hnext : Sorting.stableSort (fun i j => decide (i < j)) freed = level r (k + 1) := by
    refine Sorting.stableSort_eq_of_sortedLT ?_ pairwise_level
    exact (List.perm_ext_iff_of_nodup hnodup (pairwise_level.imp ne_of_lt)).2 fun j => by
      rw [hmem, mem_level_iff]
  rw [laterFronts]
  split
  · rename_i hrelease'
    exact absurd (hrelease.symm.trans hrelease') (by simp)
  rename_i hrelease'
  obtain ⟨rfl, rfl⟩ := Prod.mk.inj (Except.ok.inj (hrelease.symm.trans hrelease'))
  split_ifs with hnil
  · refine ⟨0, rfl, by simp, ?_⟩
    simp [List.eq_nil_iff_forall_not_mem, ← hmem, hnil]
  · have hless : total counts'.toList < total counts.toList := by
      have := total_releaseAll hrelease
      have := List.length_pos_iff.2 hnil
      simp only [List.length_nil] at *
      omega
    obtain ⟨len, hlater, hne, hend⟩ := exists_laterFronts_eq_ok (k := k + 1) hg fun j => by
      have := hcounts' j
      have := pending_succ_add_released (r := r) k j
      show counts'.get j = _
      omega
    have hshift : ∀ m, k + 1 + 1 + m = k + 1 + (m + 1) := fun m => by omega
    simp only [hshift] at hlater hne hend
    refine ⟨len + 1, ?_, fun m hm => ?_, hend⟩
    · simp only [hnext, hlater]
      rw [List.range_succ_eq_map, List.map_cons, List.map_map]
      rfl
    · cases m with
      | zero =>
        obtain ⟨j, hj⟩ := List.exists_mem_of_ne_nil _ hnil
        exact List.ne_nil_of_mem (mem_level_iff.2 ((hmem j).1 hj))
      | succ m => exact hne m (Nat.lt_of_succ_lt_succ hm)
termination_by total counts.toList

end ParetoSearch
