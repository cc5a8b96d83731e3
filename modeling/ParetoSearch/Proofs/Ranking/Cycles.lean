import ParetoSearch.Proofs.Ranking.Exact

/-!
# Cycles of dominance

A comparison need not be an order: it may go round in a circle or contradict itself. Every
pair is compared once, and what its verdicts say is the relation `Beats`. This module shows
what becomes of a ranking by any comparison at all.

The fronts are levels of depth, whatever the relation is. So no item is in two of them, and
there are no more fronts than items. An item on a cycle, or behind one, has no depth, and
every other item has one, so the fronts leave out the former and hold the latter
(`LeavesOutCycles`). The releases never take a dominator from an item that has none left: a
ranking fails only where a comparison does (`exists_leavesOutCycles_or_failsFirst`).
-/

namespace ParetoSearch.Ranking

open DominanceGraph (Beats FailsFirst)

variable {n : ℕ}

/-! ### Several levels together -/

section Levels

variable {r : Fin n → Fin n → Prop} {len : ℕ}

theorem nodup_flatten_levels : ((List.range len).map (level r)).flatten.Nodup := by
  refine List.nodup_flatten.2 ⟨List.forall_mem_map.2 fun k _ => ?_, ?_⟩
  · exact pairwise_level.imp ne_of_lt
  · refine List.pairwise_map.2 (List.nodup_range.imp fun hne => ?_)
    refine List.disjoint_left.2 fun i hk hl => hne ?_
    exact (mem_level_iff.1 hk).unique (mem_level_iff.1 hl)

/-- The levels before an empty one hold the items that are not behind a cycle. -/
theorem mem_flatten_levels_iff (hend : level r len = []) {i : Fin n} :
    i ∈ ((List.range len).map (level r)).flatten ↔ ¬BehindCycle r i := by
  rw [← exists_hasDepth_iff, List.mem_flatten]
  constructor
  · rintro ⟨_, hlevel, hi⟩
    obtain ⟨k, -, rfl⟩ := List.mem_map.1 hlevel
    exact ⟨k, mem_level_iff.1 hi⟩
  · rintro ⟨k, hk⟩
    have hlt : k < len := hk.lt_of_level_eq_nil hend
    exact ⟨_, List.mem_map_of_mem (List.mem_range.2 hlt), mem_level_iff.2 hk⟩

theorem le_of_level_ne_nil (hne : ∀ k < len, level r k ≠ []) : len ≤ n := by
  choose item hitem using fun (k : Fin len) => List.exists_mem_of_ne_nil _ (hne k k.isLt)
  have hinjective : Function.Injective item := fun k l hkl =>
    Fin.ext ((mem_level_iff.1 (hitem k)).unique (hkl ▸ mem_level_iff.1 (hitem l)))
  simpa using Fintype.card_le_of_injective item hinjective

end Levels

/-! ### What is left out -/

/-- The ranking divides some of `n` items into fronts and leaves out the others, which are those on
cycles of dominance and behind them. -/
structure LeavesOutCycles (dominates : Fin n → Fin n → Prop) (r : Ranking) : Prop where
  /-- The fronts hold items only. -/
  lt_of_mem : ∀ i ∈ r.fronts.flatten, i < n
  /-- No item occurs twice, be it in one front or in two. -/
  nodup : r.fronts.flatten.Nodup
  /-- In no front are the items on a cycle or behind one. -/
  notMem_iff : ∀ i : Fin n, i.val ∉ r.fronts.flatten ↔ BehindCycle dominates i
  /-- There are no more fronts than items. -/
  length_le : r.fronts.length ≤ n

theorem LeavesOutCycles.mem_of_acyclic {dominates : Fin n → Fin n → Prop} {r : Ranking}
    (h : r.LeavesOutCycles dominates) (hacyclic : ∀ c, ¬Relation.TransGen dominates c c)
    (i : Fin n) : i.val ∈ r.fronts.flatten := by
  by_contra hi
  obtain ⟨c, hcycle, -⟩ := (h.notMem_iff i).1 hi
  exact hacyclic c hcycle

/-- Division by levels leaves out what has no depth. -/
theorem leavesOutCycles_ofFronts {r : Fin n → Fin n → Prop} {len : ℕ} (hlen : len ≤ n)
    (hend : level r len = []) :
    (ofFronts ((List.range len).map (level r))).LeavesOutCycles r := by
  have hflatten : (ofFronts ((List.range len).map (level r))).fronts.flatten =
      ((List.range len).map (level r)).flatten.map Fin.val := List.map_flatten.symm
  constructor
  case lt_of_mem =>
    rw [hflatten]
    exact List.forall_mem_map.2 fun i _ => i.isLt
  case nodup =>
    rw [hflatten]
    exact nodup_flatten_levels.map Fin.val_injective
  case notMem_iff =>
    intro i
    rw [hflatten, List.mem_map_of_injective Fin.val_injective, mem_flatten_levels_iff hend, not_not]
  case length_le => simpa [ofFronts] using hlen

theorem leavesOutCycles_of_ofComparison_eq_ok {compare : Fin n → Fin n → Except Error Dominance}
    {r : Ranking} (h : ofComparison compare = .ok r) : r.LeavesOutCycles (Beats compare) := by
  rcases eq_or_ne n 0 with rfl | hn
  · obtain rfl : {} = r := Except.ok.inj h
    exact leavesOutCycles_ofFronts (Nat.le_refl 0) (by simp [level])
  obtain ⟨g, hgraph⟩ := exists_graph_of_ofComparison_eq_ok hn h
  obtain ⟨len, hr, hne, hend⟩ :=
    exists_eq_ok_of_records hn hgraph (DominanceGraph.records_of_ofComparison_eq_ok hgraph)
  obtain rfl := Except.ok.inj (hr.symm.trans h)
  refine leavesOutCycles_ofFronts ?_ hend
  -- The first front alone may be empty, and then it is the only one.
  cases len with
  | zero => exact Nat.pos_of_ne_zero hn
  | succ last =>
    have hfilled : ∀ k < last + 1 + 1, level (Beats compare) k ≠ [] := fun k hk hnil =>
      hne last (Nat.lt_succ_self last) (level_eq_nil_of_le (Nat.le_of_lt_succ hk) hnil)
    exact le_of_level_ne_nil hfilled

/-- **Ranking by any comparison** ends with a ranking or with the error of the first comparison that
fails; no count of dominators is ever taken below zero, which would be a fault. A ranking has every
item in at most one front, and in none exactly the items on a cycle of the recorded dominance or
behind one, so it has them all if there is no cycle. -/
theorem exists_leavesOutCycles_or_failsFirst (compare : Fin n → Fin n → Except Error Dominance) :
    (∀ f, ofComparison compare ≠ .error (.fault f)) ∧
    ((∃ e, ofComparison compare = .error (.error e) ∧ FailsFirst compare e) ∨
      ∃ r, ofComparison compare = .ok r ∧ (∀ i j, i < j → ∃ verdict, compare i j = .ok verdict) ∧
        r.LeavesOutCycles (Beats compare) ∧
        ((∀ c, ¬Relation.TransGen (Beats compare) c c) →
          ∀ i : Fin n, i.val ∈ r.fronts.flatten)) := by
  constructor
  · intro f h
    obtain ⟨e, he, -⟩ := ofComparison_eq_error_iff.1 h
    cases he
  cases h : ofComparison compare with
  | error f =>
    obtain ⟨e, rfl, hfirst⟩ := ofComparison_eq_error_iff.1 h
    exact .inl ⟨e, rfl, hfirst⟩
  | ok r =>
    have hleaves : r.LeavesOutCycles (Beats compare) := leavesOutCycles_of_ofComparison_eq_ok h
    exact .inr ⟨r, rfl, fun i j hij => exists_of_ofComparison_eq_ok h hij, hleaves,
      hleaves.mem_of_acyclic⟩

/-- The first three of six items go round in a circle and the fourth is behind it; of the other two
one dominates the other. -/
example : ofComparison (fun i j : Fin 6 => .ok <| match i.val, j.val with
    | 0, 1 | 1, 2 | 2, 3 | 4, 5 => .left
    | 0, 2 => .right
    | _, _ => .neither) = .ok ⟨[0, 0, 0, 0, 0, 1], [[4], [5]]⟩ := by
  decide +kernel

end ParetoSearch.Ranking
