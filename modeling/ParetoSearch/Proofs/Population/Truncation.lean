import ParetoSearch.Archive.Snapshot
import ParetoSearch.Proofs.Ranking.Exact
import ParetoSearch.Truncation

/-!
# Cutting a population down

What the operations do of which cutting a population down is made. Ranking stores a rank
on each member, measuring stores crowding distances and leaves entries and ranks alone
(`assignCrowding_eq_ok`). Members are chosen by fronts: the first ones whole and some of
the next, as many as there is room for (`chooseMembers_eq_ok`). The fronts of an exact
ranking hold every index once (`flatten_fronts_perm`), so one member is kept for each
index that is chosen (`length_retain`).
-/

namespace ParetoSearch

variable {D : Type} {ε σ α β : Type}

theorem check_apply_eq_ok {x : Except ε α} {a : α} {s t : σ} :
    (liftM x : EStateM ε σ α) s = .ok a t ↔ x = .ok a ∧ s = t := by
  cases x with
  | error e => exact ⟨nofun, nofun⟩
  | ok b =>
    rw [Except.ok.injEq]
    exact pure_apply_eq_ok

theorem check_apply_eq_error {x : Except ε α} {e : ε} {s t : σ} :
    (liftM x : EStateM ε σ α) s = .error e t ↔ x = .error e ∧ s = t := by
  cases x with
  | error e' =>
    show EStateM.Result.error e' s = .error e t ↔ _
    rw [EStateM.Result.error.injEq, Except.error.injEq]
  | ok a => exact ⟨nofun, nofun⟩

theorem faulty_apply (x : EStateM Fault σ α) (s : σ) :
    (liftM x : EStateM Failure σ α) s = match x s with
      | .ok a t => .ok a t
      | .error f t => .error (.fault f) t := by
  show EStateM.adaptExcept Failure.fault x s = _
  unfold EStateM.adaptExcept
  cases x s <;> rfl

theorem faulty_apply_eq_ok {x : EStateM Fault σ α} {a : α} {s t : σ} :
    (liftM x : EStateM Failure σ α) s = .ok a t ↔ x s = .ok a t := by
  rw [faulty_apply]
  cases x s <;> simp

theorem faulty_apply_eq_fault {x : EStateM Fault σ α} {f : Fault} {s t : σ} :
    (liftM x : EStateM Failure σ α) s = .error (.fault f) t ↔ x s = .error f t := by
  rw [faulty_apply]
  cases x s <;> simp

/-! ### Crowding distances -/

/-- What every step keeps is kept by all of them. -/
theorem foldlM_of_step {P : β → Prop} {f : β → α → Except ε β}
    (hstep : ∀ b a b', f b a = .ok b' → P b → P b') {xs : List α} {b b' : β}
    (h : xs.foldlM f b = .ok b') (hb : P b) : P b' := by
  induction xs generalizing b with
  | nil => exact Except.ok.inj h ▸ hb
  | cons x xs ih =>
    obtain ⟨c, hc, h⟩ := bind_eq_ok.1 h
    exact ih h (hstep b x c hc hb)

theorem length_of_mapM {f : α → Except ε β} {xs : List α} {ys : List β}
    (h : xs.mapM f = .ok ys) : ys.length = xs.length := by
  induction xs generalizing ys with
  | nil =>
    rw [List.mapM_nil] at h
    exact congrArg List.length (Except.ok.inj h).symm
  | cons x xs ih =>
    rw [List.mapM_cons] at h
    obtain ⟨y, -, h⟩ := bind_eq_ok.1 h
    obtain ⟨zs, hzs, h⟩ := bind_eq_ok.1 h
    rw [← Except.ok.inj h, List.length_cons, List.length_cons, ih hzs]

theorem mapM_eq_ok_map {f : α → Except ε β} {g : α → β} {xs : List α}
    (h : ∀ x ∈ xs, f x = .ok (g x)) : xs.mapM f = .ok (xs.map g) := by
  induction xs with
  | nil => rfl
  | cons x xs ih =>
    obtain ⟨hx, hxs⟩ := List.forall_mem_cons.1 h
    rw [List.mapM_cons, hx, ih hxs]
    rfl

/-- A list of operations succeeds if each of them does. -/
theorem exists_mapM_eq_ok {P : β → Prop} {f : α → Except ε β} {xs : List α}
    (h : ∀ x ∈ xs, ∃ y, f x = .ok y ∧ P y) :
    ∃ ys, xs.mapM f = .ok ys ∧ ys.length = xs.length ∧ ∀ y ∈ ys, P y := by
  induction xs with
  | nil => exact ⟨[], rfl, rfl, by simp⟩
  | cons x xs ih =>
    obtain ⟨⟨y, hy, hP⟩, hrest⟩ := List.forall_mem_cons.1 h
    obtain ⟨ys, hys, hlength, hPs⟩ := ih hrest
    refine ⟨y :: ys, ?_, congrArg Nat.succ hlength, List.forall_mem_cons.2 ⟨hP, hPs⟩⟩
    rw [List.mapM_cons, hy, hys]
    rfl

namespace Crowding

theorem length_addColumn (cells : List Cell) (distances : List Float) :
    (addColumn cells distances).length = distances.length := by
  unfold addColumn
  split
  next least greatest _ _ =>
    dsimp only
    split
    · refine List.foldlRecOn (motive := fun d : List Float => d.length = distances.length) _ _
        (by simp) ?_
      intro d hd share _
      simpa using hd
    · simp
  next => rfl

theorem length_distances {vectors : List (List Float)} {d : List Float}
    (h : distances vectors = .ok d) : d.length = vectors.length := by
  unfold distances at h
  split at h
  · rw [← Except.ok.inj h, List.length_replicate]
  · refine foldlM_of_step (P := fun d => d.length = vectors.length) ?_ h (List.length_replicate ..)
    intro d column d' hcolumn hd
    obtain ⟨cells, -, hcells⟩ := bind_eq_ok.1 hcolumn
    rw [← Except.ok.inj hcells, length_addColumn, hd]

end Crowding

/-- What a member keeps when crowding distances are stored: its entry and its rank. -/
def Solution.ranked (s : Solution D) : Entry D × Option ℕ := (Entry.ofSolution s, s.rank)

namespace Population

variable {P P' : Population D}

/-! ### Attributes -/

/-- The members without their crowding distances. -/
abbrev rankedEntries (members : Population D) : List (Entry D × Option ℕ) :=
  members.map Solution.ranked

theorem length_eq_of_rankedEntries_eq (h : rankedEntries P' = rankedEntries P) :
    P'.length = P.length := by
  simpa using congrArg List.length h

/-- The members without attributes. -/
abbrev entries (members : Population D) : List (Entry D) := members.map Entry.ofSolution

theorem entries_eq_of_rankedEntries_eq (h : rankedEntries P' = rankedEntries P) :
    entries P' = entries P := by
  simpa [Function.comp_def, Solution.ranked] using congrArg (List.map Prod.fst) h

theorem rankedEntries_zipWith_setRank (P : Population D) (rank : Fin P.length → ℕ) :
    rankedEntries (P.zipWith Solution.setRank ((List.finRange P.length).map rank)) =
      (List.finRange P.length).map fun i => (Entry.ofSolution (P.get i), some (rank i)) := by
  apply List.ext_getElem
  · simp
  · intro i hi hi'
    simp [Solution.ranked, Solution.rank, Solution.setRank, Entry.ofSolution]

theorem rankedEntries_modify_setCrowding (P : Population D) (i : ℕ) (d : Float) :
    rankedEntries (P.modify i (·.setCrowding d)) = rankedEntries P := by
  induction P generalizing i with
  | nil => cases i <;> rfl
  | cons s P ih =>
    cases i with
    | zero => rfl
    | succ i => exact congrArg (_ :: ·) (ih i)

theorem assignCrowding_eq_ok {front : List ℕ} {d : List Float}
    (h : assignCrowding front P = .ok d P') :
    d.length = front.length ∧ rankedEntries P' = rankedEntries P ∧
      (objectivesAt P front >>= Crowding.distances) = .ok d := by
  obtain ⟨_, _, hget, h⟩ := bind_apply_eq_ok.1 h
  cases hget
  obtain ⟨vectors, _, hlift, h⟩ := bind_apply_eq_ok.1 h
  obtain ⟨hvectors, rfl⟩ := check_apply_eq_ok.1 hlift
  obtain ⟨d', _, hlift, h⟩ := bind_apply_eq_ok.1 h
  obtain ⟨hd, rfl⟩ := check_apply_eq_ok.1 hlift
  obtain ⟨_, _, hmodify, h⟩ := bind_apply_eq_ok.1 h
  cases hmodify
  obtain ⟨rfl, rfl⟩ := pure_apply_eq_ok.1 h
  refine ⟨(Crowding.length_distances hd).trans (length_of_mapM hvectors), ?_,
    bind_eq_ok.2 ⟨vectors, hvectors, hd⟩⟩
  refine List.foldlRecOn (motive := fun Q => rankedEntries Q = rankedEntries P) _ _ rfl ?_
  intro Q hQ p _
  exact (rankedEntries_modify_setCrowding Q p.1 p.2).trans hQ

/-! ### Choosing -/

theorem byCrowding_perm {front sorted : List ℕ} {d : List Float} (hd : d.length = front.length)
    (h : byCrowding front d = .ok sorted) : sorted.Perm front := by
  obtain ⟨cells, hcells, h⟩ := bind_eq_ok.1 h
  rw [← Except.ok.inj h]
  have hmap := (Sorting.sortByKey_perm hcells).map Prod.fst
  rwa [List.map_fst_zip hd.ge] at hmap

/-- The first fronts and some of the next one are a part of all fronts. -/
theorem append_subperm_flatten {fronts : List (List ℕ)} {k : ℕ} {taken : List ℕ}
    (h : taken.Subperm (fronts[k]?.getD [])) :
    ((fronts.take k).flatten ++ taken).Subperm fronts.flatten := by
  induction fronts generalizing k with
  | nil => simpa using h
  | cons front later ih =>
    cases k with
    | zero => exact h.trans (List.sublist_append_left front later.flatten).subperm
    | succ k =>
      simp only [List.take_succ_cons, List.flatten_cons, List.append_assoc]
      exact (List.Subperm.refl front).append (ih h)

/-- As many members are chosen as there is room for: the first fronts whole, and some members of
the next one. -/
theorem chooseMembers_eq_ok {room : ℕ} {fronts : List (List ℕ)} {chosen : List ℕ}
    (h : chooseMembers room fronts P = .ok chosen P') :
    rankedEntries P' = rankedEntries P ∧ chosen.length = min room fronts.flatten.length ∧
      ∃ k taken, chosen = (fronts.take k).flatten ++ taken ∧
        taken.Subperm (fronts[k]?.getD []) := by
  induction fronts generalizing room chosen P with
  | nil =>
    obtain ⟨rfl, rfl⟩ := pure_apply_eq_ok.1 h
    exact ⟨rfl, (Nat.min_zero _).symm, 0, [], rfl, List.nil_subperm⟩
  | cons front later ih =>
    obtain ⟨d, P₁, hd, h⟩ := bind_apply_eq_ok.1 h
    obtain ⟨hlength, hranked, -⟩ := assignCrowding_eq_ok hd
    by_cases hroom : room = 0
    · rw [if_pos hroom] at h
      obtain ⟨rfl, rfl⟩ := pure_apply_eq_ok.1 h
      exact ⟨hranked, by simp [hroom], 0, [], rfl, List.nil_subperm⟩
    rw [if_neg hroom] at h
    by_cases hfits : front.length ≤ room
    · rw [if_pos hfits] at h
      obtain ⟨rest, _, hrest, h⟩ := bind_apply_eq_ok.1 h
      obtain ⟨rfl, rfl⟩ := pure_apply_eq_ok.1 h
      obtain ⟨hranked', hcount, k, taken, hchosen, htaken⟩ := ih hrest
      refine ⟨hranked'.trans hranked, ?_, k + 1, taken, by simp [hchosen], htaken⟩
      simp only [List.flatten_cons, List.length_append, hcount]
      omega
    · rw [if_neg hfits] at h
      obtain ⟨sorted, _, hlift, h⟩ := bind_apply_eq_ok.1 h
      obtain ⟨hsorted, rfl⟩ := check_apply_eq_ok.1 hlift
      obtain ⟨rest, _, hrest, h⟩ := bind_apply_eq_ok.1 h
      obtain ⟨rfl, rfl⟩ := pure_apply_eq_ok.1 h
      obtain ⟨hranked', hcount, -⟩ := ih hrest
      have hperm := byCrowding_perm hlength hsorted
      -- Behind the front that did not fit there is no room left.
      obtain rfl : rest = [] := List.length_eq_zero_iff.1 (hcount.trans (Nat.zero_min _))
      refine ⟨hranked'.trans hranked, ?_, 0, sorted.take room, by simp, ?_⟩
      · simp only [List.flatten_cons, List.length_append, List.length_take, List.length_nil,
          hperm.length_eq]
        omega
      · exact (List.take_sublist _ _).subperm.trans hperm.subperm

/-- One member is kept for each index that is chosen. -/
theorem length_retain {chosen : List ℕ} (h : chosen.Subperm (List.range P.length)) :
    (retain P chosen).length = chosen.length := by
  have hnodup : chosen.Nodup := by
    obtain ⟨part, hpart, hsublist⟩ := h
    exact hpart.nodup_iff.1 (hsublist.nodup List.nodup_range)
  have hlt : ∀ i ∈ chosen, i < P.length := fun i hi => List.mem_range.1 (h.subset hi)
  have hperm : ((List.range P.length).filter (chosen.contains ·)).Perm chosen := by
    refine (List.perm_ext_iff_of_nodup (List.nodup_range.filter _) hnodup).2 ?_
    intro i
    simpa using hlt i
  calc (retain P chosen).length = (P.zipIdx.filter fun p => chosen.contains p.2).length :=
        List.length_map _
    _ = ((P.zipIdx.map Prod.snd).filter (chosen.contains ·)).length := by
        rw [List.filter_map, List.length_map]
        rfl
    _ = chosen.length := by rw [List.zipIdx_map_snd, ← List.range_eq_range', hperm.length_eq]

/-! ### Ranking -/

/-- An exact ranking has every index in its fronts once. -/
theorem flatten_fronts_perm {n : ℕ} {dominates : Fin n → Fin n → Prop} {r : Ranking}
    {rank : Fin n → ℕ} (h : r.IsExact dominates rank) : r.fronts.flatten.Perm (List.range n) := by
  refine (List.perm_ext_iff_of_nodup ?_ List.nodup_range).2 ?_
  · refine List.nodup_flatten.2 ⟨?_, ?_⟩
    · intro front hfront
      obtain ⟨k, hk⟩ := List.mem_iff_getElem?.1 hfront
      rw [h.front_eq k front hk]
      exact ((List.nodup_finRange n).filter _).map Fin.val_injective
    · refine List.pairwise_iff_getElem.2 ?_
      intro k l hk hl hkl i hi hi'
      obtain ⟨_, rfl⟩ := h.exists_rank_eq (List.getElem?_eq_getElem hk) hi
      obtain ⟨_, heq⟩ := h.exists_rank_eq (List.getElem?_eq_getElem hl) hi'
      exact hkl.ne heq
  · intro i
    rw [List.mem_flatten, List.mem_range]
    constructor
    · rintro ⟨front, hfront, hi⟩
      obtain ⟨k, hk⟩ := List.mem_iff_getElem?.1 hfront
      exact (h.exists_rank_eq hk hi).choose
    · intro hi
      obtain ⟨front, hfront, hmem⟩ := h.exists_mem_front ⟨i, hi⟩
      exact ⟨front, List.mem_of_getElem? hfront, hmem⟩

/-- The fronts of an exact ranking name items only, and each has no more than there are. -/
theorem fronts_within {n : ℕ} {dominates : Fin n → Fin n → Prop} {r : Ranking} {rank : Fin n → ℕ}
    (h : r.IsExact dominates rank) :
    ∀ front ∈ r.fronts, (∀ i ∈ front, i < n) ∧ front.length ≤ n := by
  have hperm := flatten_fronts_perm h
  intro front hfront
  have hsublist := List.sublist_flatten_of_mem hfront
  constructor
  · intro i hi
    exact List.mem_range.1 (hperm.mem_iff.1 (hsublist.subset hi))
  · have hle := hsublist.length_le
    rwa [hperm.length_eq, List.length_range] at hle

/-- Ranking succeeds where the solutions can be ranked, and stores the ranks. -/
theorem assignRanks_eq_ok {r : Ranking} :
    assignRanks P = .ok r P' ↔ Ranking.ofSolutions paretoComparison P = .ok r ∧
      P' = P.zipWith Solution.setRank r.ranks := by
  constructor
  · intro h
    obtain ⟨_, _, hget, h⟩ := bind_apply_eq_ok.1 h
    cases hget
    obtain ⟨r', _, hlift, h⟩ := bind_apply_eq_ok.1 h
    obtain ⟨hr, rfl⟩ := check_apply_eq_ok.1 hlift
    obtain ⟨_, _, hmodify, h⟩ := bind_apply_eq_ok.1 h
    cases hmodify
    obtain ⟨rfl, rfl⟩ := pure_apply_eq_ok.1 h
    exact ⟨hr, rfl⟩
  · rintro ⟨hr, rfl⟩
    simp only [assignRanks, bind_apply, get_apply, hr]
    rfl

end Population

end ParetoSearch
