import ParetoSearch.Proofs.Crowding.Distances
import ParetoSearch.Proofs.Population.Survivors

/-!
# Who survives

Cutting a population down keeps its fronts whole as long as there is room, and of the
front that is cut the members with the greatest crowding distances
(`exists_chooseMembers`): that front is sorted by its distances, and sorting is stable, so
at equal distances the member that came first goes first (`exists_byCrowding`). Measuring
a front changes the crowding distances of its members and nothing else, so each front
has the distances that it has in the whole population.

`truncate_keeps_best` says who survives, in which order and with which attributes. It
takes distances that are numbers for granted; they are where the differences between the
values of each objective are finite (`Appraised.isNaN_crowding`).
-/

namespace ParetoSearch.Population

open Binary64

variable {D : Type} {P : Population D} {crowd : ℕ → Float} {front : List ℕ}

/-! ### A front in order -/

/-- The member goes first: it has the greater distance, or the same one and the smaller index. -/
def Ahead (crowd : ℕ → Float) (i j : ℕ) : Prop :=
  crowd j < crowd i ∨ (crowd j == crowd i) = true ∧ i < j

theorem zip_map_self (crowd : ℕ → Float) (front : List ℕ) :
    front.zip (front.map crowd) = front.map fun i => (i, crowd i) := by
  simpa using List.zip_map' (f := id) (g := crowd) (l := front)

/-- A front is sorted by its distances from the greatest down, earlier members first. -/
theorem exists_byCrowding (hascending : front.Pairwise (· < ·))
    (hnumber : ∀ i ∈ front, (crowd i).isNaN = false) :
    ∃ sorted, byCrowding front (front.map crowd) = .ok sorted ∧ sorted.Perm front ∧
      sorted.Pairwise (Ahead crowd) := by
  have hcells : ∀ p ∈ front.zip (front.map crowd), p.2.isNaN = false ∧ p.2 = crowd p.1 := by
    rw [zip_map_self]
    intro p hp
    obtain ⟨i, hi, rfl⟩ := List.mem_map.1 hp
    exact ⟨hnumber i hi, rfl⟩
  have hold : (front.zip (front.map crowd)).Pairwise fun p q => p.1 < q.1 := by
    rw [zip_map_self, List.pairwise_map]
    exact hascending
  have hsort : byCrowding front (front.map crowd) = .ok _ :=
    bind_eq_ok.2 ⟨_, Sorting.sortByKey_eq_ok fun p hp => (hcells p hp).1, rfl⟩
  refine ⟨_, hsort, byCrowding_perm (List.length_map _) hsort, ?_⟩
  rw [List.pairwise_map]
  refine (Sorting.pairwise_stableSort_key (fun p => OrderDual.toDual (place p.2)) ?_
    hold).imp_of_mem fun {p q} hp hq hpq => ?_
  · intro p hp q hq
    exact decide_eq_decide.2 (lt_iff_place_lt (hcells q hq).1 (hcells p hp).1)
  · obtain ⟨hpn, hp⟩ := hcells p (Sorting.mem_stableSort.1 hp)
    obtain ⟨hqn, hq⟩ := hcells q (Sorting.mem_stableSort.1 hq)
    rw [Ahead, ← hp, ← hq, lt_iff_place_lt hqn hpn, beq_iff_place_eq hqn hpn]
    exact hpq.imp id fun heq => ⟨(OrderDual.toDual_inj.1 heq.1).symm, heq.2⟩

/-! ### Measured fronts -/

/-- The members with the crowding distances of those with the given indices stored. -/
def measured (P : Population D) (indices : List ℕ) (crowd : ℕ → Float) : Population D :=
  P.mapIdx fun i s => if i ∈ indices then s.setCrowding (crowd i) else s

section Measured

variable (P : Population D) (crowd : ℕ → Float) {indices : List ℕ} {i : ℕ}

theorem getElem?_measured_of_mem (h : i ∈ indices) :
    (P.measured indices crowd)[i]? = P[i]?.map (·.setCrowding (crowd i)) := by
  simp [measured, h]

theorem getElem?_measured_of_notMem (h : i ∉ indices) :
    (P.measured indices crowd)[i]? = P[i]? := by
  simp [measured, h]

@[simp] theorem length_measured (indices : List ℕ) :
    (P.measured indices crowd).length = P.length := List.length_mapIdx

/-- Measuring some fronts and then others measures all of them. -/
theorem measured_measured (front later : List ℕ) :
    (P.measured front crowd).measured later crowd = P.measured (front ++ later) crowd := by
  apply List.ext_getElem?
  intro i
  by_cases hlater : i ∈ later
  · rw [getElem?_measured_of_mem _ _ hlater,
      getElem?_measured_of_mem _ _ (List.mem_append_right _ hlater)]
    by_cases hfront : i ∈ front
    · rw [getElem?_measured_of_mem _ _ hfront, Option.map_map]
      rfl
    · rw [getElem?_measured_of_notMem _ _ hfront]
  · rw [getElem?_measured_of_notMem _ _ hlater]
    by_cases hfront : i ∈ front
    · rw [getElem?_measured_of_mem _ _ hfront,
        getElem?_measured_of_mem _ _ (List.mem_append_left _ hfront)]
    · rw [getElem?_measured_of_notMem _ _ hfront,
        getElem?_measured_of_notMem _ _ (by simp [hfront, hlater])]

theorem objectivesAt_measured (indices front : List ℕ) :
    objectivesAt (P.measured indices crowd) front = objectivesAt P front := by
  refine congrArg (front.mapM ·) (funext fun i => ?_)
  by_cases hi : i ∈ indices
  · rw [getElem?_measured_of_mem _ _ hi]
    cases P[i]? <;> rfl
  · rw [getElem?_measured_of_notMem _ _ hi]

end Measured

/-- The members of the front have these crowding distances among themselves. -/
structure Measures (P : Population D) (crowd : ℕ → Float) (front : List ℕ) : Prop where
  ascending : front.Pairwise (· < ·)
  distances_eq : (objectivesAt P front >>= Crowding.distances) = .ok (front.map crowd)

/-- It does not matter which distances are stored. -/
theorem Measures.measured (h : P.Measures crowd front) (indices : List ℕ) :
    (P.measured indices crowd).Measures crowd front :=
  ⟨h.ascending, by rw [objectivesAt_measured, h.distances_eq]⟩

theorem Measures.assignCrowding_eq (h : P.Measures crowd front) :
    assignCrowding front P = .ok (front.map crowd) (P.measured front crowd) := by
  obtain ⟨vectors, hvectors, hdistances⟩ := bind_eq_ok.1 h.distances_eq
  have hchanged : (front.zip (front.map crowd)).foldl
      (fun ms p => ms.modify p.1 (·.setCrowding p.2)) P = P.measured front crowd := by
    rw [zip_map_self]
    have hkeys : (front.map fun i => (i, crowd i)).map Prod.fst = front := by
      simp [Function.comp_def]
    apply List.ext_getElem?
    intro i
    by_cases hi : i ∈ front
    · have hnodup : ((front.map fun i => (i, crowd i)).map Prod.fst).Nodup :=
        hkeys.symm ▸ h.ascending.imp ne_of_lt
      rw [getElem?_measured_of_mem _ _ hi]
      exact getElem?_foldl_modify_of_mem (f := fun p s => Solution.setCrowding s p.2)
        (p := (i, crowd i)) hnodup (List.mem_map_of_mem hi)
    · rw [getElem?_measured_of_notMem _ _ hi]
      exact getElem?_foldl_modify_of_notMem (hkeys.symm ▸ hi)
  rw [assignCrowding, bind_apply_of_ok (get_apply P),
    bind_apply_of_ok (check_apply_eq_ok.2 ⟨hvectors, rfl⟩),
    bind_apply_of_ok (check_apply_eq_ok.2 ⟨hdistances, rfl⟩), ← hchanged]
  rfl

/-! ### Choosing -/

/-- **The first fronts are chosen whole, and the first members of the next one**, in the order of
the crowding distances; whoever is chosen has been measured. -/
theorem exists_chooseMembers {room : ℕ} {fronts : List (List ℕ)}
    (h : ∀ front ∈ fronts, P.Measures crowd front)
    (hnumber : ∀ front ∈ fronts, ∀ i ∈ front, (crowd i).isNaN = false) :
    ∃ k taken left indices,
      chooseMembers room fronts P =
        .ok ((fronts.take k).flatten ++ taken) (P.measured indices crowd) ∧
      (fronts.take k).flatten ++ taken ⊆ indices ∧
      (taken ++ left).Perm (fronts[k]?.getD []) ∧ ∀ i ∈ taken, ∀ j ∈ left, Ahead crowd i j := by
  induction fronts generalizing room P with
  | nil =>
    refine ⟨0, [], [], [], ?_, List.nil_subset _, .nil, by simp⟩
    have hsame : P.measured [] crowd = P := by
      simp [Population.measured, List.mapIdx_eq_zipIdx_map]
    rw [hsame]
    rfl
  | cons front later ih =>
    obtain ⟨hfront, hlater⟩ := List.forall_mem_cons.1 h
    obtain ⟨hnumber, hnumbers⟩ := List.forall_mem_cons.1 hnumber
    have ih := fun room => @ih (P.measured front crowd) room
      (fun f hf => (hlater f hf).measured front) hnumbers
    rw [chooseMembers, bind_apply_of_ok hfront.assignCrowding_eq]
    by_cases hroom : room = 0
    · rw [if_pos hroom]
      exact ⟨0, [], front, front, rfl, List.nil_subset _, .rfl, by simp⟩
    rw [if_neg hroom]
    by_cases hfits : front.length ≤ room
    · obtain ⟨k, taken, left, indices, hrest, hsub, hperm, hahead⟩ := ih (room - front.length)
      rw [if_pos hfits, bind_apply_of_ok hrest, measured_measured]
      refine ⟨k + 1, taken, left, front ++ indices, ?_, ?_, hperm, hahead⟩
      · rw [List.take_succ_cons, List.flatten_cons, List.append_assoc]
        rfl
      · rw [List.take_succ_cons, List.flatten_cons, List.append_assoc]
        exact List.append_subset.2 ⟨List.subset_append_left _ _,
          List.subset_append_of_subset_right _ hsub⟩
    · obtain ⟨sorted, hsorted, hperm, hahead⟩ := exists_byCrowding hfront.ascending hnumber
      obtain ⟨k, taken, left, indices, hrest, -, -, -⟩ := ih 0
      -- Behind the front that did not fit there is no room left.
      have hnone : (later.take k).flatten ++ taken = [] := by
        have hcount := (chooseMembers_eq_ok hrest).2.1
        rwa [Nat.zero_min, List.length_eq_zero_iff] at hcount
      rw [if_neg hfits, bind_apply_of_ok (check_apply_eq_ok.2 ⟨hsorted, rfl⟩),
        bind_apply_of_ok hrest, hnone, measured_measured]
      refine ⟨0, sorted.take room, sorted.drop room, front ++ indices, ?_, ?_, ?_, ?_⟩
      · rw [List.append_nil]
        rfl
      · intro i hi
        exact List.mem_append_left _ (hperm.subset (List.take_subset _ _ hi))
      · rw [List.take_append_drop]
        exact hperm
      · intro i hi j hj
        rw [← List.take_append_drop room sorted] at hahead
        exact (List.pairwise_append.1 hahead).2.2 i hi j hj

/-! ### Ranks and distances of all members -/

section Appraisal

variable {r : Ranking} {rank : Fin P.length → ℕ} {crowding : Fin P.length → Float} {m c : ℕ}

/-- The members of a rank, in order. -/
def ofRank {n : ℕ} (rank : Fin n → ℕ) (k : ℕ) : List (Fin n) :=
  (List.finRange n).filter fun i => rank i = k

/-- The ranks of all members, and the crowding distances that the members of each rank have among
themselves. -/
structure Appraised (P : Population D) (r : Ranking) (rank : Fin P.length → ℕ)
    (crowding : Fin P.length → Float) : Prop where
  ranked : Ranking.ofSolutions paretoComparison P = .ok r
  isExact : r.IsExact P.Dominates rank
  distances_eq : ∀ k, Crowding.distances ((ofRank rank k).map fun i => (P.get i).objectives) =
    .ok ((ofRank rank k).map crowding)

theorem map_getD_idxOf {α β : Type} [DecidableEq α] {xs : List α} {ys : List β} (hnodup : xs.Nodup)
    (hlength : ys.length = xs.length) (b : β) : xs.map (fun x => ys.getD (xs.idxOf x) b) = ys := by
  apply List.ext_getElem
  · rw [List.length_map, hlength]
  · intro i hi hi'
    rw [List.getElem_map, hnodup.idxOf_getElem, List.getD_eq_getElem]

theorem exists_appraised (hfits : ∀ s ∈ P, s.Fits m c) :
    ∃ r rank crowding, P.Appraised r rank crowding := by
  have hcomparable : P.Pairwise Solution.Comparable :=
    List.pairwise_of_forall_mem_list fun s hs t ht => (hfits s hs).comparable (hfits t ht)
  obtain ⟨r, rank, hr, hexact⟩ := Ranking.exists_ofSolutions_eq_ok_of_pairwise hcomparable
  have hdistances : ∀ k, ∃ d,
      Crowding.distances ((ofRank rank k).map fun i => (P.get i).objectives) = .ok d := by
    intro k
    refine Crowding.exists_distances_eq_ok fun _ => ⟨m, fun v hv => ?_⟩
    obtain ⟨i, -, rfl⟩ := List.mem_map.1 hv
    have hmember := hfits (P.get i) (List.get_mem P i)
    exact ⟨hmember.1, hmember.2.2.1⟩
  choose d hd using hdistances
  refine ⟨r, rank, fun i => (d (rank i)).getD ((ofRank rank (rank i)).idxOf i) 0.0, hr, hexact, ?_⟩
  intro k
  have hlength := Crowding.length_distances (hd k)
  rw [List.length_map] at hlength
  rw [hd k, ← map_getD_idxOf ((List.nodup_finRange _).filter _) hlength 0.0]
  refine congrArg _ (List.map_congr_left fun i hi => ?_)
  have hrank : rank i = k := by simpa using (List.mem_filter.1 hi).2
  rw [hrank]
  rfl

/-- Where the differences between the values of each objective are finite, the distances are
numbers. -/
theorem Appraised.isNaN_crowding (h : P.Appraised r rank crowding) (hfits : ∀ s ∈ P, s.Fits m c)
    (hnear : ∀ s ∈ P, ∀ t ∈ P,
      (List.zipWith (· - ·) s.objectives t.objectives).all Float.isFinite = true)
    (i : Fin P.length) : (crowding i).isNaN = false := by
  have hvectors : ∀ v ∈ (ofRank rank (rank i)).map fun j => (P.get j).objectives,
      ∃ s ∈ P, s.objectives = v := by
    intro v hv
    obtain ⟨j, -, rfl⟩ := List.mem_map.1 hv
    exact ⟨P.get j, List.get_mem P j, rfl⟩
  have hfinite : ∀ v ∈ (ofRank rank (rank i)).map fun j => (P.get j).objectives,
      v.length = m ∧ v.all Float.isFinite = true := by
    intro v hv
    obtain ⟨s, hs, rfl⟩ := hvectors v hv
    exact ⟨(hfits s hs).1, (hfits s hs).2.2.1⟩
  obtain ⟨d, hd, hmeasured⟩ := Crowding.exists_distances hfinite
  obtain rfl := Except.ok.inj (hd.symm.trans (h.distances_eq (rank i)))
  have hi : crowding i ∈ (ofRank rank (rank i)).map crowding :=
    List.mem_map_of_mem (List.mem_filter.2 ⟨List.mem_finRange i, by simp⟩)
  obtain ⟨l, hl⟩ := List.mem_iff_getElem?.1 hi
  refine isNaN_of_zero_le (hmeasured.zero_le l _ hl (Crowding.not_lost_of_differences hfinite ?_))
  intro v hv w hw
  obtain ⟨s, hs, rfl⟩ := hvectors v hv
  obtain ⟨t, ht, rfl⟩ := hvectors w hw
  exact hnear s hs t ht

/-- The distance of a member by its index. -/
def byIndex (crowding : Fin P.length → Float) (i : ℕ) : Float :=
  if h : i < P.length then crowding ⟨i, h⟩ else 0.0

theorem byIndex_val (crowding : Fin P.length → Float) (i : Fin P.length) :
    byIndex crowding i.val = crowding i := dif_pos i.isLt

theorem Appraised.measures (h : P.Appraised r rank crowding) (hfront : front ∈ r.fronts) :
    Measures (P.zipWith Solution.setRank r.ranks) (byIndex crowding) front := by
  obtain ⟨k, hk⟩ := List.mem_iff_getElem?.1 hfront
  obtain rfl : front = (ofRank rank k).map Fin.val := h.isExact.front_eq k front hk
  constructor
  · exact List.pairwise_map.2 ((List.pairwise_lt_finRange _).filter _)
  · have hvectors : objectivesAt (P.zipWith Solution.setRank r.ranks)
        ((ofRank rank k).map Fin.val) =
          .ok ((ofRank rank k).map fun i => (P.get i).objectives) := by
      rw [h.isExact.ranks_eq, objectivesAt, List.mapM_map]
      refine mapM_eq_ok_map fun i _ => ?_
      simp [List.getElem?_zipWith]
    rw [hvectors, ok_bind, h.distances_eq, List.map_map]
    exact congrArg _ (List.map_congr_left fun i _ => (byIndex_val crowding i).symm)

/-! ### The survivors -/

/-- `P'` are the best of the members of `P`, of which `part` tells the places: all of a rank before
`cut`, none of a later one, and of rank `cut` those with the greatest distances. -/
structure CutDown (P P' : Population D) (rank : Fin P.length → ℕ) (crowding : Fin P.length → Float)
    (part : Fin P'.length → Fin P.length) (cut : ℕ) : Prop where
  /-- They keep their order. -/
  strictMono : StrictMono part
  /-- They are what they were, with their ranks and distances stored. -/
  get_eq : ∀ a, P'.get a =
    ((P.get (part a)).setRank (rank (part a))).setCrowding (crowding (part a))
  earlier : ∀ i, rank i < cut → i ∈ Set.range part
  later : ∀ i, cut < rank i → i ∉ Set.range part
  /-- Of the rank that is cut the greater distance survives, and of equal ones the first. -/
  widest : ∀ i j, rank i = cut → rank j = cut → i ∈ Set.range part → j ∉ Set.range part →
    crowding j < crowding i ∨ (crowding j == crowding i) = true ∧ i < j
  /-- Nobody who is dropped is better than a survivor. -/
  undominated : ∀ j, j ∉ Set.range part → ∀ a, ¬P.Dominates j (part a)

/-- The survivors, in their order and with their attributes, are the members of some fronts and
those of the next one that have been taken. -/
theorem Appraised.exists_truncate (h : P.Appraised r rank crowding)
    (hnumber : ∀ i, (crowding i).isNaN = false) (size : ℕ) :
    ∃ (P' : Population D) (part : Fin P'.length → Fin P.length) (k : ℕ) (taken left : List ℕ),
      truncate size P = .ok () P' ∧ StrictMono part ∧
      (∀ a, P'.get a =
        ((P.get (part a)).setRank (rank (part a))).setCrowding (crowding (part a))) ∧
      (∀ i, i ∈ Set.range part ↔ i.val ∈ (r.fronts.take k).flatten ++ taken) ∧
      (taken ++ left).Perm (r.fronts[k]?.getD []) ∧
      ∀ i ∈ taken, ∀ j ∈ left, Ahead (byIndex crowding) i j := by
  have hnumbers : ∀ front ∈ r.fronts, ∀ i ∈ front, (byIndex crowding i).isNaN = false := by
    intro front hfront i hi
    obtain ⟨k, hk⟩ := List.mem_iff_getElem?.1 hfront
    obtain ⟨hlt, -⟩ := h.isExact.exists_rank_eq hk hi
    rw [byIndex, dif_pos hlt]
    exact hnumber _
  obtain ⟨k, taken, left, indices, hchoose, hsub, hperm, hahead⟩ :=
    exists_chooseMembers (fun _ hfront => h.measures hfront) hnumbers
  generalize hP₂ : measured (P.zipWith Solution.setRank r.ranks) indices (byIndex crowding) = P₂
    at hchoose
  have hlength : P₂.length = P.length := by
    rw [← hP₂, length_measured, h.isExact.ranks_eq]
    simp
  have hstored : ∀ i : Fin P.length, i.val ∈ indices →
      P₂[i.val]? = some (((P.get i).setRank (rank i)).setCrowding (crowding i)) := by
    intro i hi
    rw [← hP₂, getElem?_measured_of_mem _ _ hi, h.isExact.ranks_eq, byIndex_val]
    simp
  obtain ⟨part, hmono, hget, hrange⟩ :=
    exists_part_retain hlength ((r.fronts.take k).flatten ++ taken)
  refine ⟨_, part, k, taken, left, ?_, hmono, fun a => ?_, hrange, hperm, hahead⟩
  · rw [truncate, bind_apply_of_ok (assignRanks_eq_ok.2 ⟨h.ranked, rfl⟩),
      bind_apply_of_ok (faulty_apply_eq_ok.2 hchoose), modify_apply]
  · have hmem : (part a).val ∈ indices := hsub ((hrange _).1 ⟨a, rfl⟩)
    have hmember := hget a
    rw [hstored _ hmem, List.getElem?_eq_getElem a.isLt] at hmember
    exact Option.some_inj.1 hmember

/-- A population whose distances are numbers is cut down to its best members. -/
theorem Appraised.exists_cutDown (h : P.Appraised r rank crowding)
    (hnumber : ∀ i, (crowding i).isNaN = false) (size : ℕ) :
    ∃ P' part cut, truncate size P = .ok () P' ∧ P'.length = min size P.length ∧
      P.CutDown P' rank crowding part cut := by
  obtain ⟨P', part, k, taken, left, htruncate, hmono, hget, hrange, hperm, hahead⟩ :=
    h.exists_truncate hnumber size
  have htaken : taken.Subperm (r.fronts[k]?.getD []) :=
    (List.sublist_append_left taken left).subperm.trans hperm.subperm
  refine ⟨P', part, k, htruncate, (exists_of_truncate_eq_ok htruncate).2.1, hmono, hget,
    ?earlier, ?later, ?widest, ?undominated⟩
  case earlier =>
    intro i hi
    exact (hrange i).2 (List.mem_append_left _ ((mem_flatten_take_iff h.isExact).2 hi))
  case later =>
    intro i hi hsurvives
    exact hi.not_ge (rank_le_of_mem h.isExact htaken ((hrange i).1 hsurvives))
  case widest =>
    intro i j hi hj hsurvives hdropped
    rw [hrange, List.mem_append] at hsurvives hdropped
    rw [not_or] at hdropped
    have hi : i.val ∈ taken := hsurvives.resolve_left fun hin =>
      ((mem_flatten_take_iff h.isExact).1 hin).ne hi
    have hj : j.val ∈ left := by
      have hmem := hperm.mem_iff.2 ((mem_front_iff h.isExact).2 hj)
      exact (List.mem_append.1 hmem).resolve_left hdropped.2
    have hahead := hahead i hi j hj
    rwa [Ahead, byIndex_val, byIndex_val] at hahead
  case undominated =>
    intro j hdropped a hdominates
    rw [hrange] at hdropped
    have hlt := (h.isExact.hasDepth (part a)).lt_of_dominates (h.isExact.hasDepth j) hdominates
    exact hdropped (mem_of_rank_lt h.isExact htaken ((hrange _).1 ⟨a, rfl⟩) hlt)

/-- **Cutting a population down keeps its best members**: solutions that fit together have ranks and
crowding distances, and if the distances are numbers, then for every size so many members survive
in their order, each with its rank and distance stored: all of the ranks before the one that is cut,
none of the later ones, and of the rank that is cut those with the greatest distances, of equal ones
the first. Nobody who is dropped is better than a survivor. -/
theorem truncate_keeps_best (hfits : ∀ s ∈ P, s.Fits m c) :
    ∃ r rank crowding, P.Appraised r rank crowding ∧
      ((∀ i, (crowding i).isNaN = false) → ∀ size, ∃ P' part cut,
        truncate size P = .ok () P' ∧ P'.length = min size P.length ∧
          P.CutDown P' rank crowding part cut) := by
  obtain ⟨r, rank, crowding, h⟩ := exists_appraised hfits
  exact ⟨r, rank, crowding, h, h.exists_cutDown⟩

end Appraisal

/-- Four members of which none is better than another, two of them equally crowded, and one that is
worse than some of them. -/
def fiveMembers : Population ℕ :=
  [{ decision := 0, objectives := [0.0, 4.0] }, { decision := 1, objectives := [4.0, 4.0] },
    { decision := 2, objectives := [1.0, 2.0] }, { decision := 3, objectives := [2.0, 1.0] },
    { decision := 4, objectives := [4.0, 0.0] }]

/-- Of the two that are equally crowded the first survives. -/
theorem truncate_keeps_best_of_tie : ∃ (P' : Population ℕ) (r : Ranking)
    (rank : Fin fiveMembers.length → ℕ) (crowding : Fin fiveMembers.length → Float)
    (part : Fin P'.length → Fin fiveMembers.length) (cut : ℕ),
    fiveMembers.Appraised r rank crowding ∧ truncate 3 fiveMembers = .ok () P' ∧ P'.length = 3 ∧
      fiveMembers.CutDown P' rank crowding part cut ∧ P'.map (·.decision) = [0, 2, 4] := by
  have hfits : ∀ s ∈ fiveMembers, s.objectives.length = 2 ∧ s.constraints.length = 0 ∧
      s.objectives.all Float.isFinite = true ∧ s.constraints.all Float.isFinite = true := by
    decide +kernel
  have hnear : ∀ s ∈ fiveMembers, ∀ t ∈ fiveMembers,
      (List.zipWith (· - ·) s.objectives t.objectives).all Float.isFinite = true := by
    decide +kernel
  have hends : (match truncate 3 fiveMembers with
    | .ok _ P' => P'.map (·.decision) == [0, 2, 4]
    | .error _ _ => false) = true := by decide +kernel
  obtain ⟨r, rank, crowding, happraised, hcut⟩ := truncate_keeps_best (m := 2) (c := 0) hfits
  obtain ⟨P', part, cut, htruncate, hlength, hbest⟩ :=
    hcut (happraised.isNaN_crowding (m := 2) (c := 0) hfits hnear) 3
  rw [htruncate] at hends
  exact ⟨P', r, rank, crowding, part, cut, happraised, htruncate, hlength, hbest,
    by simpa using hends⟩

end ParetoSearch.Population
