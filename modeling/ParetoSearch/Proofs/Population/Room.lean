import ParetoSearch.Proofs.Crowding.Distances
import ParetoSearch.Proofs.Population.Survivors

/-!
# Room for all

Where there is room for every member, cutting a ranked population down succeeds and drops
nobody (`Ranked.exists_truncate_eq_ok`). Crowding distances of solutions that can be
compared can always be measured, since there is no value among theirs that does not
compare; and no front has to be sorted by its distances, which need not be numbers.
-/

namespace ParetoSearch

variable {D : Type}

namespace Population

variable {P P' : Population D} {size : ℕ}

theorem exists_fits_of_pairwise (h : P.Pairwise Solution.Comparable) (hmany : 2 ≤ P.length) :
    ∃ m c, ∀ s ∈ P, s.Fits m c := by
  obtain ⟨s, t, rest, rfl⟩ : ∃ s t rest, P = s :: t :: rest := by
    match P, hmany with
    | s :: t :: rest, _ => exact ⟨s, t, rest, rfl⟩
  refine ⟨s.objectives.length, s.constraints.length, ?_⟩
  have hfirst := (List.pairwise_cons.1 h).1
  refine List.forall_mem_cons.2 ⟨⟨rfl, rfl, (hfirst t List.mem_cons_self).2.1⟩, ?_⟩
  intro u hu
  obtain ⟨hshape, -, hfinite⟩ := hfirst u hu
  exact ⟨hshape.1.symm, hshape.2.symm, hfinite⟩

theorem exists_objectivesAt_eq_ok {front : List ℕ} (hlt : ∀ i ∈ front, i < P.length) :
    ∃ vectors, objectivesAt P front = .ok vectors ∧ vectors.length = front.length ∧
      ∀ v ∈ vectors, ∃ s ∈ P, s.objectives = v := by
  refine exists_mapM_eq_ok ?_
  intro i hi
  have hi := hlt i hi
  exact ⟨P[i].objectives, by rw [List.getElem?_eq_getElem hi], P[i], List.getElem_mem hi, rfl⟩

theorem exists_assignCrowding_eq_ok {front : List ℕ} (h : P.Pairwise Solution.Comparable)
    (hlt : ∀ i ∈ front, i < P.length) (hlength : front.length ≤ P.length) :
    ∃ d P', assignCrowding front P = .ok d P' := by
  obtain ⟨vectors, hvectors, hsame, hmem⟩ := exists_objectivesAt_eq_ok hlt
  obtain ⟨d, hd⟩ : ∃ d, Crowding.distances vectors = .ok d := by
    apply Crowding.exists_distances_eq_ok
    intro hmany
    obtain ⟨m, c, hfits⟩ := exists_fits_of_pairwise h (by omega)
    refine ⟨m, ?_⟩
    intro v hv
    obtain ⟨s, hs, rfl⟩ := hmem v hv
    exact ⟨(hfits s hs).1, (hfits s hs).2.2.1⟩
  rw [assignCrowding, bind_apply_of_ok (get_apply P),
    bind_apply_of_ok (check_apply_eq_ok.2 ⟨hvectors, rfl⟩),
    bind_apply_of_ok (check_apply_eq_ok.2 ⟨hd, rfl⟩)]
  exact ⟨d, _, rfl⟩

/-! ### Choosing all -/

theorem pairwise_comparable_of_entries_eq (h : entries P' = entries P)
    (hP : P.Pairwise Solution.Comparable) : P'.Pairwise Solution.Comparable := by
  have hentries : ∀ Q : Population D, (entries Q).Pairwise
      (fun e f => e.toSolution.Comparable f.toSolution) ↔ Q.Pairwise Solution.Comparable :=
    fun Q => List.pairwise_map
  exact (hentries P').1 (h ▸ (hentries P).2 hP)

/-- Where there is room for all fronts, choosing members succeeds. -/
theorem exists_chooseMembers_eq_ok {room : ℕ} {fronts : List (List ℕ)}
    (h : P.Pairwise Solution.Comparable) (hroom : fronts.flatten.length ≤ room)
    (hfronts : ∀ front ∈ fronts, (∀ i ∈ front, i < P.length) ∧ front.length ≤ P.length) :
    ∃ chosen P', chooseMembers room fronts P = .ok chosen P' := by
  induction fronts generalizing room P with
  | nil => exact ⟨[], P, rfl⟩
  | cons front later ih =>
    obtain ⟨⟨hlt, hlength⟩, hlater⟩ := List.forall_mem_cons.1 hfronts
    obtain ⟨d, P₁, hd⟩ := exists_assignCrowding_eq_ok h hlt hlength
    have hranked := (assignCrowding_eq_ok hd).2.1
    have hsame := length_eq_of_rankedEntries_eq hranked
    rw [List.flatten_cons, List.length_append] at hroom
    have hroom' : later.flatten.length ≤ room - front.length := by omega
    have hcomparable :=
      pairwise_comparable_of_entries_eq (entries_eq_of_rankedEntries_eq hranked) h
    obtain ⟨rest, P', hrest⟩ := ih hcomparable hroom' (by rwa [hsame])
    rw [chooseMembers, bind_apply_of_ok hd]
    by_cases hnone : room = 0
    · rw [if_pos hnone]
      exact ⟨[], P₁, rfl⟩
    · rw [if_neg hnone, if_pos (by omega), bind_apply_of_ok hrest]
      exact ⟨front ++ rest, P', rfl⟩

theorem retain_eq_self {chosen : List ℕ} (h : ∀ i < P.length, i ∈ chosen) :
    retain P chosen = P := by
  have hall : (P.zipIdx.filter fun p => chosen.contains p.2) = P.zipIdx := by
    rw [List.filter_eq_self]
    intro p hp
    simpa using h p.2 (by simpa using List.snd_lt_of_mem_zipIdx hp)
  rw [retain, hall, List.zipIdx_map_fst]

/-- **Where there is room for all, nobody is dropped**: a ranked population keeps its members in
their order, and their ranks. -/
theorem Ranked.exists_truncate_eq_ok {r : Ranking} {rank : Fin P.length → ℕ} (h : P.Ranked r rank)
    (hsize : P.length ≤ size) :
    ∃ P', truncate size P = .ok () P' ∧ rankedEntries P' = rankedEntries P := by
  have hperm := flatten_fronts_perm h.isExact
  have hcomparable := Ranking.pairwise_of_ofSolutions_eq_ok (assignRanks_eq_ok.1 h.assignRanks_eq).1
  obtain ⟨chosen, P₁, hchoose⟩ : ∃ chosen P₁, chooseMembers size r.fronts P = .ok chosen P₁ := by
    refine exists_chooseMembers_eq_ok hcomparable ?_ (fronts_within h.isExact)
    rwa [hperm.length_eq, List.length_range]
  obtain ⟨hranked, hcount, k, taken, hchosen, htaken⟩ := chooseMembers_eq_ok hchoose
  have hsub : chosen.Subperm r.fronts.flatten := hchosen ▸ append_subperm_flatten htaken
  have hall : chosen.Perm (List.range P.length) := by
    refine (hsub.perm_of_length_le ?_).trans hperm
    rw [hcount, hperm.length_eq, List.length_range, min_eq_right hsize]
  have hsame := length_eq_of_rankedEntries_eq hranked
  refine ⟨P₁, ?_, hranked⟩
  have hretain : retain P₁ chosen = P₁ := by
    apply retain_eq_self
    intro i hi
    exact hall.mem_iff.2 (List.mem_range.2 (hi.trans_eq hsame))
  rw [truncate, bind_apply_of_ok h.assignRanks_eq,
    bind_apply_of_ok (faulty_apply_eq_ok.2 hchoose), modify_apply, hretain]

end Population

end ParetoSearch
