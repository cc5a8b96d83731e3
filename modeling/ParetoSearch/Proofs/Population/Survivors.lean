import ParetoSearch.Proofs.Population.Truncation

/-!
# The survivors keep their ranks

Cutting a population down stores on each member the rank that it has among all of them,
and then lets some members go. The survivors keep their order and their ranks, and with a
survivor all members of smaller ranks survive (`exists_of_truncate_eq_ok`). A member of
rank `k + 1` has a dominator of rank `k`, so it still has one among the survivors, and the
stored ranks are the ranks among the survivors alone (`Survive.hasDepth`). Ranking them
afresh therefore changes nothing (`exists_ranked_of_truncate_eq_ok`). Members that can be
compared can be ranked, so cutting them down does not end in an error, and a population that
cannot be ranked is left alone (`truncate_eq_error`).
-/

namespace ParetoSearch

variable {D : Type}

/-- What looks at entries only says the same of solutions with the same entries. -/
theorem congr_of_entries {α : Type} {f : Solution D → Solution D → α}
    (hf : ∀ s t, f s t = f (Entry.ofSolution s).toSolution (Entry.ofSolution t).toSolution)
    {s s' t t' : Solution D} (hs : Entry.ofSolution s = Entry.ofSolution s')
    (ht : Entry.ofSolution t = Entry.ofSolution t') : f s t = f s' t' := by
  rw [hf, hs, ht, ← hf]

theorem Solution.setRank_eq_self {s : Solution D} {k : ℕ} (h : s.rank = some k) :
    s.setRank k = s := by
  obtain ⟨decision, objectives, constraints, rank, crowding⟩ := s
  obtain rfl : rank = some k := h
  rfl

namespace Population

variable {P P' : Population D} {size : ℕ}

/-- Of two members the first is the better one. -/
def Dominates (P : Population D) (i j : Fin P.length) : Prop :=
  paretoComparison (P.get i) (P.get j) = .ok .left

/-! ### Single operations -/

theorem retain_eq_map (P : Population D) (chosen : List ℕ) :
    retain P chosen =
      ((List.finRange P.length).filter fun i => chosen.contains i.val).map P.get := by
  have hzip : P.zipIdx = (List.finRange P.length).map fun i => (P.get i, i.val) := by
    apply List.ext_getElem <;> simp
  rw [retain, hzip, List.filter_map, List.map_map]
  rfl

/-- What stays is a part of the population, in its order. -/
theorem exists_part_retain {n : ℕ} (hn : P.length = n) (chosen : List ℕ) :
    ∃ part : Fin (retain P chosen).length → Fin n, StrictMono part ∧
      (∀ a : Fin (retain P chosen).length, (retain P chosen)[a.val]? = P[(part a).val]?) ∧
      ∀ i, i ∈ Set.range part ↔ i.val ∈ chosen := by
  subst hn
  have hretain := retain_eq_map P chosen
  have hsorted := (List.pairwise_lt_finRange P.length).filter fun i => chosen.contains i.val
  have hmem : ∀ i, (i ∈ (List.finRange P.length).filter fun i => chosen.contains i.val) ↔
      i.val ∈ chosen := by simp
  generalize retain P chosen = Q at hretain ⊢
  generalize ((List.finRange P.length).filter fun i => chosen.contains i.val) = kept at *
  subst hretain
  have hlength : (kept.map P.get).length = kept.length := List.length_map _
  refine ⟨fun a => kept.get (a.cast hlength), ?_, ?_, ?_⟩
  · intro a b hab
    exact List.pairwise_iff_get.1 hsorted _ _ hab
  · intro a
    rw [List.getElem?_map, List.getElem?_eq_getElem (a.isLt.trans_eq hlength),
      List.getElem?_eq_getElem (Fin.isLt _)]
    rfl
  · intro i
    rw [← hmem, List.mem_iff_get]
    constructor
    · rintro ⟨a, ha⟩
      exact ⟨_, ha⟩
    · rintro ⟨a, ha⟩
      exact ⟨a.cast hlength.symm, ha⟩

section Fronts

variable {n : ℕ} {dominates : Fin n → Fin n → Prop} {r : Ranking} {rank : Fin n → ℕ} {k : ℕ}
  {taken : List ℕ} {i j : Fin n}

/-- The first `k` fronts hold the items of the ranks before `k`. -/
theorem mem_flatten_take_iff (h : r.IsExact dominates rank) :
    i.val ∈ (r.fronts.take k).flatten ↔ rank i < k := by
  constructor
  · intro hi
    obtain ⟨front, hfront, hi⟩ := List.mem_flatten.1 hi
    obtain ⟨l, hl, hlfront⟩ := List.mem_take_iff_getElem.1 hfront
    obtain ⟨_, heq : rank i = l⟩ :=
      h.exists_rank_eq (List.getElem?_eq_some_iff.2 ⟨by omega, hlfront⟩) hi
    omega
  · intro hlt
    obtain ⟨front, hfront, hi⟩ := h.exists_mem_front i
    obtain ⟨hl, hlfront⟩ := List.getElem?_eq_some_iff.1 hfront
    exact List.mem_flatten.2 ⟨front, List.mem_take_iff_getElem.2 ⟨rank i, by omega, hlfront⟩, hi⟩

/-- Front number `k`, if there is one, holds the items of rank `k`. -/
theorem mem_front_iff (h : r.IsExact dominates rank) :
    i.val ∈ r.fronts[k]?.getD [] ↔ rank i = k := by
  constructor
  · intro hi
    cases hfront : r.fronts[k]? with
    | none => simp [hfront] at hi
    | some front =>
      rw [hfront] at hi
      exact (h.exists_rank_eq hfront hi).choose_spec
  · rintro rfl
    obtain ⟨front, hfront, hi⟩ := h.exists_mem_front i
    rwa [hfront]

theorem rank_le_of_mem (h : r.IsExact dominates rank)
    (htaken : taken.Subperm (r.fronts[k]?.getD []))
    (hi : i.val ∈ (r.fronts.take k).flatten ++ taken) : rank i ≤ k := by
  rcases List.mem_append.1 hi with hi | hi
  · exact ((mem_flatten_take_iff h).1 hi).le
  · exact ((mem_front_iff h).1 (htaken.subset hi)).le

theorem mem_of_rank_lt (h : r.IsExact dominates rank)
    (htaken : taken.Subperm (r.fronts[k]?.getD []))
    (hi : i.val ∈ (r.fronts.take k).flatten ++ taken) (hlt : rank j < rank i) :
    j.val ∈ (r.fronts.take k).flatten ++ taken :=
  List.mem_append_left _ ((mem_flatten_take_iff h).2 (hlt.trans_le (rank_le_of_mem h htaken hi)))

end Fronts

/-! ### Survivors -/

/-- The members of `P'` survive from `P`, whose members have the given ranks. -/
structure Survive (P P' : Population D) (rank : Fin P.length → ℕ)
    (part : Fin P'.length → Fin P.length) : Prop where
  /-- They keep their order. -/
  strictMono : StrictMono part
  /-- They keep what they are, with their ranks stored. -/
  ranked_eq : ∀ a, (P'.get a).ranked = (Entry.ofSolution (P.get (part a)), some (rank (part a)))
  /-- With one of them all members of smaller ranks survive. -/
  lower : ∀ a i, rank i < rank (part a) → i ∈ Set.range part

theorem exists_of_truncate_eq_ok (h : truncate size P = .ok () P') :
    P.Pairwise Solution.Comparable ∧ P'.length = min size P.length ∧ ∃ r rank part,
      Ranking.ofSolutions paretoComparison P = .ok r ∧ r.IsExact P.Dominates rank ∧
        P.Survive P' rank part := by
  obtain ⟨r, P₁, hassign, h⟩ := bind_apply_eq_ok.1 h
  obtain ⟨chosen, P₂, hchoose, h⟩ := bind_apply_eq_ok.1 h
  obtain rfl : retain P₂ chosen = P' := (EStateM.Result.ok.inj h).2
  obtain ⟨hr, rfl⟩ := assignRanks_eq_ok.1 hassign
  have hcomparable := Ranking.pairwise_of_ofSolutions_eq_ok hr
  obtain ⟨rank, hexact⟩ := Ranking.exists_isExact_of_ofSolutions_eq_ok hr
  obtain ⟨hranked, hcount, k, taken, hchosen, htaken⟩ :=
    chooseMembers_eq_ok (faulty_apply_eq_ok.1 hchoose)
  rw [hexact.ranks_eq, rankedEntries_zipWith_setRank] at hranked
  have hlength : P₂.length = P.length := by simpa using congrArg List.length hranked
  obtain ⟨part, hmono, hget, hrange⟩ := exists_part_retain hlength chosen
  refine ⟨hcomparable, ?_, r, rank, part, hr, hexact, hmono, ?_, ?_⟩
  · have hperm := flatten_fronts_perm hexact
    have hsub : chosen.Subperm r.fronts.flatten := hchosen ▸ append_subperm_flatten htaken
    have hsub := hsub.trans hperm.subperm
    rw [← hlength] at hsub
    rw [length_retain hsub, hcount, hperm.length_eq, List.length_range]
  · intro a
    have hrankedAt : P₂[(part a).val]?.map Solution.ranked =
        some (Entry.ofSolution (P.get (part a)), some (rank (part a))) := by
      rw [← List.getElem?_map, ← rankedEntries, hranked]
      simp
    rw [← hget, List.getElem?_eq_getElem a.isLt] at hrankedAt
    exact Option.some.inj hrankedAt
  · intro a i hlt
    rw [hrange, hchosen]
    exact mem_of_rank_lt hexact htaken (hchosen ▸ (hrange _).1 ⟨a, rfl⟩) hlt

theorem exists_mem_of_truncate_eq_ok (h : truncate size P = .ok () P') :
    ∀ s ∈ P', ∃ t ∈ P, Entry.ofSolution s = Entry.ofSolution t := by
  obtain ⟨-, -, r, rank, part, -, -, hsurvive⟩ := exists_of_truncate_eq_ok h
  intro s hs
  obtain ⟨a, rfl⟩ := List.get_of_mem hs
  exact ⟨P.get (part a), List.get_mem _ _, congrArg Prod.fst (hsurvive.ranked_eq a)⟩

/-- A population that cannot be ranked is left alone. -/
theorem assignRanks_eq_error_iff {f : Failure} : assignRanks P = .error f P' ↔
    Ranking.ofSolutions paretoComparison P = .error f ∧ P' = P := by
  simp only [assignRanks, bind_apply, get_apply]
  cases Ranking.ofSolutions paretoComparison P with
  | error f' =>
    show EStateM.Result.error f' P = .error f P' ↔ _
    rw [EStateM.Result.error.injEq, Except.error.injEq, eq_comm (a := P)]
  | ok r => constructor <;> rintro ⟨⟨⟩⟩

/-- Cutting a population down ends in an error only where it is ranked. -/
theorem truncate_eq_error_iff {e : Error} : truncate size P = .error (.error e) P' ↔
    assignRanks P = .error (.error e) P' := by
  rw [truncate, bind_apply_eq_error, or_iff_left]
  -- Behind the ranks there are faults only.
  rintro ⟨r, P₁, -, h⟩
  rcases bind_apply_eq_error.1 h with hchoose | ⟨chosen, P₂, -, hdone⟩
  · rw [faulty_apply] at hchoose
    cases hcut : chooseMembers size r.fronts P₁ with
    | ok chosen P₂ => simp [hcut] at hchoose
    | error f P₂ => simp [hcut] at hchoose
  · cases hdone

/-- **Cutting a population down ends in an error only if it cannot be ranked**, and then it is left
alone. -/
theorem truncate_eq_error {e : Error} (h : truncate size P = .error (.error e) P') :
    P' = P ∧ ¬P.Pairwise Solution.Comparable := by
  obtain ⟨hr, rfl⟩ := assignRanks_eq_error_iff.1 (truncate_eq_error_iff.1 h)
  refine ⟨rfl, fun hcomparable => ?_⟩
  obtain ⟨r, rank, hr', -⟩ := Ranking.exists_ofSolutions_eq_ok_of_pairwise hcomparable
  cases hr.symm.trans hr'

/-! ### Ranks among the survivors -/

namespace Survive

variable {rank : Fin P.length → ℕ} {part : Fin P'.length → Fin P.length}

theorem entry_eq (h : P.Survive P' rank part) (a : Fin P'.length) :
    Entry.ofSolution (P'.get a) = Entry.ofSolution (P.get (part a)) :=
  congrArg Prod.fst (h.ranked_eq a)

theorem rank_eq (h : P.Survive P' rank part) (a : Fin P'.length) :
    (P'.get a).rank = some (rank (part a)) := congrArg Prod.snd (h.ranked_eq a)

theorem pairwise_comparable (h : P.Survive P' rank part) (hP : P.Pairwise Solution.Comparable) :
    P'.Pairwise Solution.Comparable := by
  refine List.pairwise_iff_get.2 ?_
  intro a b hab
  have hcomparable := List.pairwise_iff_get.1 hP (part a) (part b) (h.strictMono hab)
  exact (congr_of_entries (f := Solution.Comparable) (fun _ _ => rfl) (h.entry_eq a)
    (h.entry_eq b)).mpr hcomparable

/-- **Survivors have the ranks that they had**: a member that is not of the first rank has a
dominator one rank above, which survives with it. -/
theorem hasDepth (h : P.Survive P' rank part)
    (hrank : ∀ i, Ranking.HasDepth P.Dominates (rank i) i) (a : Fin P'.length) :
    Ranking.HasDepth P'.Dominates (rank (part a)) a := by
  have hpart : ∀ a b, P'.Dominates a b ↔ P.Dominates (part a) (part b) := by
    intro a b
    have hcompare := congr_of_entries (f := paretoComparison) (fun _ _ => rfl) (h.entry_eq a)
      (h.entry_eq b)
    rw [Dominates, hcompare, ← Dominates]
  refine Ranking.HasDepth.of_part hpart ?_ (hrank (part a))
  intro a k hdepth
  obtain ⟨j, hdominates, hj⟩ := hdepth.exists_dominator
  have hlt : rank j < rank (part a) := by
    rw [(hrank j).unique hj, (hrank (part a)).unique hdepth]
    exact Nat.lt_succ_self k
  obtain ⟨b, rfl⟩ := h.lower a j hlt
  exact ⟨b, hdominates, hj⟩

end Survive

/-- The members carry the ranks that they have among each other. -/
structure Ranked (P : Population D) (r : Ranking) (rank : Fin P.length → ℕ) : Prop where
  /-- Ranking them afresh changes nothing. -/
  assignRanks_eq : assignRanks P = .ok r P
  /-- The ranks that are found are those that are stored. -/
  ranks_eq : r.ranks.map some = P.map Solution.rank
  /-- They are the lengths of the longest chains of dominators. -/
  isExact : r.IsExact P.Dominates rank

theorem zipWith_setRank_eq_self {ranks : List ℕ} (h : ranks.map some = P.map Solution.rank) :
    P.zipWith Solution.setRank ranks = P := by
  induction P generalizing ranks with
  | nil => rfl
  | cons s P ih =>
    cases ranks with
    | nil => cases h
    | cons r ranks =>
      obtain ⟨hr, hranks⟩ := List.cons.inj h
      exact congrArg₂ List.cons (Solution.setRank_eq_self hr.symm) (ih hranks)

theorem Ranked.rank_eq {r : Ranking} {rank : Fin P.length → ℕ} (h : P.Ranked r rank)
    (i : Fin P.length) : (P.get i).rank = some (rank i) := by
  have hrank := congrArg (·[i.val]?) h.ranks_eq
  rw [h.isExact.ranks_eq] at hrank
  simpa using hrank.symm

/-- **A population that was cut down is ranked.** -/
theorem exists_ranked_of_truncate_eq_ok (h : truncate size P = .ok () P') :
    ∃ r rank, P'.Ranked r rank := by
  obtain ⟨hcomparable, -, _, rank, part, -, hexact, hsurvive⟩ := exists_of_truncate_eq_ok h
  obtain ⟨r', rank', hr', hexact'⟩ := Ranking.exists_ofSolutions_eq_ok_of_pairwise
    (hsurvive.pairwise_comparable hcomparable)
  have hrank : ∀ a, rank' a = rank (part a) := fun a =>
    (hexact'.hasDepth a).unique (hsurvive.hasDepth hexact.hasDepth a)
  have hranks : r'.ranks.map some = P'.map Solution.rank := by
    rw [hexact'.ranks_eq]
    apply List.ext_getElem
    · simp
    · intro a ha ha'
      simpa [hrank] using (hsurvive.rank_eq ⟨a, by simpa using ha⟩).symm
  refine ⟨r', rank', ?_, hranks, hexact'⟩
  exact assignRanks_eq_ok.2 ⟨hr', (zipWith_setRank_eq_self hranks).symm⟩

end Population

end ParetoSearch
