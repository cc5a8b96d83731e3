import ParetoSearch.Proofs.Archive.PlainRule

/-!
# What an archive keeps of a list

An archive forgets the solutions that it refuses and those that are driven out. Nothing
is lost by this: after a list of solutions was offered, the archive holds exactly the
chosen ones, which are the first of each standing to which there is no better one in
the list (`Archive.exists_addAll_eq_ok`). The archive does not lose track because behind
every solution of the list there is a chosen one of the same or a better standing
(`Epsilons.exists_chosen_le`): what outdoes a newcomer is outdone by a member that does
so too.
-/

namespace ParetoSearch

variable {D : Type} {ε : Epsilons} {offered : List (Solution D)} {s t : Solution D} {i : ℕ}

/-! ### Chosen solutions -/

/-- No solution of the list has a better standing than the one with the given index, and none
before it has the same. -/
structure Epsilons.Chosen (ε : Epsilons) (offered : List (Solution D)) (i : ℕ) (s : Solution D) :
    Prop where
  getElem?_eq : offered[i]? = some s
  not_lt : ∀ t ∈ offered, ¬ε.standing t < ε.standing s
  not_le : ∀ (j : ℕ) (t : Solution D), j < i → offered[j]? = some t →
    ¬ε.standing t ≤ ε.standing s

namespace Epsilons

theorem Chosen.mem (h : ε.Chosen offered i s) : s ∈ offered := List.mem_of_getElem? h.getElem?_eq

/-- Behind every solution there is a chosen one of the same or a better standing. -/
theorem exists_chosen_le (hs : s ∈ offered) :
    ∃ i t, ε.Chosen offered i t ∧ ε.standing t ≤ ε.standing s := by
  -- The chosen solutions are the minimal ones by standing and then by index.
  let place : Fin offered.length → _ ×ₗ ℕ := fun i => toLex (ε.standing offered[i], i.val)
  obtain ⟨j, hj, rfl⟩ := List.mem_iff_getElem.1 hs
  obtain ⟨_, hle, ⟨i, rfl⟩, hmin⟩ := (Set.finite_range place).exists_le_minimal ⟨⟨j, hj⟩, rfl⟩
  have hnot : ∀ l, ¬place l < place i := fun l hl => (hmin ⟨l, rfl⟩ hl.le).not_gt hl
  simp only [place, Prod.Lex.toLex_lt_toLex, not_or, not_and] at hnot
  refine ⟨i, offered[i], ⟨by simp, fun t ht => ?_, fun l t hli hlt hle => ?_⟩, ?_⟩
  · obtain ⟨l, hl, rfl⟩ := List.mem_iff_getElem.1 ht
    exact (hnot ⟨l, hl⟩).1
  · obtain ⟨hl, rfl⟩ := List.getElem?_eq_some_iff.1 hlt
    rcases hle.lt_or_eq with hlt | heq
    · exact (hnot ⟨l, hl⟩).1 hlt
    · exact (hnot ⟨l, hl⟩).2 heq hli
  · rcases Prod.Lex.toLex_le_toLex.1 hle with h | h
    · exact h.le
    · exact h.1.le

theorem getElem?_concat_eq_some_iff {j : ℕ} :
    (offered ++ [s])[j]? = some t ↔ offered[j]? = some t ∨ j = offered.length ∧ t = s := by
  rw [List.getElem?_append, List.getElem?_singleton]
  split_ifs with hlt hlast
  · simp [hlt.ne]
  · simp [show j = offered.length by omega, eq_comm]
  · simp [show j ≠ offered.length by omega, Nat.le_of_not_lt hlt]

/-- One more solution takes the choice from those of a worse standing, and is chosen itself if no
solution has its standing or a better one. -/
theorem chosen_concat_iff : ε.Chosen (offered ++ [s]) i t ↔
    (ε.Chosen offered i t ∧ ¬ε.standing s < ε.standing t) ∨
      i = offered.length ∧ t = s ∧ ∀ q ∈ offered, ¬ε.standing q ≤ ε.standing s := by
  have hold : ∀ {q}, q ∈ offered → q ∈ offered ++ [s] := List.mem_append_left _
  have hlast : s ∈ offered ++ [s] := List.mem_append_right _ (List.mem_singleton_self s)
  constructor
  · intro h
    have hbefore : ∀ (j : ℕ) q, j < i → offered[j]? = some q → _ := fun j q hlt hj =>
      h.not_le j q hlt (getElem?_concat_eq_some_iff.2 (.inl hj))
    rcases getElem?_concat_eq_some_iff.1 h.getElem?_eq with hi | ⟨rfl, rfl⟩
    · exact .inl ⟨⟨hi, fun q hq => h.not_lt q (hold hq), hbefore⟩, h.not_lt s hlast⟩
    · refine .inr ⟨rfl, rfl, fun q hq => ?_⟩
      obtain ⟨j, hj, rfl⟩ := List.mem_iff_getElem.1 hq
      exact hbefore j _ hj (List.getElem?_eq_getElem hj)
  · rintro (⟨h, hnot⟩ | ⟨rfl, rfl, h⟩)
    · have hi := (List.getElem?_eq_some_iff.1 h.getElem?_eq).1
      refine ⟨getElem?_concat_eq_some_iff.2 (.inl h.getElem?_eq), fun q hq => ?_,
        fun j q hlt hj => ?_⟩
      · rcases List.mem_append.1 hq with hq | hq
        · exact h.not_lt q hq
        · exact List.mem_singleton.1 hq ▸ hnot
      · rcases getElem?_concat_eq_some_iff.1 hj with hj | ⟨rfl, -⟩
        · exact h.not_le j q hlt hj
        · exact absurd hi hlt.not_gt
    · refine ⟨getElem?_concat_eq_some_iff.2 (.inr ⟨rfl, rfl⟩), fun q hq => ?_,
        fun j q hlt hj => ?_⟩
      · rcases List.mem_append.1 hq with hq | hq
        · exact fun hlt => h q hq hlt.le
        · exact List.mem_singleton.1 hq ▸ lt_irrefl _
      · rcases getElem?_concat_eq_some_iff.1 hj with hj | ⟨rfl, -⟩
        · exact h q (List.mem_of_getElem? hj)
        · exact absurd hlt (lt_irrefl _)

end Epsilons

namespace Archive

variable {A B : Archive D} {m c : ℕ}

/-! ### One more solution -/

/-- The members are the chosen solutions of the list, in their boxes. -/
def Summarizes (A : Archive D) (offered : List (Solution D)) : Prop :=
  ∀ p, p ∈ A.members ↔ p.1 = A.boxKey p.2.objectives ∧ ∃ i, A.epsilons.Chosen offered i p.2

theorem Summarizes.mem_offered (h : A.Summarizes offered) {p : BoxKey × Solution D}
    (hp : p ∈ A.members) : p.2 ∈ offered :=
  ((h p).1 hp).2.choose_spec.mem

theorem Summarizes.exists_member_le (h : A.Summarizes offered) (hs : s ∈ offered) :
    ∃ p ∈ A.members, A.epsilons.standing p.2 ≤ A.epsilons.standing s := by
  obtain ⟨i, t, ht, hle⟩ := A.epsilons.exists_chosen_le hs
  exact ⟨(A.boxKey t.objectives, t), (h _).2 ⟨rfl, i, ht⟩, hle⟩

/-- A solution that is refused is not chosen, and takes the choice from none. -/
theorem Summarizes.of_refuses (h : A.Summarizes offered) (hA : A.Sound)
    (hs : A.ensureFits s = .ok ()) (hrefused : A.Refuses s) : A.Summarizes (offered ++ [s]) := by
  obtain ⟨p, hp, hle⟩ := (hA.refuses_iff hs).1 hrefused
  refine fun q => (h q).trans (and_congr_right fun _ => exists_congr fun i => ?_)
  rw [Epsilons.chosen_concat_iff]
  constructor
  · exact fun hq => .inl ⟨hq, fun hlt => hq.not_lt _ (h.mem_offered hp) (hle.trans_lt hlt)⟩
  · rintro (⟨hq, -⟩ | ⟨-, -, hnew⟩)
    · exact hq
    · exact absurd hle (hnew _ (h.mem_offered hp))

/-- A solution that is taken is chosen, and takes the choice from those that leave. -/
theorem Summarizes.of_takes (h : A.Summarizes offered) (hA : A.Sound)
    (hs : A.ensureFits s = .ok ()) (htaken : ¬A.Refuses s) (hB : A.Takes s B) :
    B.Summarizes (offered ++ [s]) := by
  have hnew : ∀ q ∈ offered, ¬A.epsilons.standing q ≤ A.epsilons.standing s := by
    intro q hq hle
    obtain ⟨p, hp, hpq⟩ := h.exists_member_le hq
    exact htaken ((hA.refuses_iff hs).2 ⟨p, hp, hpq.trans hle⟩)
  rintro ⟨k, t⟩
  rw [hB.mem_iff_standing hA hs htaken, h, boxKey_eq_of_epsilons_eq hB.epsilons_eq, hB.epsilons_eq]
  simp only [Epsilons.chosen_concat_iff]
  constructor
  · rintro (heq | ⟨⟨hkey, i, ht⟩, hstays⟩)
    · obtain ⟨rfl, rfl⟩ := Prod.mk.inj heq
      exact ⟨rfl, offered.length, .inr ⟨rfl, rfl, hnew⟩⟩
    · exact ⟨hkey, i, .inl ⟨ht, hstays⟩⟩
  · rintro ⟨hkey, i, ⟨ht, hstays⟩ | ⟨-, rfl, -⟩⟩
    · exact .inr ⟨⟨hkey, i, ht⟩, hstays⟩
    · exact .inl (Prod.ext hkey rfl)

/-! ### A list of solutions -/

/-- The archive takes solutions with these numbers of objectives and constraints. -/
def Expects (A : Archive D) (m c : ℕ) : Prop :=
  0 < m ∧ (A.objectives = none ∨ A.objectives = some m) ∧
    (A.constraints = none ∨ A.constraints = some c)

theorem Expects.ensureFits_eq_ok (hA : A.Expects m c) (hs : s.Fits m c) :
    A.ensureFits s = .ok () := by
  obtain ⟨hm, hobjectives, hconstraints⟩ := hA
  obtain ⟨rfl, rfl, hfinite⟩ := hs
  have hne : s.objectives ≠ [] := List.ne_nil_of_length_pos hm
  rw [ensureFits, if_neg fun h => hne h.2]
  simp only [check_bind_eq_ok, ensureLength_eq_ok, ensureFinite_eq_ok]
  refine ⟨?_, ?_, hfinite⟩
  · rcases hobjectives with h | h <;> simp [h]
  · rcases hconstraints with h | h <;> simp [h]

theorem Expects.of_takes (hA : A.Expects m c) (hs : s.Fits m c) (hB : A.Takes s B) :
    B.Expects m c :=
  ⟨hA.1, .inr (hs.1 ▸ hB.objectives_eq), .inr (hs.2.1 ▸ hB.constraints_eq)⟩

/-- One more solution is added, whether it is taken or not, and the summary goes on. -/
theorem Summarizes.exists_add_eq_ok (h : A.Summarizes offered) (hA : A.Sound)
    (hm : A.Expects m c) (hs : s.Fits m c) :
    ∃ taken B, add s A = .ok taken B ∧ B.epsilons = A.epsilons ∧ B.Sound ∧ B.Expects m c ∧
      B.Summarizes (offered ++ [s]) := by
  have hs' := hm.ensureFits_eq_ok hs
  by_cases hrefused : A.Refuses s
  · exact ⟨false, A, hA.add_of_refuses hs' hrefused, rfl, hA, hm, h.of_refuses hA hs' hrefused⟩
  · obtain ⟨B, hadd, hB⟩ := hA.add_of_not_refuses hs' hrefused
    exact ⟨true, B, hadd, hB.epsilons_eq, hA.of_takes hs' hrefused hB, hm.of_takes hs hB,
      h.of_takes hA hs' hrefused hB⟩

/-- **The archive keeps the chosen solutions**: whatever was offered before, a list of solutions
that fit is added, and the members are the chosen solutions of all that was offered. -/
theorem Summarizes.exists_addAll_eq_ok {solutions : List (Solution D)}
    (h : A.Summarizes offered) (hA : A.Sound) (hm : A.Expects m c)
    (hs : ∀ s ∈ solutions, s.Fits m c) :
    ∃ taken B, addAll solutions A = .ok taken B ∧ B.epsilons = A.epsilons ∧ B.Sound ∧
      B.Summarizes (offered ++ solutions) := by
  induction solutions generalizing A offered with
  | nil => exact ⟨0, A, rfl, rfl, hA, by simpa using h⟩
  | cons s rest ih =>
    obtain ⟨taken, B, hadd, hε, hB, hBm, hsum⟩ := h.exists_add_eq_ok hA hm (hs s (by simp))
    obtain ⟨others, C, hall, hCε, hC, hsum⟩ := ih hsum hB hBm fun t ht => hs t (by simp [ht])
    have hadds := addAll_cons_eq_ok_iff.2 ⟨taken, others, B, hadd, hall, rfl⟩
    exact ⟨_, C, hadds, hCε.trans hε, hC, by simpa using hsum⟩

theorem summarizes_nil (h : A.members = []) : A.Summarizes [] := by
  intro p
  simp only [h, List.not_mem_nil, false_iff, not_and, not_exists]
  exact fun _ i hi => absurd hi.mem List.not_mem_nil

/-- The keys are those of the boxes of all solutions to which there is no better grade. -/
theorem Summarizes.mem_keys_iff (h : A.Summarizes offered) (key : BoxKey) :
    key ∈ A.members.map (·.1) ↔ ∃ s ∈ offered,
      (∀ t ∈ offered, ¬A.epsilons.grade t < A.epsilons.grade s) ∧
        A.boxKey s.objectives = key := by
  rw [List.mem_map]
  constructor
  · rintro ⟨p, hp, rfl⟩
    obtain ⟨hkey, i, hi⟩ := (h p).1 hp
    refine ⟨p.2, hi.mem, fun t ht hlt => ?_, hkey.symm⟩
    exact hi.not_lt t ht (Epsilons.standing_lt_iff.2 (.inl hlt))
  · rintro ⟨s, hs, hbest, rfl⟩
    obtain ⟨p, hp, hle⟩ := h.exists_member_le hs
    refine ⟨p, hp, ?_⟩
    rcases (Epsilons.grade_le_of_standing_le hle).lt_or_eq with hlt | heq
    · exact absurd hlt (hbest _ (h.mem_offered hp))
    · exact ((h p).1 hp).1.trans (Epsilons.grade_eq_iff.1 heq).2

end Archive

end ParetoSearch
