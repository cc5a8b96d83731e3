import ParetoSearch.Proofs.Archive.History

/-!
# How many members there can be

Members all have one violation, so it is their boxes that make none of them better than
another: the keys are an antichain of integer vectors. Vectors that differ in one
coordinate only can be compared, hence a member is known by all coordinates of its key but
the last (`Sound.eq_of_leading_eq`). If each coordinate has `K` values to take, there are
no more than `K ^ (m - 1)` ways to choose `m - 1` of them (`Sound.length_le_of_range`). Every
member has passed the checks, so it is enough that what passed has its boxes in these
ranges (`History.length_le_pow`).
-/

namespace ParetoSearch

variable {D : Type} {m K : ℕ}

/-! ### Vectors that differ in one coordinate -/

theorem Dominance.profile_lt_profile {α : Type} [LinearOrder α] {a b : List α} {j : ℕ}
    (h : ∀ i, i ≠ j → profile a i = profile b i) (hlt : profile a j < profile b j) :
    profile a < profile b := by
  refine Pi.lt_def.2 ⟨fun i => ?_, j, hlt⟩
  rcases eq_or_ne i j with rfl | hne
  · exact hlt.le
  · exact (h i hne).le

/-- The first coordinates of a box, `n` of them. -/
def BoxKey.leading (n : ℕ) (key : BoxKey) : Fin n → ℤ := fun i => key.coordinates.getD i 0

theorem BoxKey.getElem?_coordinates {key : BoxKey} {n : ℕ} (h : n ≤ key.coordinates.length)
    (i : Fin n) : key.coordinates[i.val]? = some (key.leading n i) := by
  have hi : i.val < key.coordinates.length := i.isLt.trans_le h
  simp [leading, hi]

namespace Archive

variable {A : Archive D} {passed : List (Solution D)} {p q : BoxKey × Solution D}

/-! ### Members are known by all coordinates but one -/

/-- Where the keys of two members agree but for one coordinate, they agree in this one as well,
because the member with the smaller one would be better. -/
theorem Sound.profile_le (hA : A.Sound) (hp : p ∈ A.members) (hq : q ∈ A.members) {j : ℕ}
    (h : ∀ i, i ≠ j → p.1.coordinates[i]? = q.1.coordinates[i]?) :
    Dominance.profile q.1.coordinates j ≤ Dominance.profile p.1.coordinates j := by
  by_contra hnot
  have hboxes := Dominance.profile_lt_profile h (lt_of_not_ge hnot)
  rw [hA.key_eq p hp, hA.key_eq q hq] at hboxes
  exact hA.not_lt p hp q hq (Prod.Lex.toLex_lt_toLex.2 (.inr ⟨hA.violation_eq hp hq, hboxes⟩))

theorem Sound.eq_of_coordinates_eq (hA : A.Sound) (hp : p ∈ A.members) (hq : q ∈ A.members) {j : ℕ}
    (h : ∀ i, i ≠ j → p.1.coordinates[i]? = q.1.coordinates[i]?) : p = q := by
  have hj : Dominance.profile p.1.coordinates j = Dominance.profile q.1.coordinates j :=
    le_antisymm (hA.profile_le hq hp fun i hi => (h i hi).symm) (hA.profile_le hp hq h)
  refine hA.ascending.eq_of_key_eq hp hq (congrArg BoxKey.mk (List.ext_getElem? fun i => ?_))
  rcases eq_or_ne i j with rfl | hne
  · exact hj
  · exact h i hne

/-- A member is known by the coordinates of its key before the last. -/
theorem Sound.eq_of_leading_eq (hA : A.Sound) (hp : p ∈ A.members) (hq : q ∈ A.members)
    (hlength : ∀ p ∈ A.members, p.1.coordinates.length = m)
    (h : p.1.leading (m - 1) = q.1.leading (m - 1)) : p = q := by
  refine hA.eq_of_coordinates_eq hp hq (j := m - 1) fun i hne => ?_
  rcases lt_or_ge i (m - 1) with hi | hi
  · have hp' := BoxKey.getElem?_coordinates ((m.sub_le 1).trans_eq (hlength p hp).symm) ⟨i, hi⟩
    have hq' := BoxKey.getElem?_coordinates ((m.sub_le 1).trans_eq (hlength q hq).symm) ⟨i, hi⟩
    rw [hp', hq', h]
  · have hm : m ≤ i := by omega
    rw [List.getElem?_eq_none ((hlength p hp).trans_le hm),
      List.getElem?_eq_none ((hlength q hq).trans_le hm)]

/-! ### Counting -/

/-- If keys of `m` coordinates have `K` values for each but the last, there is room for no more than
`K ^ (m - 1)` members. -/
theorem Sound.length_le_of_range (hA : A.Sound)
    (hlength : ∀ p ∈ A.members, p.1.coordinates.length = m)
    (hrange : ∀ i < m - 1, ∃ low : ℤ, ∀ p ∈ A.members, ∀ k ∈ p.1.coordinates[i]?,
      low ≤ k ∧ k < low + K) : A.members.length ≤ K ^ (m - 1) := by
  have hleading : ∀ p ∈ A.members, ∀ i : Fin (m - 1),
      p.1.coordinates[i.val]? = some (p.1.leading (m - 1) i) := fun p hp =>
    BoxKey.getElem?_coordinates ((m.sub_le 1).trans_eq (hlength p hp).symm)
  choose low hlow using hrange
  have hnodup : (A.members.map fun p => p.1.leading (m - 1)).Nodup := by
    have hmembers : A.members.Nodup := hA.ascending.imp fun hbefore =>
      ne_of_apply_ne Prod.fst hbefore.ne
    exact hmembers.map_on fun p hp q hq => hA.eq_of_leading_eq hp hq hlength
  have hsubset : (A.members.map fun p => p.1.leading (m - 1)).toFinset ⊆
      Fintype.piFinset fun i : Fin (m - 1) => Finset.Ico (low i i.isLt) (low i i.isLt + K) := by
    intro v hv
    obtain ⟨p, hp, rfl⟩ := List.mem_map.1 (List.mem_toFinset.1 hv)
    refine Fintype.mem_piFinset.2 fun i => Finset.mem_Ico.2 ?_
    exact hlow i i.isLt p hp _ (hleading p hp i)
  calc A.members.length
      = (A.members.map fun p => p.1.leading (m - 1)).toFinset.card := by
        rw [List.toFinset_card_of_nodup hnodup, List.length_map]
    _ ≤ (Fintype.piFinset fun i : Fin (m - 1) =>
          Finset.Ico (low i i.isLt) (low i i.isLt + K)).card := Finset.card_le_card hsubset
    _ = K ^ (m - 1) := by simp

/-- **Archives are bounded**: if every solution that passed the checks has `m` objectives, and each
coordinate of their boxes lies among `K` consecutive integers, there are at most `K ^ (m - 1)`
members. With one objective there is at most one member, wherever the boxes are. -/
theorem History.length_le_pow (h : History A passed) (hm : ∀ s ∈ passed, s.objectives.length = m) :
    ((∀ i < m, ∃ low : ℤ, ∀ s ∈ passed, ∀ k ∈ (A.boxKey s.objectives).coordinates[i]?,
      low ≤ k ∧ k < low + K) → A.members.length ≤ K ^ (m - 1)) ∧
    (m = 1 → A.members.length ≤ 1) := by
  have h := h.accounts
  have hpassed : ∀ p ∈ A.members, p.2 ∈ passed := fun p hp => h.summarizes.mem_offered hp
  have hlength : ∀ p ∈ A.members, p.1.coordinates.length = m := by
    intro p hp
    rw [h.sound.key_eq p hp, boxKey, Epsilons.length_boxKey]
    exact hm p.2 (hpassed p hp)
  constructor
  · intro hrange
    refine h.sound.length_le_of_range hlength fun i hi => ?_
    obtain ⟨low, hlow⟩ := hrange i (hi.trans_le (m.sub_le 1))
    refine ⟨low, fun p hp k hk => hlow p.2 (hpassed p hp) k ?_⟩
    rwa [← h.sound.key_eq p hp]
  · rintro rfl
    -- There is no coordinate but the last, so one value is enough for the others.
    have hle := h.sound.length_le_of_range (K := 1) hlength fun i hi =>
      absurd hi (Nat.not_lt_zero i)
    exact hle.trans_eq (one_pow _)

/-- Three solutions with a constraint and two coordinates for each objective: two of them stay. -/
theorem History.length_le_pow_of_three : ∃ (A : Archive Unit) (passed : List (Solution Unit)),
    History A passed ∧ passed.length = 3 ∧ A.members.length = 2 ∧
    A.members.length ≤ 2 ^ (2 - 1) := by
  have h : History ((Operation.addAll [Solution.ofEvaluation () ⟨[-0.5, 0.5], [0.25]⟩,
      Solution.ofEvaluation () ⟨[0.5, 0.5], [0.25]⟩,
      Solution.ofEvaluation () ⟨[0.5, -0.5], [-0.25]⟩]).run
        (Archive.ofEpsilons ⟨[1.0], by decide, by decide⟩)) _ := .run (.ofEpsilons _) _
  have hbound := (History.length_le_pow (m := 2) (K := 2) h (by decide +kernel)).1
    fun i hi => ⟨-1, by revert i; decide +kernel⟩
  exact ⟨_, _, h, by decide +kernel, by decide +kernel, hbound⟩

end Archive

end ParetoSearch
