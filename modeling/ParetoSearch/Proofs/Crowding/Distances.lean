import ParetoSearch.Proofs.Crowding.Columns

/-!
# Crowding distances as numbers

The crowding distances of finite vectors of one length are meant to be sizes: a column
gives infinity to the vectors at its ends and shares of its range to the others. But the
range of finite values need not be finite, and if the gap between the neighbours of a
vector is not finite either, then its share is a quotient of two infinities. The entry
becomes no number and stays none until a later column has the vector at an end.

`exists_distances_sizes` says that this is the only way to lose an entry: the distances
that are no numbers are those lost in this way (`Lost`), and all others are at least zero.
Where the differences in each column are finite, nothing is lost.
-/

namespace ParetoSearch.Crowding

open Binary64

variable {vectors : List (List Float)} {m k i : ℕ} {d : List Float} {cells : List Cell}

/-! ### Column after column -/

/-- What holds of the distances before the first column, and is kept by every column, holds of the
distances behind the last one. -/
theorem exists_of_columns {motive : ℕ → List Float → Prop}
    (h : ∀ v ∈ vectors, v.length = m ∧ v.all Float.isFinite = true)
    (hstart : motive 0 (List.replicate vectors.length 0.0))
    (hcolumn : ∀ k < m, ∀ cells d, sortedColumn vectors k = .ok cells →
      Sorted vectors.length cells → motive k d → motive (k + 1) (addColumn cells d))
    (hk : k ≤ m) :
    ∃ d, (List.range k).foldlM
      (fun d column => return addColumn (← sortedColumn vectors column) d)
      (List.replicate vectors.length 0.0) = .ok d ∧ motive k d := by
  induction k with
  | zero => exact ⟨_, rfl, hstart⟩
  | succ k ih =>
    obtain ⟨d, hd, hmotive⟩ := ih (Nat.le_of_succ_le hk)
    obtain ⟨cells, hcells, hsorted, -⟩ := exists_sorted k fun v hv =>
      ⟨Nat.lt_of_lt_of_eq hk (h v hv).1.symm, (h v hv).2⟩
    refine ⟨addColumn cells d, ?_, hcolumn k hk cells d hcells hsorted hmotive⟩
    rw [List.range_succ, List.foldlM_append, hd]
    simp only [ok_bind, List.foldlM_cons, List.foldlM_nil, hcells]
    rfl

theorem exists_distances_of_columns {motive : ℕ → List Float → Prop}
    (hmany : 2 < vectors.length)
    (h : ∀ v ∈ vectors, v.length = m ∧ v.all Float.isFinite = true)
    (hstart : motive 0 (List.replicate vectors.length 0.0))
    (hcolumn : ∀ k < m, ∀ cells d, sortedColumn vectors k = .ok cells →
      Sorted vectors.length cells → motive k d → motive (k + 1) (addColumn cells d)) :
    ∃ d, distances vectors = .ok d ∧ motive m d := by
  rw [distances, if_neg (Nat.not_le_of_lt hmany)]
  obtain ⟨first, rest, rfl⟩ := List.exists_cons_of_length_pos (Nat.zero_lt_of_lt hmany)
  have hcolumns : ((first :: rest).head?.map List.length).getD 0 = m :=
    (h first List.mem_cons_self).1
  rw [hcolumns]
  exact exists_of_columns h hstart hcolumn le_rfl

/-! ### What is lost -/

/-- One of the first `k` columns has the vector between two neighbours too far apart, and none
behind it has the vector at an end. -/
def Lost (vectors : List (List Float)) (k i : ℕ) : Prop :=
  ∃ column < k, (∃ cells, sortedColumn vectors column = .ok cells ∧ Overflows cells i) ∧
    ∀ later < k, column < later →
      ∀ cells, sortedColumn vectors later = .ok cells → ¬Ends cells i

/-- One more column loses an entry or keeps it lost. -/
theorem lost_succ_iff (hcells : sortedColumn vectors k = .ok cells) :
    Lost vectors (k + 1) i ↔ Overflows cells i ∨ Lost vectors k i ∧ ¬Ends cells i := by
  constructor
  · rintro ⟨column, hcolumn, ⟨cells', hcells', hover⟩, hlater⟩
    rcases Nat.lt_succ_iff_lt_or_eq.1 hcolumn with hlt | rfl
    · have hbefore : ∀ later < k, column < later → _ := fun later hk =>
        hlater later (Nat.lt_succ_of_lt hk)
      exact .inr ⟨⟨column, hlt, ⟨cells', hcells', hover⟩, hbefore⟩,
        hlater k k.lt_succ_self hlt cells hcells⟩
    · obtain rfl : cells' = cells := Except.ok.inj (hcells'.symm.trans hcells)
      exact .inl hover
  · rintro (hover | ⟨⟨column, hcolumn, hlost, hlater⟩, hends⟩)
    · exact ⟨k, k.lt_succ_self, ⟨cells, hcells, hover⟩, fun later hk hlt => by omega⟩
    · refine ⟨column, Nat.lt_succ_of_lt hcolumn, hlost, fun later hk hlt cells' hcells' => ?_⟩
      rcases Nat.lt_succ_iff_lt_or_eq.1 hk with hk | rfl
      · exact hlater later hk hlt cells' hcells'
      · obtain rfl : cells' = cells := Except.ok.inj (hcells'.symm.trans hcells)
        exact hends

/-- The distances behind the first `k` columns: lost entries are no numbers, all others are at least
zero. -/
structure Measured (vectors : List (List Float)) (k : ℕ) (d : List Float) : Prop where
  length_eq : d.length = vectors.length
  isNaN : ∀ i x, d[i]? = some x → Lost vectors k i → x.isNaN = true
  zero_le : ∀ i x, d[i]? = some x → ¬Lost vectors k i → 0.0 ≤ x

namespace Measured

theorem start : Measured vectors 0 (List.replicate vectors.length 0.0) where
  length_eq := List.length_replicate ..
  isNaN := by
    rintro i x - ⟨column, hcolumn, -⟩
    exact absurd hcolumn column.not_lt_zero
  zero_le i x hx _ := by
    rw [List.eq_of_mem_replicate (List.mem_of_getElem? hx)]
    decide

theorem addColumn (h : Measured vectors k d) (hcells : sortedColumn vectors k = .ok cells)
    (hsorted : Sorted vectors.length cells) :
    Measured vectors (k + 1) (Crowding.addColumn cells d) := by
  have hlength : (Crowding.addColumn cells d).length = vectors.length :=
    (length_addColumn cells d).trans h.length_eq
  have hgains : ∀ i y, (Crowding.addColumn cells d)[i]? = some y →
      i < vectors.length ∧ ∃ x, d[i]? = some x ∧ Gains cells i x y := by
    intro i y hy
    have hi : i < vectors.length := hlength ▸ (List.getElem?_eq_some_iff.1 hy).1
    have hx := List.getElem?_eq_getElem (h.length_eq.symm ▸ hi : i < d.length)
    obtain ⟨y', hy', hgains⟩ := hsorted.exists_gains h.length_eq hx
    obtain rfl : y' = y := Option.some_inj.1 (hy'.symm.trans hy)
    exact ⟨hi, _, hx, hgains⟩
  refine ⟨hlength, fun i y hy hlost => ?_, fun i y hy hlost => ?_⟩
  · obtain ⟨hi, x, hx, hgains⟩ := hgains i y hy
    rw [lost_succ_iff hcells] at hlost
    cases hgains with
    | atEnd hends =>
      rcases hlost with hover | ⟨-, hnot⟩
      · exact absurd hends (hsorted.not_ends_of_overflows hover)
      · exact absurd hends hnot
    | lost _ hnan => exact hnan
    | kept _ hover hnan => exact hnan (h.isNaN i x hx (hlost.resolve_left hover).1)
  · obtain ⟨-, x, hx, hgains⟩ := hgains i y hy
    rw [lost_succ_iff hcells] at hlost
    cases hgains with
    | atEnd => decide
    | lost hover => exact absurd (.inl hover) hlost
    | kept hends _ _ hzero =>
      exact hzero (h.zero_le i x hx fun hlost' => hlost (.inr ⟨hlost', hends⟩))

end Measured

theorem not_lost_of_length_le (h : vectors.length ≤ 2)
    (hfinite : ∀ v ∈ vectors, v.length = m ∧ v.all Float.isFinite = true) :
    ¬Lost vectors m i := by
  rintro ⟨column, hcolumn, ⟨cells, hcells, below, here, above, hin, -⟩, -⟩
  obtain ⟨cells', hcells', hsorted, -⟩ := exists_sorted column fun v hv =>
    ⟨Nat.lt_of_lt_of_eq hcolumn (hfinite v hv).1.symm, (hfinite v hv).2⟩
  obtain rfl : cells' = cells := Except.ok.inj (hcells'.symm.trans hcells)
  have hlength := hsorted.perm.length_eq
  rw [List.length_map, List.length_range] at hlength
  have hthree : 3 ≤ cells'.length := hin.length_le
  omega

theorem exists_distances (h : ∀ v ∈ vectors, v.length = m ∧ v.all Float.isFinite = true) :
    ∃ d, distances vectors = .ok d ∧ Measured vectors m d := by
  by_cases hmany : 2 < vectors.length
  · exact exists_distances_of_columns hmany h .start fun k _ cells d hcells hsorted hmeasured =>
      hmeasured.addColumn hcells hsorted
  · have hfew := Nat.le_of_not_lt hmany
    refine ⟨_, if_pos hfew, List.length_replicate .., ?_, ?_⟩
    · intro i x _ hlost
      exact absurd hlost (not_lost_of_length_le hfew h)
    · intro i x hx _
      rw [List.eq_of_mem_replicate (List.mem_of_getElem? hx)]
      decide

/-- Finite vectors of one length can be measured, and so can any two vectors. -/
theorem exists_distances_eq_ok
    (h : 2 < vectors.length → ∃ m, ∀ v ∈ vectors, v.length = m ∧ v.all Float.isFinite = true) :
    ∃ d, distances vectors = .ok d := by
  by_cases hmany : 2 < vectors.length
  · obtain ⟨m, hm⟩ := h hmany
    obtain ⟨d, hd, -⟩ := exists_distances hm
    exact ⟨d, hd⟩
  · exact ⟨_, if_pos (Nat.le_of_not_lt hmany)⟩

/-- Where the differences in each column are finite, nothing is lost. -/
theorem not_lost_of_differences (h : ∀ v ∈ vectors, v.length = m ∧ v.all Float.isFinite = true)
    (hnear : ∀ v ∈ vectors, ∀ w ∈ vectors, (List.zipWith (· - ·) v w).all Float.isFinite = true) :
    ¬Lost vectors m i := by
  rintro ⟨column, hcolumn, ⟨cells, hcells, below, here, above, hin, -, hgap⟩, -⟩
  obtain ⟨cells', hcells', -, hread⟩ := exists_sorted column fun v hv =>
    ⟨Nat.lt_of_lt_of_eq hcolumn (h v hv).1.symm, (h v hv).2⟩
  obtain rfl : cells' = cells := Except.ok.inj (hcells'.symm.trans hcells)
  obtain ⟨v, hv, ha⟩ := hread above (hin.subset (by simp))
  obtain ⟨w, hw, hb⟩ := hread below (hin.subset (by simp))
  have hdifference : (List.zipWith (· - ·) v w)[column]? = some (above.1 - below.1) := by
    rw [List.getElem?_zipWith, ha, hb]
  have hfinite := List.all_eq_true.1 (hnear v hv w hw) _ (List.mem_of_getElem? hdifference)
  rw [hgap] at hfinite
  cases hfinite

/-- **Crowding distances are sizes unless they are lost**: finite vectors of one length can be
measured; a distance is no number exactly if a column has the vector between two neighbours whose
gap is too wide for a finite float and no later column has it at an end; every other distance is at
least zero. Where the differences in each column are finite, all are. -/
theorem exists_distances_sizes
    (h : ∀ v ∈ vectors, v.length = m ∧ v.all Float.isFinite = true) :
    ∃ d, distances vectors = .ok d ∧ d.length = vectors.length ∧
      (∀ i x, d[i]? = some x →
        (x.isNaN = true ↔ Lost vectors m i) ∧ (¬Lost vectors m i → 0.0 ≤ x)) ∧
      ((∀ v ∈ vectors, ∀ w ∈ vectors, (List.zipWith (· - ·) v w).all Float.isFinite = true) →
        ∀ x ∈ d, 0.0 ≤ x) := by
  obtain ⟨d, hd, hmeasured⟩ := exists_distances h
  refine ⟨d, hd, hmeasured.length_eq, fun i x hx => ⟨⟨fun hnan => ?_, hmeasured.isNaN i x hx⟩,
    hmeasured.zero_le i x hx⟩, fun hnear x hx => ?_⟩
  · by_contra hlost
    rw [isNaN_of_zero_le (hmeasured.zero_le i x hx hlost)] at hnan
    cases hnan
  · obtain ⟨i, hi⟩ := List.mem_iff_getElem?.1 hx
    exact hmeasured.zero_le i x hi (not_lost_of_differences h hnear)

/-- Three finite values that are too far apart. -/
def farApart : List (List Float) := [[-1.7e308], [0.0], [1.7e308]]

/-- Between the least and the greatest finite values the distance is lost. -/
theorem exists_distances_sizes_of_farApart : ∃ d, distances farApart = .ok d ∧ d.length = 3 ∧
    (∀ i x, d[i]? = some x → (x.isNaN = true ↔ Lost farApart 1 i)) ∧
    (d.map Float.isNaN = [false, true, false]) := by
  have hfinite : ∀ v ∈ farApart, v.length = 1 ∧ v.all Float.isFinite = true := by decide +kernel
  obtain ⟨d, hd, hlength, hlost, -⟩ := exists_distances_sizes hfinite
  refine ⟨d, hd, hlength, fun i x hx => (hlost i x hx).1, ?_⟩
  have hends : (match distances farApart with
    | .ok d => d.map Float.isNaN == [false, true, false]
    | .error _ => false) = true := by decide +kernel
  rw [hd] at hends
  simpa using hends

/-- Finite values do not suffice for distances that are at least zero. -/
theorem not_forall_zero_le : ¬∀ (vectors : List (List Float)) (m : ℕ),
    (∀ v ∈ vectors, v.length = m ∧ v.all Float.isFinite = true) →
      ∀ d, distances vectors = .ok d → ∀ x ∈ d, 0.0 ≤ x := by
  intro hall
  have hfinite : ∀ v ∈ farApart, v.length = 1 ∧ v.all Float.isFinite = true := by decide +kernel
  have hends : (match distances farApart with
    | .ok d => d.any fun x => !decide (0.0 ≤ x)
    | .error _ => false) = true := by decide +kernel
  cases hd : distances farApart with
  | error e => simp [hd] at hends
  | ok d =>
    simp only [hd, List.any_eq_true] at hends
    obtain ⟨x, hx, hbelow⟩ := hends
    have hzero := hall farApart 1 hfinite d hd x hx
    simp [hzero] at hbelow

end ParetoSearch.Crowding
