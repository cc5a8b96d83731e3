import ParetoSearch.Proofs.Binary64.Monotone
import ParetoSearch.Proofs.Population.Truncation
import ParetoSearch.Proofs.Sorting.Sorted

/-!
# What a column adds to crowding distances

A column of finite values can be sorted, and then every vector has its place in it
(`exists_sorted`): smaller values come first, and of equal values the one with the smaller
index (`exists_sortedColumn_eq_ok`). The vectors at the ends are at an infinite distance
(`Sorted.getElem?_addColumn_of_ends`); every other one gains a share, the gap between its
neighbours by the range of the column (`Sorted.getElem?_addColumn_of_infix`). A gap is
never wider than the range, so the share is at least zero, unless the gap is too wide
for a finite float. Then the range is too, and the share is no number.

`exists_gains` says this of a single entry: an entry at an end becomes infinite
whatever it was, an entry between the ends whose gap overflows becomes no number, and
every other entry that is at least zero remains so.
-/

namespace ParetoSearch

open Binary64

/-! ### Changing entries one after another -/

section Entries

variable {α β : Type} {f : ℕ × β → α → α} {changes : List (ℕ × β)} {xs : List α}

theorem getElem?_foldl_modify_of_notMem {i : ℕ} (h : i ∉ changes.map Prod.fst) :
    (changes.foldl (fun ys p => ys.modify p.1 (f p)) xs)[i]? = xs[i]? := by
  induction changes generalizing xs with
  | nil => rfl
  | cons p changes ih =>
    rw [List.map_cons, List.mem_cons, not_or] at h
    rw [List.foldl_cons, ih h.2, List.getElem?_modify_ne _ _ (Ne.symm h.1)]

theorem getElem?_foldl_modify_of_mem {p : ℕ × β} (hnodup : (changes.map Prod.fst).Nodup)
    (h : p ∈ changes) :
    (changes.foldl (fun ys p => ys.modify p.1 (f p)) xs)[p.1]? = xs[p.1]?.map (f p) := by
  induction changes generalizing xs with
  | nil => cases h
  | cons q changes ih =>
    obtain ⟨hq, hrest⟩ := List.nodup_cons.1 hnodup
    rw [List.foldl_cons]
    rcases List.mem_cons.1 h with rfl | h
    · rw [getElem?_foldl_modify_of_notMem hq, List.getElem?_modify_eq]
      rfl
    · have hne : q.1 ≠ p.1 := fun heq => hq (heq ▸ List.mem_map_of_mem h)
      rw [ih hrest h, List.getElem?_modify_ne _ _ hne]

end Entries

namespace Crowding

/-! ### Sorted columns -/

variable {n i : ℕ} {cells : List Cell}

/-- The cells of a column of finite values, from the smallest up: one for each of `n` vectors. -/
structure Sorted (n : ℕ) (cells : List Cell) : Prop where
  perm : (cells.map Prod.snd).Perm (List.range n)
  finite : ∀ cell ∈ cells, cell.1.isFinite = true
  ascending : cells.Pairwise fun a b => real a.1 ≤ real b.1

/-- The values of the vectors in a column. -/
def columnValues (vectors : List (List Float)) (column : ℕ) : List Float :=
  vectors.map (·.getD column 0.0)

/-- A column that each of the vectors has is read and sorted. -/
theorem sortedColumn_eq {vectors : List (List Float)} {column : ℕ}
    (h : ∀ v ∈ vectors, column < v.length) :
    sortedColumn vectors column =
      Sorting.sortByKey (fun a b => decide (a < b)) (·.1)
        (columnValues vectors column).zipIdx := by
  rw [sortedColumn, mapM_eq_ok_map (g := (·.getD column 0.0)), ok_bind, columnValues]
  intro v hv
  rw [List.getD_eq_getElem _ _ (h v hv), List.getElem?_eq_getElem (h v hv)]

/-- The cell comes first: it has the smaller value, or the same one and the smaller index. -/
def Before (a b : Cell) : Prop := real a.1 < real b.1 ∨ real a.1 = real b.1 ∧ a.2 < b.2

theorem Before.asymm {a b : Cell} (h : Before a b) : ¬Before b a := by
  rintro (hlt | ⟨heq, hlt⟩) <;> rcases h with h | ⟨h, h'⟩
  · exact lt_asymm h hlt
  · exact hlt.ne' h
  · exact h.ne' heq
  · exact lt_asymm h' hlt

/-- A column of finite values can be sorted, and of equal values the earlier one stays first. -/
theorem exists_sortedColumn_eq_ok {vectors : List (List Float)} {column : ℕ}
    (h : ∀ v ∈ vectors, column < v.length ∧ v.all Float.isFinite = true) :
    ∃ cells, sortedColumn vectors column = .ok cells ∧
      cells.Perm (columnValues vectors column).zipIdx ∧
      (∀ cell ∈ cells, cell.1.isFinite = true ∧ ∃ v ∈ vectors, v[column]? = some cell.1) ∧
      cells.Pairwise Before := by
  have hvalues : ∀ p ∈ (columnValues vectors column).zipIdx, p.1.isFinite = true ∧
      ∃ v ∈ vectors, v[column]? = some p.1 := by
    intro p hp
    obtain ⟨v, hv, hvalue⟩ := List.mem_map.1 (List.fst_mem_of_mem_zipIdx hp)
    obtain ⟨hcolumn, hfinite⟩ := h v hv
    rw [List.getD_eq_getElem _ _ hcolumn] at hvalue
    refine ⟨?_, v, hv, (List.getElem?_eq_getElem hcolumn).trans (congrArg some hvalue)⟩
    exact hvalue ▸ List.all_eq_true.1 hfinite _ (List.getElem_mem hcolumn)
  have hnumber : ∀ p ∈ (columnValues vectors column).zipIdx, p.1.isNaN = false := fun p hp =>
    isNaN_of_isFinite (hvalues p hp).1
  refine ⟨_, (sortedColumn_eq fun v hv => (h v hv).1).trans (Sorting.sortByKey_eq_ok hnumber),
    Sorting.stableSort_perm _ _, fun p hp => hvalues p (Sorting.mem_stableSort.1 hp), ?_⟩
  have hold : (columnValues vectors column).zipIdx.Pairwise fun a b => a.2 < b.2 := by
    rw [← List.pairwise_map (f := Prod.snd), List.zipIdx_map_snd, ← List.range_eq_range']
    exact List.pairwise_lt_range
  refine Sorting.pairwise_stableSort_key (fun p : Cell => real p.1) ?_ hold
  intro a ha b hb
  exact decide_eq_decide.2 (lt_iff_real_lt (hnumber a ha) (hnumber b hb))

theorem exists_sorted {vectors : List (List Float)} (column : ℕ)
    (h : ∀ v ∈ vectors, column < v.length ∧ v.all Float.isFinite = true) :
    ∃ cells, sortedColumn vectors column = .ok cells ∧ Sorted vectors.length cells ∧
      ∀ cell ∈ cells, ∃ v ∈ vectors, v[column]? = some cell.1 := by
  obtain ⟨cells, hcells, hperm, hvalues, hstable⟩ := exists_sortedColumn_eq_ok h
  refine ⟨cells, hcells, ⟨?_, fun p hp => (hvalues p hp).1, hstable.imp ?_⟩,
    fun p hp => (hvalues p hp).2⟩
  · have hindices := hperm.map Prod.snd
    rwa [List.zipIdx_map_snd, columnValues, List.length_map, ← List.range_eq_range'] at hindices
  · intro a b hab
    exact hab.elim le_of_lt fun heq => heq.1.le

/-- The vector is at an end of the column. -/
def Ends (cells : List Cell) (i : ℕ) : Prop :=
  i ∈ (cells.map Prod.snd).head? ∨ i ∈ (cells.map Prod.snd).getLast?

/-- The vector is between two neighbours whose gap is too wide for a finite float. -/
def Overflows (cells : List Cell) (i : ℕ) : Prop :=
  ∃ below here above, [below, here, above] <:+: cells ∧ here.2 = i ∧
    (above.1 - below.1).isFinite = false

/-- How a column changes an entry. -/
inductive Gains (cells : List Cell) (i : ℕ) (x : Float) : Float → Prop
  | atEnd (hends : Ends cells i) : Gains cells i x infinity
  | lost {y : Float} (hover : Overflows cells i) (hnan : y.isNaN = true) : Gains cells i x y
  | kept {y : Float} (hends : ¬Ends cells i) (hover : ¬Overflows cells i)
      (hnan : x.isNaN = true → y.isNaN = true) (hzero : 0.0 ≤ x → 0.0 ≤ y) : Gains cells i x y

/-! ### Shares -/

theorem mem_shares {range : Float} {p : ℕ × Float} : p ∈ shares range cells ↔
    ∃ below here above, [below, here, above] <:+: cells ∧
      p = (here.2, (above.1 - below.1) / range) := by
  fun_induction shares range cells with
  | case1 below here above rest ih =>
    simp only [List.mem_cons, ih, List.infix_cons_iff (a := below), List.cons_prefix_cons]
    constructor
    · rintro (rfl | ⟨b, h, a, hin, rfl⟩)
      · exact ⟨below, here, above, .inl ⟨rfl, rfl, rfl, List.nil_prefix⟩, rfl⟩
      · exact ⟨b, h, a, .inr hin, rfl⟩
    · rintro ⟨b, h, a, ⟨rfl, rfl, rfl, -⟩ | hin, rfl⟩
      · exact .inl rfl
      · exact .inr ⟨b, h, a, hin, rfl⟩
  | case2 cells hfew =>
    refine iff_of_false List.not_mem_nil ?_
    rintro ⟨b, h, a, hin, -⟩
    match cells, hin.length_le with
    | x :: y :: z :: rest, _ => exact hfew x y z rest rfl

/-- All cells but those at the ends have a share. -/
theorem map_fst_shares (range : Float) (cells : List Cell) :
    (shares range cells).map Prod.fst = (cells.map Prod.snd).tail.dropLast := by
  fun_induction shares range cells with
  | case1 below here above rest ih => simp [ih]
  | case2 cells hfew =>
    match cells with
    | [] | [_] | [_, _] => rfl
    | x :: y :: z :: rest => exact absurd rfl (hfew x y z rest)

namespace Sorted

theorem nodup (h : Sorted n cells) : (cells.map Prod.snd).Nodup :=
  h.perm.nodup_iff.2 List.nodup_range

theorem nodup_shares (h : Sorted n cells) (range : Float) :
    ((shares range cells).map Prod.fst).Nodup := by
  rw [map_fst_shares]
  exact h.nodup.sublist ((List.dropLast_sublist _).trans (List.tail_sublist _))

/-- A vector has a share unless it is at an end. -/
theorem mem_map_fst_shares_iff (h : Sorted n cells) (hi : i < n) (range : Float) :
    i ∈ (shares range cells).map Prod.fst ↔ ¬Ends cells i := by
  have hmem : i ∈ cells.map Prod.snd := h.perm.mem_iff.2 (List.mem_range.2 hi)
  have hnodup := h.nodup
  rw [map_fst_shares, Ends]
  generalize cells.map Prod.snd = indices at hmem hnodup
  cases indices with
  | nil => cases hmem
  | cons first rest =>
    obtain ⟨hfirst, hrest⟩ := List.nodup_cons.1 hnodup
    rcases List.eq_nil_or_concat' rest with rfl | ⟨middle, last, rfl⟩
    · simpa [eq_comm] using hmem
    · have hlast : last ∉ middle := fun hin =>
        (List.nodup_append.1 hrest).2.2 last hin last (List.mem_singleton_self last) rfl
      simp only [List.mem_cons, List.mem_append, List.not_mem_nil, or_false, not_or] at hmem hfirst
      rw [List.tail_cons, List.dropLast_concat, List.head?_cons, ← List.cons_append,
        List.getLast?_concat, Option.mem_some_iff, Option.mem_some_iff]
      constructor
      · rintro hi (rfl | rfl)
        · exact hfirst.1 hi
        · exact hlast hi
      · intro hends
        rw [not_or] at hends
        exact (hmem.resolve_left (Ne.symm hends.1)).resolve_right (Ne.symm hends.2)

/-! ### Gaps -/

variable {below here above least greatest : Cell}

theorem zero_le_gap (h : Sorted n cells) (hin : [below, here, above] <:+: cells) :
    0.0 ≤ above.1 - below.1 := by
  have hascending := h.ascending.sublist hin.sublist
  have hle : real below.1 ≤ real above.1 :=
    (List.pairwise_cons.1 hascending).1 above (by simp)
  have hbelow := h.finite below (hin.subset (by simp))
  have habove := h.finite above (hin.subset (by simp))
  refine zero_le_sub habove (isNaN_of_isFinite hbelow) ?_
  exact (le_iff_real_le (isNaN_of_isFinite hbelow) (isNaN_of_isFinite habove)).2 hle

/-- No gap is wider than the range. -/
theorem gap_le_range (h : Sorted n cells) (hleast : cells.head? = some least)
    (hgreatest : cells.getLast? = some greatest) (hin : [below, here, above] <:+: cells) :
    real (above.1 - below.1) ≤ real (greatest.1 - least.1) := by
  have hbelow : below ∈ cells := hin.subset (by simp)
  have habove : above ∈ cells := hin.subset (by simp)
  have hlow : real least.1 ≤ real below.1 := by
    obtain ⟨rest, rfl⟩ := List.head?_eq_some_iff.1 hleast
    rcases List.mem_cons.1 hbelow with rfl | hbelow
    · exact le_rfl
    · exact (List.pairwise_cons.1 h.ascending).1 below hbelow
  have hhigh : real above.1 ≤ real greatest.1 := by
    obtain ⟨rest, rfl⟩ := List.getLast?_eq_some_iff.1 hgreatest
    rcases List.mem_append.1 habove with habove | habove
    · exact (List.pairwise_append.1 h.ascending).2.2 above habove greatest (by simp)
    · rw [List.mem_singleton.1 habove]
  have hleast : least ∈ cells := List.mem_of_head? hleast
  have hgreatest : greatest ∈ cells := List.mem_of_getLast? hgreatest
  rw [real_sub (isNaN_sub (h.finite _ habove) (isNaN_of_isFinite (h.finite _ hbelow))),
    real_sub (isNaN_sub (h.finite _ hgreatest) (isNaN_of_isFinite (h.finite _ hleast)))]
  exact rounded_mono (EReal.sub_le_sub hhigh hlow)

/-- If a gap is too wide for a finite float, then so is the range. -/
theorem range_overflows (h : Sorted n cells) (hleast : cells.head? = some least)
    (hgreatest : cells.getLast? = some greatest) (hover : Overflows cells i) :
    (greatest.1 - least.1).isFinite = false := by
  obtain ⟨below, here, above, hin, -, hgap⟩ := hover
  rw [Bool.eq_false_iff] at hgap ⊢
  intro hrange
  exact hgap (isFinite_of_real_le (h.zero_le_gap hin) hrange
    (h.gap_le_range hleast hgreatest hin))

/-! ### Ends -/

theorem not_ends_of_infix (h : Sorted n cells) (hin : [below, here, above] <:+: cells) :
    ¬Ends cells here.2 := by
  have hi : here.2 < n := by
    rw [← List.mem_range, ← h.perm.mem_iff]
    exact List.mem_map_of_mem (hin.subset (by simp))
  rw [← h.mem_map_fst_shares_iff hi 1.0]
  exact List.mem_map_of_mem (mem_shares.2 ⟨below, here, above, hin, rfl⟩)

theorem exists_neighbours (h : Sorted n cells) (hi : i < n) (hends : ¬Ends cells i) :
    ∃ below here above, [below, here, above] <:+: cells ∧ here.2 = i := by
  obtain ⟨p, hp, rfl⟩ := List.mem_map.1 ((h.mem_map_fst_shares_iff hi 1.0).2 hends)
  obtain ⟨below, here, above, hin, rfl⟩ := mem_shares.1 hp
  exact ⟨below, here, above, hin, rfl⟩

theorem exists_ends (h : Sorted n cells) (hi : i < n) :
    ∃ least greatest, cells.head? = some least ∧ cells.getLast? = some greatest := by
  have hne : cells ≠ [] := by
    rintro rfl
    simpa using h.perm.symm.mem_iff.1 (List.mem_range.2 hi)
  obtain ⟨least, hleast⟩ := Option.isSome_iff_exists.1 (List.isSome_head?.2 hne)
  obtain ⟨greatest, hgreatest⟩ := Option.isSome_iff_exists.1 (List.getLast?_isSome.2 hne)
  exact ⟨least, greatest, hleast, hgreatest⟩

theorem not_ends_of_overflows (h : Sorted n cells) (hover : Overflows cells i) :
    ¬Ends cells i := by
  obtain ⟨below, here, above, hin, rfl, -⟩ := hover
  exact h.not_ends_of_infix hin

theorem not_overflows_of_range (h : Sorted n cells) {least greatest : Cell}
    (hleast : cells.head? = some least) (hgreatest : cells.getLast? = some greatest)
    (hrange : ¬0.0 < greatest.1 - least.1) : ¬Overflows cells i := by
  rintro ⟨below, here, above, hin, -, hgap⟩
  have hnumber : (greatest.1 - least.1).isNaN = false :=
    isNaN_sub (h.finite _ (List.mem_of_getLast? hgreatest))
      (isNaN_of_isFinite (h.finite _ (List.mem_of_head? hleast)))
  rw [lt_iff_real_lt (by decide) hnumber, not_lt] at hrange
  have hle := (h.gap_le_range hleast hgreatest hin).trans hrange
  have hfinite := isFinite_of_real_le (h.zero_le_gap hin) (by decide) hle
  rw [hgap] at hfinite
  cases hfinite

theorem ends_iff {least greatest : Cell} (hleast : cells.head? = some least)
    (hgreatest : cells.getLast? = some greatest) :
    Ends cells i ↔ least.2 = i ∨ greatest.2 = i := by
  simp [Ends, hleast, hgreatest]

theorem getElem?_set_ends {least greatest : Cell} {distances : List Float} {x : Float}
    (hleast : cells.head? = some least) (hgreatest : cells.getLast? = some greatest)
    (hx : distances[i]? = some x) :
    (Ends cells i → ((distances.set least.2 infinity).set greatest.2 infinity)[i]? =
      some infinity) ∧
    (¬Ends cells i → ((distances.set least.2 infinity).set greatest.2 infinity)[i]? = some x) := by
  have hi : i < distances.length := (List.getElem?_eq_some_iff.1 hx).1
  rw [ends_iff hleast hgreatest, List.getElem?_set, List.getElem?_set, List.length_set]
  constructor
  · intro hends
    by_cases hgreatest : greatest.2 = i
    · rw [if_pos hgreatest, if_pos (hgreatest ▸ hi)]
    · have hleast := hends.resolve_right hgreatest
      rw [if_neg hgreatest, if_pos hleast, if_pos (hleast ▸ hi)]
  · intro hends
    rw [not_or] at hends
    rw [if_neg hends.2, if_neg hends.1, hx]

/-! ### An entry -/

section Entry

variable {distances : List Float} {x : Float}

theorem getElem?_addColumn_of_ends (h : Sorted n cells) (hlength : distances.length = n)
    (hx : distances[i]? = some x) (hends : Ends cells i) :
    (addColumn cells distances)[i]? = some infinity := by
  have hi : i < n := hlength ▸ (List.getElem?_eq_some_iff.1 hx).1
  obtain ⟨least, greatest, hleast, hgreatest⟩ := h.exists_ends hi
  have hatEnd := (getElem?_set_ends hleast hgreatest hx).1 hends
  simp only [addColumn, hleast, hgreatest]
  split_ifs
  · rw [getElem?_foldl_modify_of_notMem, hatEnd]
    exact fun hin => (h.mem_map_fst_shares_iff hi _).1 hin hends
  · exact hatEnd

/-- An entry between two neighbours gains the share that their gap has in the range, if there is a
range. -/
theorem getElem?_addColumn_of_infix (h : Sorted n cells) (hleast : cells.head? = some least)
    (hgreatest : cells.getLast? = some greatest) (hin : [below, here, above] <:+: cells)
    (hx : distances[here.2]? = some x) :
    (addColumn cells distances)[here.2]? = some (if 0.0 < greatest.1 - least.1 then
      x + (above.1 - below.1) / (greatest.1 - least.1) else x) := by
  have hbetween := (getElem?_set_ends hleast hgreatest hx).2 (h.not_ends_of_infix hin)
  simp only [addColumn, hleast, hgreatest]
  split_ifs
  · have hshare : (here.2, (above.1 - below.1) / (greatest.1 - least.1)) ∈
        shares (greatest.1 - least.1) cells := mem_shares.2 ⟨below, here, above, hin, rfl⟩
    rw [getElem?_foldl_modify_of_mem (f := fun share => (· + share.2)) (h.nodup_shares _) hshare,
      hbetween]
    rfl
  · exact hbetween

/-- **What a column adds to an entry**: at an end it becomes infinite; between two neighbours too
far apart it becomes no number; elsewhere it remains at least zero if it was, and no number if it
was none. -/
theorem exists_gains (h : Sorted n cells) (hlength : distances.length = n)
    (hx : distances[i]? = some x) :
    ∃ y, (addColumn cells distances)[i]? = some y ∧ Gains cells i x y := by
  have hi : i < n := hlength ▸ (List.getElem?_eq_some_iff.1 hx).1
  obtain ⟨least, greatest, hleast, hgreatest⟩ := h.exists_ends hi
  by_cases hends : Ends cells i
  · exact ⟨infinity, h.getElem?_addColumn_of_ends hlength hx hends, .atEnd hends⟩
  by_cases hover : Overflows cells i
  · have hwide := h.range_overflows hleast hgreatest hover
    have hrange : 0.0 < greatest.1 - least.1 := by
      by_contra hrange
      exact h.not_overflows_of_range hleast hgreatest hrange hover
    have ⟨below, here, above, hin, hhere, hgap⟩ := hover
    subst hhere
    refine ⟨_, h.getElem?_addColumn_of_infix hleast hgreatest hin hx, ?_⟩
    rw [if_pos hrange]
    exact .lost hover (isNaN_add_right (isNaN_div_of_not_finite hgap hwide))
  · obtain ⟨below, here, above, hin, rfl⟩ := h.exists_neighbours hi hends
    refine ⟨_, h.getElem?_addColumn_of_infix hleast hgreatest hin hx, ?_⟩
    split_ifs with hrange
    · have hgap : (above.1 - below.1).isFinite = true := by
        by_contra hgap
        exact hover ⟨below, here, above, hin, rfl, Bool.eq_false_iff.2 hgap⟩
      refine .kept hends hover isNaN_add_left fun hzero => ?_
      exact zero_le_add hzero (zero_le_div (h.zero_le_gap hin) hgap hrange)
    · exact .kept hends hover id id

end Entry

end Sorted

end Crowding

end ParetoSearch
