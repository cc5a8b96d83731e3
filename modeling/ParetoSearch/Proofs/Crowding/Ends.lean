import ParetoSearch.Proofs.Binary64.Counts
import ParetoSearch.Proofs.Crowding.Distances

/-!
# Which crowding distances are infinite

A column has the vectors at its two ends at an infinite distance, and which vectors those
are is a matter of ties: sorting keeps vectors of the same value in their order, so the
first cell is that of the earliest vector with the least value and the last cell that of
the latest with the greatest (`ends_of_sortedColumn_eq_ok`). Other vectors with these
values are between neighbours, as are all vectors but two of a column without a range.

Where the ranges of the columns are finite, an entry is lost in no column. It becomes
infinite in the first column that has the vector at an end and remains so, since nothing
but sizes is added to it (`infinity_add`); until then a column adds a share of its range,
which is between zero and one (`Sorted.share_bounds`). Sums are rounded, but not past a
whole number of up to 53 bits, so behind `k` columns an entry is at most `k`, or at most
`2 ^ 53` if that is less (`Attains.addColumn`). `exists_distances_infinite_iff` puts this
together for all columns.
-/

namespace ParetoSearch

/-! ### First and last in an order -/

section Order

variable {α : Type} {R : α → α → Prop} {xs : List α} {a : α}

/-- What comes first of a list in a strict order. -/
theorem head?_eq_some_iff_of_pairwise (hasymm : ∀ a b, R a b → ¬R b a) (h : xs.Pairwise R) :
    xs.head? = some a ↔ a ∈ xs ∧ ∀ b ∈ xs, b = a ∨ R a b := by
  cases xs with
  | nil => simp
  | cons c rest =>
    have hfirst := (List.pairwise_cons.1 h).1
    rw [List.head?_cons, Option.some.injEq]
    constructor
    · rintro rfl
      exact ⟨List.mem_cons_self, List.forall_mem_cons.2 ⟨.inl rfl, fun b hb => .inr (hfirst b hb)⟩⟩
    · rintro ⟨ha, hall⟩
      rcases List.mem_cons.1 ha with rfl | ha
      · rfl
      · exact (hall c List.mem_cons_self).resolve_right (hasymm _ _ (hfirst a ha))

/-- What comes last of a list in a strict order. -/
theorem getLast?_eq_some_iff_of_pairwise (hasymm : ∀ a b, R a b → ¬R b a) (h : xs.Pairwise R) :
    xs.getLast? = some a ↔ a ∈ xs ∧ ∀ b ∈ xs, b = a ∨ R b a := by
  rw [List.getLast?_eq_head?_reverse, head?_eq_some_iff_of_pairwise
    (fun a b h h' => hasymm _ _ h h') (List.pairwise_reverse.2 h)]
  simp

/-- The earliest of the least comes before all others, by their keys and then by themselves. -/
theorem earliest_least_iff {ι β : Type} [LinearOrder ι] [LinearOrder β] (key : ι → β) (i : ι) :
    ((∀ j, key i ≤ key j) ∧ ∀ j < i, key i < key j) ↔
      ∀ j, j = i ∨ key i < key j ∨ key i = key j ∧ i < j := by
  constructor
  · rintro ⟨hleast, hearliest⟩ j
    rcases lt_trichotomy j i with hlt | rfl | hgt
    · exact .inr (.inl (hearliest j hlt))
    · exact .inl rfl
    · exact .inr ((hleast j).lt_or_eq.imp_right fun heq => ⟨heq, hgt⟩)
  · intro h
    refine ⟨fun j => ?_, fun j hlt => ?_⟩
    · rcases h j with rfl | hlt | ⟨heq, -⟩
      · exact le_rfl
      · exact hlt.le
      · exact heq.le
    · exact ((h j).resolve_left hlt.ne).resolve_right fun heq => lt_asymm hlt heq.2

/-- The latest of the greatest comes behind all others. -/
theorem latest_greatest_iff {ι β : Type} [LinearOrder ι] [LinearOrder β] (key : ι → β) (i : ι) :
    ((∀ j, key j ≤ key i) ∧ ∀ j > i, key j < key i) ↔
      ∀ j, j = i ∨ key j < key i ∨ key j = key i ∧ j < i := by
  -- It is the earliest of the least where both orders are turned around.
  have hdual := earliest_least_iff (ι := ιᵒᵈ) (β := βᵒᵈ) key i
  refine hdual.trans (forall_congr' fun j => ?_)
  exact or_congr_right (or_congr_right (and_congr_left' eq_comm))

end Order

namespace Crowding

open Binary64

variable {n m k column : ℕ} {cells : List Cell} {vectors : List (List Float)} {d : List Float}

/-! ### The ends of a column -/

/-- The index is the earliest of those that have the least value. -/
def EarliestLeast (value : Fin n → Float) (i : Fin n) : Prop :=
  (∀ j, value i ≤ value j) ∧ ∀ j < i, value i < value j

/-- The index is the latest of those that have the greatest value. -/
def LatestGreatest (value : Fin n → Float) (i : Fin n) : Prop :=
  (∀ j, value j ≤ value i) ∧ ∀ j > i, value j < value i

instance (value : Fin n → Float) (i : Fin n) : Decidable (EarliestLeast value i) :=
  inferInstanceAs (Decidable ((∀ j, value i ≤ value j) ∧ ∀ j < i, value i < value j))

instance (value : Fin n → Float) (i : Fin n) : Decidable (LatestGreatest value i) :=
  inferInstanceAs (Decidable ((∀ j, value j ≤ value i) ∧ ∀ j > i, value j < value i))

/-- The value of a vector in a column. -/
def valueAt (vectors : List (List Float)) (column : ℕ) (i : Fin vectors.length) : Float :=
  vectors[i].getD column 0.0

theorem isFinite_valueAt (h : ∀ v ∈ vectors, column < v.length ∧ v.all Float.isFinite = true)
    (i : Fin vectors.length) : (valueAt vectors column i).isFinite = true := by
  obtain ⟨hcolumn, hfinite⟩ := h vectors[i] (List.getElem_mem i.isLt)
  rw [valueAt, List.getD_eq_getElem _ _ hcolumn]
  exact List.all_eq_true.1 hfinite _ (List.getElem_mem hcolumn)

theorem mem_zipIdx_columnValues {cell : Cell} : cell ∈ (columnValues vectors column).zipIdx ↔
    ∃ i : Fin vectors.length, (valueAt vectors column i, i.val) = cell := by
  obtain ⟨x, i⟩ := cell
  rw [List.mem_zipIdx_iff_getElem?, columnValues, List.getElem?_map, Option.map_eq_some_iff]
  simp only [List.getElem?_eq_some_iff, Prod.mk.injEq]
  constructor
  · rintro ⟨v, ⟨hi, rfl⟩, hx⟩
    exact ⟨⟨i, hi⟩, hx, rfl⟩
  · rintro ⟨j, hx, rfl⟩
    exact ⟨_, ⟨j.isLt, rfl⟩, hx⟩

/-- The vector has the earliest of the least values of the column, or the latest of the greatest. -/
def Extreme (vectors : List (List Float)) (column : ℕ) (i : Fin vectors.length) : Prop :=
  EarliestLeast (valueAt vectors column) i ∨ LatestGreatest (valueAt vectors column) i

instance (column : ℕ) (i : Fin vectors.length) : Decidable (Extreme vectors column i) :=
  inferInstanceAs (Decidable (EarliestLeast _ i ∨ LatestGreatest _ i))

/-- The greatest value of the column less the least one is finite. -/
def HasFiniteRange (vectors : List (List Float)) (column : ℕ) : Prop :=
  ∀ i j : Fin vectors.length, (∀ l, valueAt vectors column i ≤ valueAt vectors column l ∧
    valueAt vectors column l ≤ valueAt vectors column j) →
      (valueAt vectors column j - valueAt vectors column i).isFinite = true

instance (vectors : List (List Float)) (column : ℕ) : Decidable (HasFiniteRange vectors column) :=
  inferInstanceAs (Decidable (∀ i j : Fin vectors.length, (∀ l, valueAt vectors column i ≤
    valueAt vectors column l ∧ valueAt vectors column l ≤ valueAt vectors column j) →
      (valueAt vectors column j - valueAt vectors column i).isFinite = true))

section Ends

variable (h : ∀ v ∈ vectors, column < v.length ∧ v.all Float.isFinite = true)
  (hcells : sortedColumn vectors column = .ok cells)

include h hcells

theorem mem_of_sortedColumn_eq_ok {cell : Cell} :
    cell ∈ cells ↔ ∃ i : Fin vectors.length, (valueAt vectors column i, i.val) = cell := by
  obtain ⟨cells', hcells', hperm, -⟩ := exists_sortedColumn_eq_ok h
  obtain rfl := Except.ok.inj (hcells.symm.trans hcells')
  exact hperm.mem_iff.trans mem_zipIdx_columnValues

/-- **The first cell of a sorted column is that of the earliest least value, the last one that of
the latest greatest.** -/
theorem ends_of_sortedColumn_eq_ok (i : Fin vectors.length) :
    (cells.head? = some (valueAt vectors column i, i.val) ↔
      EarliestLeast (valueAt vectors column) i) ∧
    (cells.getLast? = some (valueAt vectors column i, i.val) ↔
      LatestGreatest (valueAt vectors column) i) := by
  obtain ⟨cells', hcells', -, -, hstable⟩ := exists_sortedColumn_eq_ok h
  obtain rfl := Except.ok.inj (hcells.symm.trans hcells')
  have hnumber : ∀ j, (valueAt vectors column j).isNaN = false := fun j =>
    isNaN_of_isFinite (isFinite_valueAt h j)
  have hasymm : ∀ a b : Cell, Before a b → ¬Before b a := fun _ _ => Before.asymm
  have hsame : ∀ j : Fin vectors.length,
      (valueAt vectors column j, j.val) = (valueAt vectors column i, i.val) ↔ j = i :=
    fun j => ⟨fun heq => Fin.ext (congrArg Prod.snd heq), fun heq => heq ▸ rfl⟩
  rw [head?_eq_some_iff_of_pairwise hasymm hstable, getLast?_eq_some_iff_of_pairwise hasymm hstable]
  simp only [mem_of_sortedColumn_eq_ok h hcells, exists_apply_eq_apply, true_and,
    forall_exists_index, forall_apply_eq_imp_iff, hsame, Before, EarliestLeast, LatestGreatest,
    le_iff_real_le, lt_iff_real_lt, hnumber]
  exact ⟨(earliest_least_iff (fun j => real (valueAt vectors column j)) i).symm,
    (latest_greatest_iff (fun j => real (valueAt vectors column j)) i).symm⟩

theorem ends_iff_extreme (i : Fin vectors.length) : Ends cells i ↔ Extreme vectors column i := by
  obtain ⟨hhead, hlast⟩ := ends_of_sortedColumn_eq_ok h hcells i
  rw [Ends, Extreme, ← hhead, ← hlast, List.head?_map, List.getLast?_map]
  -- The index of a cell tells which one it is.
  have hcell : ∀ o : Option Cell, (∀ cell ∈ o, cell ∈ cells) →
      (i.val ∈ o.map Prod.snd ↔ o = some (valueAt vectors column i, i.val)) := by
    rintro (_ | cell) hmem
    · simp
    · obtain ⟨j, rfl⟩ := (mem_of_sortedColumn_eq_ok h hcells).1 (hmem cell rfl)
      rw [Option.map_some, Option.mem_some_iff, Option.some_inj, Prod.mk.injEq]
      exact ⟨fun hj => ⟨congrArg _ (Fin.ext hj), hj⟩, And.right⟩
  rw [hcell _ fun cell => List.mem_of_head?, hcell _ fun cell => List.mem_of_getLast?]

theorem HasFiniteRange.isFinite_sub {least greatest : Cell} (hrange : HasFiniteRange vectors column)
    (hleast : cells.head? = some least) (hgreatest : cells.getLast? = some greatest) :
    (greatest.1 - least.1).isFinite = true := by
  obtain ⟨i, rfl⟩ := (mem_of_sortedColumn_eq_ok h hcells).1 (List.mem_of_head? hleast)
  obtain ⟨j, rfl⟩ := (mem_of_sortedColumn_eq_ok h hcells).1 (List.mem_of_getLast? hgreatest)
  have hlow := ((ends_of_sortedColumn_eq_ok h hcells i).1.1 hleast).1
  have hhigh := ((ends_of_sortedColumn_eq_ok h hcells j).2.1 hgreatest).1
  exact hrange i j fun l => ⟨hlow l, hhigh l⟩

end Ends

/-! ### Entries -/

/-- What an entry is behind the first `k` columns: infinite if one of them has the vector at an end,
and else a size that is not above `k`. Counting ends at `2 ^ 53`, where one more is rounded away. -/
inductive Attains (vectors : List (List Float)) (k : ℕ) (i : Fin vectors.length) : Float → Prop
  | atEnd {column : ℕ} (hcolumn : column < k) (hextreme : Extreme vectors column i) :
    Attains vectors k i infinity
  | between {x : Float} (hextreme : ∀ column < k, ¬Extreme vectors column i) (hzero : 0.0 ≤ x)
    (hbound : x ≤ Float.ofNat (min k (2 ^ 53))) : Attains vectors k i x

/-- The share of a gap in a finite range is between zero and one. -/
theorem Sorted.share_bounds (hsorted : Sorted n cells) {below here above least greatest : Cell}
    (hleast : cells.head? = some least) (hgreatest : cells.getLast? = some greatest)
    (hin : [below, here, above] <:+: cells) (hfinite : (greatest.1 - least.1).isFinite = true)
    (hrange : 0.0 < greatest.1 - least.1) :
    0.0 ≤ (above.1 - below.1) / (greatest.1 - least.1) ∧
      (above.1 - below.1) / (greatest.1 - least.1) ≤ 1.0 := by
  have hgap := hsorted.zero_le_gap hin
  have hle : above.1 - below.1 ≤ greatest.1 - least.1 :=
    (le_iff_real_le (isNaN_of_zero_le hgap) (isNaN_of_isFinite hfinite)).2
      (hsorted.gap_le_range hleast hgreatest hin)
  exact ⟨zero_le_div_of_isFinite hgap hfinite hrange, float_div_le_one hgap hle hfinite hrange⟩

/-- Between the ends of a column with a finite range an entry stays or gains a share. -/
theorem Sorted.exists_share (hsorted : Sorted n cells) {i : ℕ} {x : Float} (hi : i < n)
    (hfinite : ∀ least greatest, cells.head? = some least → cells.getLast? = some greatest →
      (greatest.1 - least.1).isFinite = true)
    (hends : ¬Ends cells i) (hx : d[i]? = some x) :
    ∃ y, (addColumn cells d)[i]? = some y ∧
      (y = x ∨ ∃ share, 0.0 ≤ share ∧ share ≤ 1.0 ∧ y = x + share) := by
  obtain ⟨least, greatest, hleast, hgreatest⟩ := hsorted.exists_ends hi
  obtain ⟨below, here, above, hin, rfl⟩ := hsorted.exists_neighbours hi hends
  refine ⟨_, hsorted.getElem?_addColumn_of_infix hleast hgreatest hin hx, ?_⟩
  split_ifs with hrange
  · obtain ⟨hzero, hone⟩ := hsorted.share_bounds hleast hgreatest hin
      (hfinite least greatest hleast hgreatest) hrange
    exact .inr ⟨_, hzero, hone, rfl⟩
  · exact .inl rfl

/-- One more column makes an entry infinite at its ends and adds at most one elsewhere. -/
theorem Attains.addColumn {i : Fin vectors.length} {x : Float} (hattains : Attains vectors k i x)
    (h : ∀ v ∈ vectors, k < v.length ∧ v.all Float.isFinite = true)
    (hrange : HasFiniteRange vectors k) (hcells : sortedColumn vectors k = .ok cells)
    (hsorted : Sorted vectors.length cells) (hlength : d.length = vectors.length)
    (hx : d[i.val]? = some x) :
    ∃ y, (Crowding.addColumn cells d)[i.val]? = some y ∧ Attains vectors (k + 1) i y := by
  by_cases hends : Ends cells i
  · exact ⟨infinity, hsorted.getElem?_addColumn_of_ends hlength hx hends,
      .atEnd k.lt_succ_self ((ends_iff_extreme h hcells i).1 hends)⟩
  obtain ⟨y, hy, hgain⟩ := hsorted.exists_share i.isLt
    (fun least greatest => hrange.isFinite_sub h hcells) hends hx
  refine ⟨y, hy, ?_⟩
  cases hattains with
  | atEnd hcolumn hextreme =>
    have hinfinite : y = infinity := by
      rcases hgain with rfl | ⟨share, hzero, -, rfl⟩
      · rfl
      · exact infinity_add hzero
    exact hinfinite ▸ .atEnd (Nat.lt_succ_of_lt hcolumn) hextreme
  | between hextreme hzero hbound =>
    have hnone : ∀ column < k + 1, ¬Extreme vectors column i := by
      intro column hcolumn
      rcases Nat.lt_succ_iff_lt_or_eq.1 hcolumn with hlt | rfl
      · exact hextreme column hlt
      · exact mt (ends_iff_extreme h hcells i).2 hends
    rcases hgain with rfl | ⟨share, hzero', hone, rfl⟩
    · have hcount := ofNat_le_ofNat (min_le_min_right (2 ^ 53) k.le_succ) (min_le_right _ _)
      exact .between hnone hzero (float_le_trans hbound hcount)
    · have hsum := add_mono hzero hzero' (isNaN_ofNat _) (by decide) hbound hone
      exact .between hnone (zero_le_add hzero hzero') (float_le_trans hsum ofNat_add_one_le)

/-- An entry that is not infinite is finite, at least zero and at most the number of columns. -/
theorem Attains.bounds {i : Fin vectors.length} {x : Float} (h : Attains vectors m i x)
    (hne : x ≠ infinity) : x.isFinite = true ∧ 0.0 ≤ x ∧ real x ≤ ((m : ℝ) : EReal) := by
  cases h with
  | atEnd => exact absurd rfl hne
  | between _ hzero hbound =>
    have hcount : min m (2 ^ 53) ≤ 2 ^ 53 := min_le_right _ _
    refine ⟨isFinite_of_le_of_le (by decide) (isFinite_ofNat hcount) hzero hbound, hzero,
      (real_le_real hbound).trans ?_⟩
    rw [real_ofNat hcount, EReal.coe_le_coe_iff]
    exact_mod_cast min_le_left _ _

theorem Attains.eq_infinity_iff {i : Fin vectors.length} {x : Float} (h : Attains vectors m i x) :
    x = infinity ↔ ∃ column < m, Extreme vectors column i := by
  cases h with
  | atEnd hcolumn hextreme => exact iff_of_true rfl ⟨_, hcolumn, hextreme⟩
  | between hextreme hzero hbound =>
    refine iff_of_false ?_ fun ⟨column, hcolumn, hend⟩ => hextreme column hcolumn hend
    rintro rfl
    have hcount : min m (2 ^ 53) ≤ 2 ^ 53 := min_le_right _ _
    exact absurd (isFinite_of_le_of_le (by decide) (isFinite_ofNat hcount) hzero hbound) (by decide)

/-- All entries are what they are behind the first `k` columns. -/
def AllAttain (vectors : List (List Float)) (k : ℕ) (d : List Float) : Prop :=
  d.length = vectors.length ∧
    ∀ (i : Fin vectors.length) (x : Float), d[i.val]? = some x → Attains vectors k i x

theorem AllAttain.start : AllAttain vectors 0 (List.replicate vectors.length 0.0) := by
  refine ⟨List.length_replicate .., fun i x hx => ?_⟩
  obtain rfl := List.eq_of_mem_replicate (List.mem_of_getElem? hx)
  exact .between (fun column hcolumn => absurd hcolumn column.not_lt_zero) (by decide) (by decide)

theorem AllAttain.addColumn (hall : AllAttain vectors k d)
    (h : ∀ v ∈ vectors, k < v.length ∧ v.all Float.isFinite = true)
    (hrange : HasFiniteRange vectors k) (hcells : sortedColumn vectors k = .ok cells)
    (hsorted : Sorted vectors.length cells) :
    AllAttain vectors (k + 1) (Crowding.addColumn cells d) := by
  obtain ⟨hlength, hattains⟩ := hall
  refine ⟨(length_addColumn cells d).trans hlength, fun i y hy => ?_⟩
  have hx := List.getElem?_eq_getElem (hlength.symm ▸ i.isLt : i.val < d.length)
  obtain ⟨y', hy', hattains'⟩ := (hattains i _ hx).addColumn h hrange hcells hsorted hlength hx
  obtain rfl := Option.some_inj.1 (hy'.symm.trans hy)
  exact hattains'

/-- **Which distances are infinite and how great the others are**: of at least three finite vectors
of one length `m`, with finite ranges of all columns, those are at an infinite distance that have in
some column the earliest of the least values or the latest of the greatest. Every other distance is
finite, at least zero and at most `m`. -/
theorem exists_distances_infinite_iff (hmany : 3 ≤ vectors.length)
    (hfinite : ∀ v ∈ vectors, v.length = m ∧ v.all Float.isFinite = true)
    (hrange : ∀ column < m, HasFiniteRange vectors column) :
    ∃ d, distances vectors = .ok d ∧ d.length = vectors.length ∧
      ∀ (i : Fin vectors.length) (x : Float), d[i.val]? = some x →
        (x = infinity ↔ ∃ column < m, Extreme vectors column i) ∧
        (x ≠ infinity → x.isFinite = true ∧ 0.0 ≤ x ∧ real x ≤ ((m : ℝ) : EReal)) := by
  have hcolumn : ∀ k < m, ∀ cells d, sortedColumn vectors k = .ok cells →
      Sorted vectors.length cells → AllAttain vectors k d →
        AllAttain vectors (k + 1) (addColumn cells d) :=
    fun k hk cells d hcells hsorted hall => hall.addColumn
      (fun v hv => ⟨hk.trans_eq (hfinite v hv).1.symm, (hfinite v hv).2⟩) (hrange k hk) hcells
      hsorted
  obtain ⟨d, hd, hlength, hattains⟩ := exists_distances_of_columns hmany hfinite .start hcolumn
  exact ⟨d, hd, hlength, fun i x hx =>
    ⟨(hattains i x hx).eq_infinity_iff, (hattains i x hx).bounds⟩⟩

/-- Five vectors of which two have the greatest first value and two the least second one. -/
def fiveTied : List (List Float) := [[1.0, 5.0], [1.0, 4.0], [3.0, 4.0], [3.0, 7.0], [2.0, 5.0]]

/-- The third one has both, but is neither the latest nor the earliest. -/
theorem exists_distances_infinite_iff_of_tied : ∃ d, distances fiveTied = .ok d ∧ d.length = 5 ∧
    ∀ (i : Fin fiveTied.length) (x : Float), d[i.val]? = some x →
      (x = infinity ↔ i.val ∈ [0, 1, 3]) ∧ (x ≠ infinity → real x ≤ ((2 : ℝ) : EReal)) := by
  have hfinite : ∀ v ∈ fiveTied, v.length = 2 ∧ v.all Float.isFinite = true := by decide +kernel
  have hrange : ∀ column < 2, HasFiniteRange fiveTied column := by decide +kernel
  obtain ⟨d, hd, hlength, hentries⟩ := exists_distances_infinite_iff (by decide) hfinite hrange
  have hextreme : ∀ i : Fin fiveTied.length, (∃ column < 2, Extreme fiveTied column i) ↔
      i.val ∈ [0, 1, 3] := by decide +kernel
  refine ⟨d, hd, hlength, fun i x hx => ?_⟩
  obtain ⟨hinfinite, hbound⟩ := hentries i x hx
  exact ⟨hinfinite.trans (hextreme i), fun hne => (hbound hne).2.2⟩

end Crowding

end ParetoSearch
