import ParetoSearch.Ranking
import Mathlib.Data.Fintype.Card
import Mathlib.Data.List.FinRange
import Mathlib.Data.List.Nodup

/-!
# The recorded dominance

Comparing every pair of items records who dominates whom. `Records` says that a graph
holds a relation: every list names exactly the items that are dominated, each once, and
every count is the number of dominators. A recorded verdict adds one pair to the relation
(`Records.record`), and as no pair is compared twice, the graph of all comparisons holds
the relation `Outranks` (`exists_ofComparison_eq_ok`), or `Beats`, which is the same said
of a comparison that may fail (`records_of_ofComparison_eq_ok`). There is no graph exactly
if a comparison fails (`ofComparison_eq_error_iff`).
-/

namespace ParetoSearch

variable {n : ℕ}

open Classical in
/-- The number of items from which the relation leads to `j`. -/
noncomputable def predecessors (r : Fin n → Fin n → Prop) (j : Fin n) : ℕ :=
  (Finset.univ.filter fun i => r i j).card

theorem predecessors_or {r s : Fin n → Fin n → Prop} {j : Fin n} (h : ∀ i, r i j → ¬s i j) :
    predecessors (fun a b => r a b ∨ s a b) j = predecessors r j + predecessors s j := by
  classical
  unfold predecessors
  rw [← Finset.card_union_of_disjoint (Finset.disjoint_filter.2 fun i _ => h i)]
  congr 1
  ext i
  simp

theorem predecessors_insert {r : Fin n → Fin n → Prop} {w l : Fin n} (h : ¬r w l) (j : Fin n) :
    predecessors (fun a b => r a b ∨ a = w ∧ b = l) j =
      predecessors r j + if l = j then 1 else 0 := by
  rw [predecessors_or]
  · split_ifs with hj
    · simp [predecessors, hj, Finset.filter_eq']
    · simp [predecessors, Ne.symm hj]
  · rintro i hr ⟨rfl, rfl⟩
    exact h hr

theorem get_set {α : Type} (xs : Vector α n) (i j : Fin n) (x : α) :
    (xs.set i.val x i.isLt).get j = if i = j then x else xs.get j := by
  show getElem (xs.set i.val x i.isLt) j.val j.isLt = _
  rw [Vector.getElem_set]
  simp only [Fin.val_inj]
  rfl

namespace DominanceGraph

/-- The graph holds the relation. -/
structure Records (g : DominanceGraph n) (r : Fin n → Fin n → Prop) : Prop where
  /-- The lists name the items that are dominated. -/
  mem_iff : ∀ i j : Fin n, j ∈ g.dominated.get i ↔ r i j
  /-- None is named twice. -/
  nodup : ∀ i : Fin n, (g.dominated.get i).Nodup
  /-- The counts are those of the dominators. -/
  count : ∀ j : Fin n, g.dominators.get j = predecessors r j

theorem Records.congr {g : DominanceGraph n} {r s : Fin n → Fin n → Prop} (hg : g.Records r)
    (h : ∀ a b, r a b ↔ s a b) : g.Records s :=
  (funext₂ fun a b => propext (h a b) : r = s) ▸ hg

theorem records_empty : (empty n).Records fun _ _ => False where
  mem_iff i j := by
    have hget : (empty n).dominated.get i = [] := Vector.getElem_replicate i.isLt
    simp [hget]
  nodup i := by
    have hget : (empty n).dominated.get i = [] := Vector.getElem_replicate i.isLt
    simp [hget]
  count j := by
    have hget : (empty n).dominators.get j = 0 := Vector.getElem_replicate j.isLt
    simp [hget, predecessors]

theorem get_dominated_add (g : DominanceGraph n) (w l i : Fin n) :
    (g.add w l).dominated.get i =
      if w = i then l :: g.dominated.get w else g.dominated.get i :=
  get_set ..

theorem get_dominators_add (g : DominanceGraph n) (w l j : Fin n) :
    (g.add w l).dominators.get j =
      if l = j then g.dominators.get l + 1 else g.dominators.get j :=
  get_set ..

/-- One more dominance is one more pair of the relation. -/
theorem Records.add {g : DominanceGraph n} {r : Fin n → Fin n → Prop} (hg : g.Records r)
    {w l : Fin n} (h : ¬r w l) : (g.add w l).Records fun a b => r a b ∨ a = w ∧ b = l where
  mem_iff i j := by
    rw [get_dominated_add]
    split_ifs with hi
    · simp [← hi, hg.mem_iff, or_comm]
    · simp [hg.mem_iff, Ne.symm hi]
  nodup i := by
    rw [get_dominated_add]
    split_ifs with hi
    · simpa [hg.mem_iff, h] using hg.nodup w
    · exact hg.nodup i
  count j := by
    rw [get_dominators_add, predecessors_insert h, ← hg.count j]
    split_ifs with hj
    · rw [hj]
    · rfl

/-- The pairs whose verdict says that `a` dominates `b`. -/
def Recorded (verdict : Fin n → Fin n → Dominance) (ps : List (Fin n × Fin n)) (a b : Fin n) :
    Prop :=
  (a, b) ∈ ps ∧ verdict a b = .left ∨ (b, a) ∈ ps ∧ verdict b a = .right

/-- One more verdict, on a pair that was not compared before. -/
theorem Records.record {g : DominanceGraph n} {verdict : Fin n → Fin n → Dominance}
    {ps : List (Fin n × Fin n)} (hg : g.Records (Recorded verdict ps)) {i j : Fin n}
    (hij : (i, j) ∉ ps) (hji : (j, i) ∉ ps) :
    (g.record i j (verdict i j)).Records (Recorded verdict ((i, j) :: ps)) := by
  have hno : ¬Recorded verdict ps i j ∧ ¬Recorded verdict ps j i := by simp [Recorded, hij, hji]
  cases hv : verdict i j with
  | left =>
    refine (hg.add hno.1).congr fun a b => ?_
    simp only [Recorded, List.mem_cons, Prod.mk.injEq]
    grind
  | right =>
    refine (hg.add hno.2).congr fun a b => ?_
    simp only [Recorded, List.mem_cons, Prod.mk.injEq]
    grind
  | neither =>
    refine hg.congr fun a b => ?_
    simp only [Recorded, List.mem_cons, Prod.mk.injEq]
    grind

/-- Recording verdicts one after another, on pairs that differ and ascend. -/
theorem Records.foldl_record {verdict : Fin n → Fin n → Dominance} :
    ∀ (qs : List (Fin n × Fin n)) {ps : List (Fin n × Fin n)} {g : DominanceGraph n},
      g.Records (Recorded verdict ps) → (qs.reverse ++ ps).Nodup →
      (∀ p ∈ qs.reverse ++ ps, p.1 < p.2) →
      (qs.foldl (fun g p => g.record p.1 p.2 (verdict p.1 p.2)) g).Records
        (Recorded verdict (qs.reverse ++ ps))
  | [], _, _, hg, _, _ => hg
  | (i, j) :: qs, ps, g, hg, hnodup, hlt => by
    have hsplit : ((i, j) :: qs).reverse ++ ps = qs.reverse ++ (i, j) :: ps := by simp
    rw [hsplit] at hnodup hlt ⊢
    have hnew := (List.nodup_cons.1 (List.nodup_append.1 hnodup).2.1).1
    have hij : i < j := hlt (i, j) (by simp)
    have hji : (j, i) ∉ ps := fun h => lt_asymm hij (hlt (j, i) (by simp [h]))
    exact Records.foldl_record qs (hg.record hnew hji) hnodup hlt

/-! ### All pairs -/

theorem mem_pairs_iff {i j : Fin n} : (i, j) ∈ pairs n ↔ i < j := by
  have hdrop : j ∈ (List.finRange n).drop (i.val + 1) ↔ i < j := by
    rw [List.mem_drop_iff_getElem]
    simp only [List.getElem_finRange, List.length_finRange]
    constructor
    · rintro ⟨k, hk, rfl⟩
      simp [Fin.lt_def]
      omega
    · intro h
      exact ⟨j.val - (i.val + 1), by omega, by ext; simp; omega⟩
  simp only [pairs, List.mem_flatMap, List.mem_finRange, true_and, List.mem_map, Prod.mk.injEq,
    exists_eq_right_right]
  exact ⟨fun ⟨_, hj, hi⟩ => hdrop.1 (hi ▸ hj), fun h => ⟨i, hdrop.2 h, rfl⟩⟩

theorem nodup_pairs : (pairs n).Nodup := by
  refine List.nodup_flatMap.2 ⟨fun i _ => ?_, ?_⟩
  · have hinj : Function.Injective fun j : Fin n => (i, j) := fun a b h => (Prod.mk.inj h).2
    exact ((List.nodup_finRange n).sublist (List.drop_sublist _ _)).map hinj
  · refine (List.nodup_finRange n).imp fun hij => List.disjoint_left.2 fun p hp hq => hij ?_
    obtain ⟨j, -, rfl⟩ := List.mem_map.1 hp
    obtain ⟨k, -, hk⟩ := List.mem_map.1 hq
    exact (Prod.mk.inj hk).1.symm

/-- Of two different items the earlier one is compared with the later one, and the verdict says
that `a` dominates `b`. -/
def Outranks (verdict : Fin n → Fin n → Dominance) (a b : Fin n) : Prop :=
  a < b ∧ verdict a b = .left ∨ b < a ∧ verdict b a = .right

/-- If every comparison succeeds, the graph of all comparisons holds their verdicts. -/
theorem exists_ofComparison_eq_ok {compare : Fin n → Fin n → Except Error Dominance}
    {verdict : Fin n → Fin n → Dominance} (h : ∀ i j, i < j → compare i j = .ok (verdict i j)) :
    ∃ g, ofComparison compare = .ok g ∧ g.Records (Outranks verdict) := by
  have hfold : ∀ (ps : List (Fin n × Fin n)) (g : DominanceGraph n), (∀ p ∈ ps, p.1 < p.2) →
      ps.foldlM (fun g p => return g.record p.1 p.2 (← compare p.1 p.2)) g =
        .ok (ps.foldl (fun g p => g.record p.1 p.2 (verdict p.1 p.2)) g) := by
    intro ps
    induction ps with
    | nil => exact fun _ _ => rfl
    | cons p ps ih =>
      intro g hlt
      rw [List.foldlM_cons, h p.1 p.2 (hlt p (by simp))]
      exact ih _ fun q hq => hlt q (by simp [hq])
  have hlt : ∀ p ∈ pairs n, p.1 < p.2 := fun p hp => mem_pairs_iff.1 hp
  refine ⟨_, hfold _ _ hlt, ?_⟩
  have hempty : (empty n).Records (Recorded verdict []) :=
    records_empty.congr fun a b => by simp [Recorded]
  refine (hempty.foldl_record (pairs n) ?_ ?_).congr fun a b => ?_
  · simpa using nodup_pairs
  · simpa using hlt
  · simp [Recorded, Outranks, mem_pairs_iff]

/-! ### The first comparison that fails -/

section Failing

variable {compare : Fin n → Fin n → Except Error Dominance} {g : DominanceGraph n} {e : Error}

/-- The comparison fails with the error on one of all pairs, and on none before it. -/
def FailsFirst (compare : Fin n → Fin n → Except Error Dominance) (e : Error) : Prop :=
  ∃ before p after, pairs n = before ++ p :: after ∧ compare p.1 p.2 = .error e ∧
    ∀ q ∈ before, ∃ verdict, compare q.1 q.2 = .ok verdict

/-- The error that a comparison ends in. -/
def error? : Except Error Dominance → Option Error
  | .ok _ => none
  | .error e => some e

theorem error?_eq_some_iff {x : Except Error Dominance} : error? x = some e ↔ x = .error e := by
  cases x <;> simp [error?]

theorem error?_eq_none_iff {x : Except Error Dominance} :
    error? x = none ↔ ∃ verdict, x = .ok verdict := by
  cases x <;> simp [error?]

/-- Recording ends in the first error of the pairs to come; what is on record is of no account. -/
theorem foldlM_record_eq_error_iff {ps : List (Fin n × Fin n)} :
    ps.foldlM (fun g p => return g.record p.1 p.2 (← compare p.1 p.2)) g = .error e ↔
      ps.findSome? (fun p => error? (compare p.1 p.2)) = some e := by
  induction ps generalizing g with
  | nil => constructor <;> rintro ⟨⟩
  | cons p ps ih =>
    rw [List.foldlM_cons, List.findSome?_cons]
    cases hp : compare p.1 p.2 with
    | error e' =>
      show Except.error e' = .error e ↔ some e' = some e
      rw [Except.error.injEq, Option.some.injEq]
    | ok verdict => exact ih (g := g.record p.1 p.2 verdict)

/-- Comparing all pairs ends in an error exactly if a comparison fails, and then with the error of
the first that does. -/
theorem ofComparison_eq_error_iff : ofComparison compare = .error e ↔ FailsFirst compare e := by
  rw [ofComparison, foldlM_record_eq_error_iff, List.findSome?_eq_some_iff]
  simp only [error?_eq_some_iff, error?_eq_none_iff, FailsFirst]

theorem exists_of_ofComparison_eq_ok (h : ofComparison compare = .ok g) {i j : Fin n}
    (hij : i < j) : ∃ verdict, compare i j = .ok verdict := by
  have hnone : (pairs n).findSome? (fun p => error? (compare p.1 p.2)) = none := by
    refine Option.eq_none_iff_forall_ne_some.2 fun e he => ?_
    have hfailed : ofComparison compare = .error e := foldlM_record_eq_error_iff.2 he
    cases h.symm.trans hfailed
  exact error?_eq_none_iff.1 (List.findSome?_eq_none_iff.1 hnone (i, j) (mem_pairs_iff.2 hij))

end Failing

/-! ### What any comparison says -/

/-- Of two different items the earlier one is compared with the later one, and the comparison says
that `a` dominates `b`. -/
def Beats (compare : Fin n → Fin n → Except Error Dominance) (a b : Fin n) : Prop :=
  a < b ∧ compare a b = .ok .left ∨ b < a ∧ compare b a = .ok .right

/-- A graph of all comparisons holds what they say, be it an order or not. -/
theorem records_of_ofComparison_eq_ok {compare : Fin n → Fin n → Except Error Dominance}
    {g : DominanceGraph n} (h : ofComparison compare = .ok g) : g.Records (Beats compare) := by
  have : Nonempty Dominance := ⟨.neither⟩
  choose! verdict hverdict using fun i j (hij : i < j) => exists_of_ofComparison_eq_ok h hij
  obtain ⟨g', hg', hrecords⟩ := exists_ofComparison_eq_ok hverdict
  obtain rfl := Except.ok.inj (h.symm.trans hg')
  refine hrecords.congr fun a b => or_congr ?_ ?_
  · refine and_congr_right fun hab => ?_
    rw [hverdict a b hab, Except.ok.injEq]
  · refine and_congr_right fun hba => ?_
    rw [hverdict b a hba, Except.ok.injEq]

end DominanceGraph

end ParetoSearch
