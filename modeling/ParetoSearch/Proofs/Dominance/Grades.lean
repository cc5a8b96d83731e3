import ParetoSearch.Epsilon
import ParetoSearch.Proofs.Binary64.Sizes

/-!
# Grades

Every finite solution has a grade: the place of its violation, and behind it a
vector of coordinates, which are its objectives for Pareto dominance and its box
for dominance of boxes. Grades are ordered by the violation first and then in all
coordinates at once, which is a partial order. Where two solutions can be compared,
either comparison answers as their grades do (`paretoComparison_eq_ok`,
`Epsilons.comparison_eq_ok`), so it inherits irreflexivity and transitivity.

The rounding that goes into a violation or a quotient plays no part here: all that
counts is that a violation is a number (`Solution.isNaN_violation`).
-/

namespace ParetoSearch

open Binary64

variable {D : Type} {α β : Type}

/-! ### Verdicts -/

namespace Dominance

theorem ofValues_eq_left_iff [LT α] [DecidableLT α] {x y : α} : ofValues x y = left ↔ x < y := by
  unfold ofValues
  split_ifs <;> simp_all

theorem ofValues_eq_right_iff [Preorder α] [DecidableLT α] {x y : α} :
    ofValues x y = right ↔ y < x := by
  unfold ofValues
  split_ifs with h₁ h₂
  · simp [lt_asymm h₁]
  · simp [h₂]
  · simp [h₂]

theorem ofValues_eq_neither_iff [LT α] [DecidableLT α] {x y : α} :
    ofValues x y = neither ↔ ¬x < y ∧ ¬y < x := by
  unfold ofValues
  split_ifs <;> simp_all

/-- The entries of a list by their index, with nothing below every entry. -/
def profile (a : List α) : ℕ → WithBot α := fun i => a[i]?

theorem profile_inj {a b : List α} : profile a = profile b ↔ a = b :=
  ⟨fun h => List.ext_getElem? fun i => congrFun h i, fun h => h ▸ rfl⟩

theorem profile_of_lt {a : List α} {i : ℕ} (h : i < a.length) : profile a i = (a[i] : WithBot α) :=
  List.getElem?_eq_getElem h

theorem profile_of_le {a : List α} {i : ℕ} (h : a.length ≤ i) : profile a i = ⊥ :=
  List.getElem?_eq_none h

theorem exists_profile_lt_iff [LinearOrder α] {a b : List α} (h : a.length = b.length) :
    (∃ i, profile a i < profile b i) ↔ left ∈ List.zipWith ofValues a b := by
  simp only [List.mem_iff_getElem?, List.getElem?_zipWith]
  refine exists_congr fun i => ?_
  rcases lt_or_ge i a.length with hi | hi
  · have hi' : i < b.length := h ▸ hi
    rw [profile_of_lt hi, profile_of_lt hi', WithBot.coe_lt_coe, List.getElem?_eq_getElem hi,
      List.getElem?_eq_getElem hi', Option.some.injEq, ofValues_eq_left_iff]
  · have hi' : b.length ≤ i := h ▸ hi
    simp [profile_of_le hi, profile_of_le hi', List.getElem?_eq_none hi]

theorem ofValues_swap [Preorder α] [DecidableLT α] (x y : α) :
    ofValues y x = (ofValues x y).flip := by
  unfold ofValues
  split_ifs with h₁ h₂
  · exact absurd h₂ (lt_asymm h₁)
  all_goals rfl

theorem right_mem_zipWith_iff [LinearOrder α] (a b : List α) :
    right ∈ List.zipWith ofValues a b ↔ left ∈ List.zipWith ofValues b a := by
  have hflip : List.zipWith ofValues b a = (List.zipWith ofValues a b).map flip := by
    rw [List.zipWith_comm, List.map_zipWith]
    exact congrArg (List.zipWith · a b) (funext₂ ofValues_swap)
  have hinj : Function.Injective flip := fun x y hxy => by simpa using congrArg flip hxy
  rw [hflip, ← List.mem_map_of_injective hinj]
  rfl

open Classical in
/-- Vectors of one length compare as their profiles do, coordinate by coordinate. -/
theorem componentwise_eq_ofValues [LinearOrder α] {a b : List α} (h : a.length = b.length) :
    componentwise a b = ofValues (profile a) (profile b) := by
  have hlt : profile a < profile b ↔
      right ∉ List.zipWith ofValues a b ∧ left ∈ List.zipWith ofValues a b := by
    rw [Pi.lt_def, Pi.le_def, right_mem_zipWith_iff, ← exists_profile_lt_iff h,
      ← exists_profile_lt_iff h.symm, not_exists]
    simp only [not_lt]
  have hgt : profile b < profile a ↔
      left ∉ List.zipWith ofValues a b ∧ right ∈ List.zipWith ofValues a b := by
    rw [Pi.lt_def, Pi.le_def, right_mem_zipWith_iff, ← exists_profile_lt_iff h,
      ← exists_profile_lt_iff h.symm, not_exists]
    simp only [not_lt]
  simp only [componentwise, ofValues, hlt, hgt]
  by_cases hl : left ∈ List.zipWith ofValues a b <;>
    by_cases hr : right ∈ List.zipWith ofValues a b <;> simp [hl, hr]

/-- The verdict on two vectors depends on how their entries compare only. -/
theorem componentwise_map [LT α] [DecidableLT α] [LT β] [DecidableLT β] {f : α → β} {a b : List α}
    (h : ∀ x ∈ a, ∀ y ∈ b, (f x < f y ↔ x < y) ∧ (f y < f x ↔ y < x)) :
    componentwise (a.map f) (b.map f) = componentwise a b := by
  have hverdicts : List.zipWith ofValues (a.map f) (b.map f) = List.zipWith ofValues a b := by
    rw [List.zipWith_map, ← List.map_uncurry_zip_eq_zipWith, ← List.map_uncurry_zip_eq_zipWith]
    refine List.map_congr_left fun p hp => ?_
    obtain ⟨hx, hy⟩ := List.of_mem_zip hp
    simp only [Function.uncurry, ofValues, h _ hx _ hy]
  simp only [componentwise, hverdicts]

end Dominance

/-! ### Violations and distances are numbers -/

theorem Solution.allFinite_iff_forall {s : Solution D} :
    s.AllFinite ↔ ∀ v ∈ s.objectives ++ s.constraints, v.isFinite = true := by
  simp only [Solution.AllFinite, List.all_eq_true, List.mem_append, or_imp, forall_and]

/-- The violation of a finite solution is at least zero, whatever it is rounded to. -/
theorem Solution.zero_le_violation {s : Solution D} (h : s.AllFinite) : 0.0 ≤ s.violation := by
  refine List.foldlRecOn (motive := (0.0 ≤ ·)) _ _ (by decide) fun t ht c hc => ?_
  exact zero_le_add ht (zero_le_abs (isNaN_of_isFinite (List.all_eq_true.1 h.2 c hc)))

theorem Solution.isNaN_violation {s : Solution D} (h : s.AllFinite) : s.violation.isNaN = false :=
  isNaN_of_zero_le (Solution.zero_le_violation h)

/-- The distance of a finite vector from any corner is a number. -/
theorem Epsilons.isNaN_cornerDistance (ε : Epsilons) (key : BoxKey) {objectives : List Float}
    (h : objectives.all Float.isFinite = true) :
    (ε.cornerDistance key objectives).isNaN = false := by
  refine isNaN_of_zero_le (zero_le_sqrt ?_)
  refine List.foldlRecOn (motive := (0.0 ≤ ·)) _ _ (by decide) fun t ht c hc => zero_le_add ht ?_
  obtain ⟨i, hi, rfl⟩ := List.mem_mapIdx.1 hc
  obtain ⟨hv, -⟩ := List.of_mem_zip (List.getElem_mem hi)
  obtain ⟨hfinite, hpos⟩ := Bool.and_eq_true_iff.1 (ε.isWidth_get i)
  have hcorner := isNaN_mul (isNaN_ofInt (objectives.zip key.coordinates)[i].2) hfinite
    (of_decide_eq_true hpos)
  exact zero_le_mul_self (isNaN_sub (List.all_eq_true.1 h _ hv) hcorner)

/-! ### Grades -/

/-- The solutions have one shape and finite values only, so that they can be compared. -/
def Solution.Comparable (a b : Solution D) : Prop := a.SameShape b ∧ a.AllFinite ∧ b.AllFinite

/-- The solution has the given numbers of objectives and constraints, and finite values only. -/
def Solution.Fits (m c : ℕ) (s : Solution D) : Prop :=
  s.objectives.length = m ∧ s.constraints.length = c ∧ s.AllFinite

theorem Solution.Fits.comparable {a b : Solution D} {m c : ℕ} (ha : a.Fits m c)
    (hb : b.Fits m c) : a.Comparable b :=
  ⟨⟨ha.1.trans hb.1.symm, ha.2.1.trans hb.2.1.symm⟩, ha.2.2, hb.2.2⟩

theorem Solution.Comparable.symm {a b : Solution D} (h : a.Comparable b) : b.Comparable a :=
  ⟨⟨h.1.1.symm, h.1.2.symm⟩, h.2.2, h.2.1⟩

theorem Solution.Comparable.trans {a b c : Solution D} (hab : a.Comparable b)
    (hbc : b.Comparable c) : a.Comparable c :=
  ⟨⟨hab.1.1.trans hbc.1.1, hab.1.2.trans hbc.1.2⟩, hab.2.1, hbc.2.2⟩

instance : Std.Symm (Solution.Comparable (D := D)) := ⟨fun _ _ => Solution.Comparable.symm⟩

/-- Only solutions that can be compared are. -/
theorem comparable_of_violationFirst_eq_ok {rule : List Float → List Float → Dominance}
    {a b : Solution D} {d : Dominance} (h : violationFirst rule a b = .ok d) :
    a.Comparable b := by
  obtain ⟨_, hcomparable, -⟩ := bind_eq_ok.1 h
  exact ensureComparable_eq_ok.1 hcomparable

/-- The grade that counts the violation first and then the given coordinates. -/
def Solution.gradeBy (coordinates : List Float → ℕ → WithBot α) (s : Solution D) :
    WithBot (WithTop ℚ) ×ₗ (ℕ → WithBot α) :=
  toLex (place s.violation, coordinates s.objectives)

open Classical in
/-- A verdict that a second one completes is the verdict on the pairs, first things first. -/
theorem Dominance.andThen_ofValues [LinearOrder α] [Preorder β] (x x' : α) (y y' : β) :
    (ofValues x x').andThen (ofValues y y') = ofValues (toLex (x, y)) (toLex (x', y')) := by
  simp only [ofValues, Prod.Lex.toLex_lt_toLex]
  rcases lt_trichotomy x x' with h | rfl | h
  · simp [h, andThen]
  · simp [andThen]
  · simp [h, h.ne', lt_asymm h, andThen]

open Classical in
/-- If a rule answers as some coordinates do, the comparison by violations and this rule answers
as the grades with these coordinates do. -/
theorem violationFirst_eq_ok [LinearOrder α] {rule : List Float → List Float → Dominance}
    {coordinates : List Float → ℕ → WithBot α} {a b : Solution D} (h : a.Comparable b)
    (hrule : rule a.objectives b.objectives =
      Dominance.ofValues (coordinates a.objectives) (coordinates b.objectives)) :
    violationFirst rule a b =
      .ok (Dominance.ofValues (a.gradeBy coordinates) (b.gradeBy coordinates)) := by
  have hviolation : Dominance.ofValues a.violation b.violation =
      Dominance.ofValues (place a.violation) (place b.violation) := by
    have ha := Solution.isNaN_violation h.2.1
    have hb := Solution.isNaN_violation h.2.2
    simp only [Dominance.ofValues, lt_iff_place_lt ha hb, lt_iff_place_lt hb ha]
  rw [violationFirst, ensureComparable_eq_ok.2 h, hrule, hviolation]
  exact congrArg Except.ok (Dominance.andThen_ofValues ..)

open Classical in
/-- The comparison answers as the grades do where two solutions can be compared, and fails
elsewhere. -/
structure Comparison.GoesBy [Preorder β] (compare : Comparison D) (grade : Solution D → β) :
    Prop where
  eq_ok : ∀ {a b : Solution D}, a.Comparable b →
    compare a b = .ok (Dominance.ofValues (grade a) (grade b))
  comparable : ∀ {a b : Solution D} {d : Dominance}, compare a b = .ok d → a.Comparable b

/-- A solution is the better one where it can be compared and has the better grade. -/
theorem Comparison.GoesBy.eq_left_iff [Preorder β] {compare : Comparison D}
    {grade : Solution D → β} (h : compare.GoesBy grade) {a b : Solution D} :
    compare a b = .ok .left ↔ a.Comparable b ∧ grade a < grade b := by
  classical
  constructor
  · intro hleft
    have hcomparable := h.comparable hleft
    rw [h.eq_ok hcomparable, Except.ok.injEq, Dominance.ofValues_eq_left_iff] at hleft
    exact ⟨hcomparable, hleft⟩
  · rintro ⟨hcomparable, hlt⟩
    rw [h.eq_ok hcomparable, Dominance.ofValues_eq_left_iff.2 hlt]

/-- The grade of a solution for Pareto dominance. -/
def Solution.paretoGrade (s : Solution D) :
    WithBot (WithTop ℚ) ×ₗ (ℕ → WithBot (WithBot (WithTop ℚ))) :=
  s.gradeBy fun v => Dominance.profile (v.map place)

/-- The grade of a solution for dominance of boxes. -/
def Epsilons.grade (ε : Epsilons) (s : Solution D) : WithBot (WithTop ℚ) ×ₗ (ℕ → WithBot ℤ) :=
  s.gradeBy fun v => Dominance.profile (ε.boxKey v).coordinates

open Classical in
/-- **Pareto dominance answers as the grades do.** -/
theorem paretoComparison_eq_ok {a b : Solution D} (h : a.Comparable b) :
    paretoComparison a b = .ok (Dominance.ofValues a.paretoGrade b.paretoGrade) := by
  refine violationFirst_eq_ok h ?_
  have hlength : (a.objectives.map place).length = (b.objectives.map place).length := by
    simpa using h.1.1
  rw [← Dominance.componentwise_eq_ofValues hlength]
  refine (Dominance.componentwise_map fun x hx y hy => ?_).symm
  have hx' := isNaN_of_isFinite (List.all_eq_true.1 h.2.1.1 x hx)
  have hy' := isNaN_of_isFinite (List.all_eq_true.1 h.2.2.1 y hy)
  exact ⟨(lt_iff_place_lt hx' hy').symm, (lt_iff_place_lt hy' hx').symm⟩

theorem paretoComparison_goesBy : (paretoComparison (D := D)).GoesBy Solution.paretoGrade :=
  ⟨paretoComparison_eq_ok, comparable_of_violationFirst_eq_ok⟩

theorem paretoComparison_eq_left_iff {a b : Solution D} :
    paretoComparison a b = .ok .left ↔ a.Comparable b ∧ a.paretoGrade < b.paretoGrade :=
  paretoComparison_goesBy.eq_left_iff

/-- No solution is better than itself. -/
theorem paretoComparison_self_ne_left (s : Solution D) : paretoComparison s s ≠ .ok .left :=
  fun hleft => lt_irrefl _ (paretoComparison_eq_left_iff.1 hleft).2

open Classical in
/-- **Dominance of boxes answers as the grades do.** -/
theorem Epsilons.comparison_eq_ok (ε : Epsilons) {a b : Solution D} (h : a.Comparable b) :
    ε.comparison a b = .ok (Dominance.ofValues (ε.grade a) (ε.grade b)) :=
  violationFirst_eq_ok h (Dominance.componentwise_eq_ofValues (by simpa using h.1.1))

theorem Epsilons.comparison_goesBy (ε : Epsilons) : (ε.comparison (D := D)).GoesBy ε.grade :=
  ⟨ε.comparison_eq_ok, comparable_of_violationFirst_eq_ok⟩

end ParetoSearch
