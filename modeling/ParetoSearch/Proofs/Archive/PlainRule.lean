import ParetoSearch.Archive.Snapshot
import ParetoSearch.Proofs.Archive.Members
import ParetoSearch.Proofs.Dominance.Boxes

/-!
# The plain rule

An archive is sound if every member stands under the key of its own box, has the fixed
numbers of objectives and constraints, has finite values only, and is not better than
another. To a sound archive a solution is added by a plain rule: it is refused if a
member is better, or holds its box with the same violation and is no further from the
corner; otherwise it is taken, and the members it is better than are driven out with
the one in its box (`Sound.add_of_refuses`, `Sound.add_of_not_refuses`).

A solution that wins an occupied box is not compared with the members before it is
taken. The plain rule compares it with all of them, and yet agrees: the solution has a
better standing than the holder of its box, so what were better than the solution were
better than the holder, and no member is (`Sound.prefers_iff_not_refuses`). The members
cannot be told apart by their violations, which are all the same (`Sound.violation_eq`).
-/

namespace ParetoSearch.Archive

open Binary64

variable {D : Type} {A B : Archive D} {s t : Solution D} {p q : BoxKey × Solution D}

/-! ### Sound archives -/

/-- The solution has the numbers of objectives and constraints that are fixed, and finite values
only. -/
def Fits (A : Archive D) (s : Solution D) : Prop :=
  ∃ m c, A.objectives = some m ∧ A.constraints = some c ∧ s.Fits m c

theorem Fits.comparable (hs : A.Fits s) (ht : A.Fits t) : s.Comparable t := by
  obtain ⟨m, c, hm, hc, hs⟩ := hs
  obtain ⟨m', c', hm', hc', ht⟩ := ht
  obtain rfl := Option.some.inj (hm.symm.trans hm')
  obtain rfl := Option.some.inj (hc.symm.trans hc')
  exact hs.comparable ht

/-- The members stand in their own boxes, fit, and are not better than each other. -/
structure Sound (A : Archive D) : Prop where
  /-- The keys ascend, so there is at most one member in each box. -/
  ascending : A.members.Ascending
  /-- Every member stands under the key of its box. -/
  key_eq : ∀ p ∈ A.members, p.1 = A.boxKey p.2.objectives
  /-- Every member fits. -/
  fits : ∀ p ∈ A.members, A.Fits p.2
  /-- No member is better than another. -/
  not_lt : ∀ p ∈ A.members, ∀ q ∈ A.members, ¬A.epsilons.grade p.2 < A.epsilons.grade q.2

theorem Sound.violation_eq (hA : A.Sound) (hp : p ∈ A.members) (hq : q ∈ A.members) :
    place p.2.violation = place q.2.violation :=
  Epsilons.violation_eq_of_not_grade_lt (hA.not_lt p hp q hq) (hA.not_lt q hq p hp)

theorem Sound.key_eq_of_grade_eq (hA : A.Sound) (hp : p ∈ A.members)
    (h : A.epsilons.grade p.2 = A.epsilons.grade s) : p.1 = A.boxKey s.objectives :=
  (hA.key_eq p hp).trans (Epsilons.grade_eq_iff.1 h).2

theorem sound_of_members_eq_nil (h : A.members = []) : A.Sound where
  ascending := h ▸ List.Pairwise.nil
  key_eq := by simp [h]
  fits := by simp [h]
  not_lt := by simp [h]

theorem boxKey_eq_of_epsilons_eq (h : B.epsilons = A.epsilons) (objectives : List Float) :
    B.boxKey objectives = A.boxKey objectives := by
  rw [boxKey, boxKey, h]

/-! ### Checks -/

theorem fits_of_ensureFits (hs : A.ensureFits s = .ok ()) : (A.fixDimensions s).Fits s := by
  unfold ensureFits at hs
  split_ifs at hs
  simp only [check_bind_eq_ok, ensureLength_eq_ok, ensureFinite_eq_ok] at hs
  obtain ⟨hm, hc, hobjectives, hconstraints⟩ := hs
  exact ⟨_, _, congrArg some hm, congrArg some hc, rfl, rfl, hobjectives, hconstraints⟩

theorem Fits.fixDimensions_eq (ht : A.Fits t) : A.fixDimensions s = A := by
  obtain ⟨m, c, hm, hc, -⟩ := ht
  rw [fixDimensions, hm, hc, Option.getD_some, Option.getD_some, ← hm, ← hc]

theorem Sound.comparable (hA : A.Sound) (hs : A.ensureFits s = .ok ()) (hp : p ∈ A.members) :
    p.2.Comparable s ∧ s.Comparable p.2 := by
  have hp' := hA.fits p hp
  have hs' := fits_of_ensureFits hs
  rw [hp'.fixDimensions_eq] at hs'
  exact ⟨hp'.comparable hs', hs'.comparable hp'⟩

/-! ### When a solution is refused -/

/-- A member is better than the solution, or it holds its box with the same violation and is no
further from the corner. -/
def Refuses (A : Archive D) (s : Solution D) : Prop :=
  (∃ p ∈ A.members, A.comparison p.2 s = .ok .left) ∨
    ∃ m, A.members.find? (A.boxKey s.objectives) = some m ∧ (m.violation == s.violation) = true ∧
      A.epsilons.cornerDistance (A.boxKey s.objectives) m.objectives ≤
        A.epsilons.cornerDistance (A.boxKey s.objectives) s.objectives

/-- A solution is refused for a member of the same or a better standing. -/
theorem Sound.refuses_iff (hA : A.Sound) (hs : A.ensureFits s = .ok ()) :
    A.Refuses s ↔ ∃ p ∈ A.members, A.epsilons.standing p.2 ≤ A.epsilons.standing s := by
  simp only [Epsilons.standing_le_iff, and_or_left, exists_or]
  refine or_congr (exists_congr fun p => and_congr_right fun hp =>
    Epsilons.comparison_eq_left_iff (hA.comparable hs hp).1) ?_
  constructor
  · rintro ⟨m, hm, hviolation, hdistance⟩
    have hm := hA.ascending.find?_eq_some_iff.1 hm
    have hkey : A.boxKey m.objectives = A.boxKey s.objectives := (hA.key_eq _ hm).symm
    have hcomparable := (hA.comparable hs hm).1
    refine ⟨_, hm, Epsilons.grade_eq_iff.2 ⟨?_, hkey⟩, ?_⟩
    · exact (Epsilons.violation_beq_iff hcomparable).1 hviolation
    · exact (Epsilons.cornerDistance_le_iff hcomparable hkey rfl).1 hdistance
  · rintro ⟨⟨k, m⟩, hm, hgrade, hdistance⟩
    obtain rfl : k = A.boxKey s.objectives := hA.key_eq_of_grade_eq hm hgrade
    obtain ⟨hviolation, hkey⟩ := Epsilons.grade_eq_iff.1 hgrade
    have hcomparable := (hA.comparable hs hm).1
    refine ⟨m, hA.ascending.find?_eq_some_iff.2 hm, ?_, ?_⟩
    · exact (Epsilons.violation_beq_iff hcomparable).2 hviolation
    · exact (Epsilons.cornerDistance_le_iff hcomparable hkey rfl).2 hdistance

/-- In one box the solution of the better standing is preferred. -/
theorem prefers_iff (h : s.Comparable t) (hkey : A.boxKey t.objectives = A.boxKey s.objectives) :
    A.prefers (A.boxKey s.objectives) s t = true ↔
      A.epsilons.standing s < A.epsilons.standing t := by
  rw [Epsilons.standing_lt_iff_of_boxKey_eq hkey.symm, prefers]
  by_cases hviolation : place s.violation = place t.violation
  · have hbeq := (Epsilons.violation_beq_iff h).2 hviolation
    simp only [bne, hbeq, hviolation, Bool.not_true, Bool.false_eq_true, if_false,
      decide_eq_true_eq, lt_irrefl, false_or, true_and]
    exact Epsilons.cornerDistance_lt_iff h rfl hkey
  · have hbeq := mt (Epsilons.violation_beq_iff h).1 hviolation
    simp [bne, hbeq, hviolation, Epsilons.violation_lt_iff h]

/-- A member whose standing is not worse than that of a solution in the box of another member is
that member. -/
theorem Sound.eq_of_standing_le (hA : A.Sound) (hp : p ∈ A.members) (hq : q ∈ A.members)
    (h : A.epsilons.standing p.2 ≤ A.epsilons.standing q.2) : p = q := by
  rcases (Epsilons.grade_le_of_standing_le h).lt_or_eq with hlt | heq
  · exact absurd hlt (hA.not_lt p hp q hq)
  · refine hA.ascending.eq_of_key_eq hp hq ?_
    rw [hA.key_eq p hp, hA.key_eq q hq]
    exact (Epsilons.grade_eq_iff.1 heq).2

/-- The holder of the box loses it exactly if the solution is not refused. -/
theorem Sound.prefers_iff_not_refuses (hA : A.Sound) (hs : A.ensureFits s = .ok ())
    (ht : A.members.find? (A.boxKey s.objectives) = some t) :
    A.prefers (A.boxKey s.objectives) s t = true ↔ ¬A.Refuses s := by
  have ht := hA.ascending.find?_eq_some_iff.1 ht
  have hkey : A.boxKey t.objectives = A.boxKey s.objectives := (hA.key_eq _ ht).symm
  rw [prefers_iff (hA.comparable hs ht).2 hkey, hA.refuses_iff hs]
  constructor
  · -- What has the standing of the solution or a better one has a better one than the holder.
    rintro hlt ⟨p, hp, hle⟩
    obtain rfl := hA.eq_of_standing_le hp ht (hle.trans hlt.le)
    exact hle.not_gt hlt
  · exact fun hnot => (Epsilons.standing_lt_iff_not_le hkey.symm).2 fun hle => hnot ⟨_, ht, hle⟩

/-- If its box is free, a solution is refused exactly if some member is better. -/
theorem Sound.exists_anyDominates_eq_ok (hA : A.Sound) (hs : A.ensureFits s = .ok ())
    (hfree : A.members.find? (A.boxKey s.objectives) = none) :
    ∃ better, A.members.anyDominates A.comparison s = .ok better ∧
      (better = true ↔ A.Refuses s) := by
  classical
  have hverdict : ∀ p ∈ A.members, A.comparison p.2 s =
      .ok (Dominance.ofValues (A.epsilons.grade p.2) (A.epsilons.grade s)) := fun p hp =>
    A.epsilons.comparison_eq_ok (hA.comparable hs hp).1
  refine ⟨_, Members.anyDominates_eq_ok (fun t =>
    Dominance.ofValues (A.epsilons.grade t) (A.epsilons.grade s)) hverdict, ?_⟩
  simp only [List.any_eq_true, decide_eq_true_eq, Refuses, hfree, reduceCtorEq, false_and,
    exists_false, or_false]
  refine exists_congr fun p => and_congr_right fun hp => ?_
  rw [hverdict p hp, Except.ok.injEq]

/-! ### When a solution is taken -/

theorem run_liftM {ε σ α : Type} (x : Except ε α) (t : σ) :
    (liftM x : EStateM ε σ α).run t =
      match x with
      | .ok a => .ok a t
      | .error e => .error e t := by
  cases x <;> rfl

/-- The archive after the solution was taken: it stands in its box, and of the other members those
stay that are in other boxes and not driven out. -/
structure Takes (A : Archive D) (s : Solution D) (B : Archive D) : Prop where
  epsilons_eq : B.epsilons = A.epsilons
  objectives_eq : B.objectives = some s.objectives.length
  constraints_eq : B.constraints = some s.constraints.length
  improvements_eq : B.improvements = A.improvements + 1
  ascending : B.members.Ascending
  mem_iff : ∀ p, p ∈ B.members ↔ p = (A.boxKey s.objectives, s) ∨
    p ∈ A.members ∧ p.1 ≠ A.boxKey s.objectives ∧ A.comparison s p.2 ≠ .ok .left

theorem run_settle {key : BoxKey} {spared : Option BoxKey} {others : Members D}
    (h : A.members.notDominatedBy A.comparison s spared = .ok others) :
    (settle key s spared).run A = .ok () { A with
      members := others.place key s
      improvements := A.improvements + 1
      dominatingImprovements := A.dominatingImprovements +
        if decide (others.length < A.members.length) then 1 else 0 } := by
  simp only [settle, EStateM.run_bind, EStateM.run_get, run_liftM, h]
  rfl

/-- Settling a solution takes it, whether its box is free or the member there is spared. -/
theorem Sound.exists_run_settle (hA : A.Sound) (hs : A.ensureFits s = .ok ())
    (spared : Option BoxKey) (hspared : ∀ k, spared = some k → k = A.boxKey s.objectives) :
    ∃ B, (settle (A.boxKey s.objectives) s spared).run (A.fixDimensions s) = .ok () B ∧
      A.Takes s B := by
  classical
  have hverdict : ∀ p ∈ A.members, A.comparison s p.2 =
      .ok (Dominance.ofValues (A.epsilons.grade s) (A.epsilons.grade p.2)) := fun p hp =>
    A.epsilons.comparison_eq_ok (hA.comparable hs hp).2
  have hothers := Members.notDominatedBy_eq_ok (fun t =>
    Dominance.ofValues (A.epsilons.grade s) (A.epsilons.grade t)) spared hverdict
  obtain ⟨m, c, hm, hc, hfits⟩ := fits_of_ensureFits hs
  refine ⟨_, run_settle hothers, ?_⟩
  constructor
  case epsilons_eq => rfl
  case objectives_eq => exact hfits.1 ▸ hm
  case constraints_eq => exact hfits.2.1 ▸ hc
  case improvements_eq => rfl
  case ascending => exact Members.ascending_place (hA.ascending.filter _)
  case mem_iff =>
    intro p
    rw [Members.Ascending.mem_place_iff (hA.ascending.filter _), List.mem_filter, decide_eq_true_eq]
    refine or_congr_right ?_
    constructor
    · rintro ⟨⟨hp, hkept⟩, hkey⟩
      refine ⟨hp, hkey, ?_⟩
      rw [hverdict p hp, Ne, Except.ok.injEq]
      exact hkept.resolve_left fun h => hkey (hspared _ h)
    · rintro ⟨hp, hkey, hkept⟩
      rw [hverdict p hp, Ne, Except.ok.injEq] at hkept
      exact ⟨⟨hp, .inr hkept⟩, hkey⟩

/-! ### Adding a solution -/

theorem add_of_error {e : Error} (hs : A.ensureFits s = .error e) : add s A = .error e A := by
  show (add s).run A = _
  simp only [add, EStateM.run_bind, EStateM.run_get, run_liftM, hs]

/-- Behind the checks the box of the solution decides how it is added. -/
theorem add_eq_of_ok (hs : A.ensureFits s = .ok ()) : add s A =
    (match A.members.find? (A.boxKey s.objectives) with
    | some m =>
      if A.prefers (A.boxKey s.objectives) s m then do
        settle (A.boxKey s.objectives) s (some (A.boxKey s.objectives))
        return true
      else return false
    | none => do
      if ← A.members.anyDominates A.comparison s then return false
      else
        settle (A.boxKey s.objectives) s none
        return true : EStateM Error (Archive D) Bool).run (A.fixDimensions s) := by
  show (add s).run A = _
  simp only [add, EStateM.run_bind, EStateM.run_get, EStateM.run_modify, run_liftM, hs]
  rfl

theorem Sound.add_of_refuses (hA : A.Sound) (hs : A.ensureFits s = .ok ()) (h : A.Refuses s) :
    add s A = .ok false A := by
  obtain ⟨p, hp, -⟩ := (hA.refuses_iff hs).1 h
  rw [add_eq_of_ok hs, (hA.fits p hp).fixDimensions_eq]
  cases hbox : A.members.find? (A.boxKey s.objectives) with
  | some t =>
    have hloses : A.prefers (A.boxKey s.objectives) s t = false :=
      Bool.eq_false_iff.2 fun hwins => (hA.prefers_iff_not_refuses hs hbox).1 hwins h
    simp [hloses]
  | none =>
    obtain ⟨better, hany, hbetter⟩ := hA.exists_anyDominates_eq_ok hs hbox
    simp [EStateM.run_bind, run_liftM, hany, hbetter.2 h]

theorem Sound.add_of_not_refuses (hA : A.Sound) (hs : A.ensureFits s = .ok ())
    (h : ¬A.Refuses s) : ∃ B, add s A = .ok true B ∧ A.Takes s B := by
  rw [add_eq_of_ok hs]
  cases hbox : A.members.find? (A.boxKey s.objectives) with
  | some t =>
    have hwins := (hA.prefers_iff_not_refuses hs hbox).2 h
    obtain ⟨B, hsettle, hB⟩ := hA.exists_run_settle hs (some (A.boxKey s.objectives))
      fun k hk => (Option.some.inj hk).symm
    exact ⟨B, by simp only [EStateM.run_bind, EStateM.run_pure, hwins, if_true, hsettle], hB⟩
  | none =>
    obtain ⟨better, hany, hbetter⟩ := hA.exists_anyDominates_eq_ok hs hbox
    obtain rfl : better = false := Bool.eq_false_iff.2 (mt hbetter.1 h)
    obtain ⟨B, hsettle, hB⟩ := hA.exists_run_settle hs none (by simp)
    exact ⟨B, by simp only [EStateM.run_bind, EStateM.run_pure, run_liftM, hany, Bool.false_eq_true,
      if_false, hsettle], hB⟩

/-- The members that leave for a solution that is taken are those of a worse standing. -/
theorem Takes.mem_iff_standing (hB : A.Takes s B) (hA : A.Sound) (hs : A.ensureFits s = .ok ())
    (h : ¬A.Refuses s) (p : BoxKey × Solution D) : p ∈ B.members ↔
      p = (A.boxKey s.objectives, s) ∨
        p ∈ A.members ∧ ¬A.epsilons.standing s < A.epsilons.standing p.2 := by
  rw [hB.mem_iff]
  refine or_congr_right (and_congr_right fun hp => ?_)
  have hleft : A.comparison s p.2 = .ok .left ↔ A.epsilons.grade s < A.epsilons.grade p.2 :=
    Epsilons.comparison_eq_left_iff (hA.comparable hs hp).2
  rw [hA.key_eq p hp, Ne, Ne, hleft, Epsilons.standing_lt_iff, not_or, and_comm,
    and_congr_right_iff]
  intro hgrade
  constructor
  · exact fun hkey heq => hkey (Epsilons.grade_eq_iff.1 heq.1).2.symm
  · intro hstays hkey
    have hlt := (Epsilons.standing_lt_iff_not_le hkey.symm).2 fun hle =>
      h ((hA.refuses_iff hs).2 ⟨p, hp, hle⟩)
    exact (Epsilons.standing_lt_iff.1 hlt).elim hgrade hstays

/-- Taking a solution that is not refused keeps the archive sound. -/
theorem Sound.of_takes (hA : A.Sound) (hs : A.ensureFits s = .ok ()) (h : ¬A.Refuses s)
    (hB : A.Takes s B) : B.Sound := by
  have hcomparable : ∀ p ∈ A.members, p.2.Comparable s := fun p hp => (hA.comparable hs hp).1
  constructor
  case ascending => exact hB.ascending
  case key_eq =>
    intro p hp
    rw [boxKey_eq_of_epsilons_eq hB.epsilons_eq]
    rcases (hB.mem_iff p).1 hp with rfl | ⟨hp, -⟩
    · rfl
    · exact hA.key_eq p hp
  case fits =>
    intro p hp
    refine ⟨_, _, hB.objectives_eq, hB.constraints_eq, ?_⟩
    rcases (hB.mem_iff p).1 hp with rfl | ⟨hp, -⟩
    · obtain ⟨m, c, -, -, hfits⟩ := fits_of_ensureFits hs
      exact ⟨rfl, rfl, hfits.2.2⟩
    · obtain ⟨⟨hm, hc⟩, hfinite, -⟩ := hcomparable p hp
      exact ⟨hm, hc, hfinite⟩
  case not_lt =>
    intro p hp q hq
    rw [hB.epsilons_eq]
    rcases (hB.mem_iff p).1 hp with rfl | ⟨hp, -⟩ <;>
      rcases (hB.mem_iff q).1 hq with rfl | ⟨hq, -, hkept⟩
    · exact lt_irrefl _
    · exact mt (Epsilons.comparison_eq_left_iff (hA.comparable hs hq).2).2 hkept
    · exact fun hlt => h ((hA.refuses_iff hs).2 ⟨p, hp, Epsilons.standing_le_iff.2 (.inl hlt)⟩)
    · exact hA.not_lt p hp q hq

end ParetoSearch.Archive
