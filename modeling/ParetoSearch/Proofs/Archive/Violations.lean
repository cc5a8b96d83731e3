import ParetoSearch.Proofs.Archive.History
import ParetoSearch.Proofs.Binary64.Monotone

/-!
# The violation of the members

Two paths tell whether a solution is feasible: the test asks whether every constraint
value is zero, and the archive compares sums of their sizes. They agree, since a sum of
sizes is zero only if every size is (`Solution.isFeasible_iff`), however it is rounded.

The members of an archive have one violation, and it is the least of all solutions that
passed the checks: a member is a chosen one among them, and a solution with a smaller
violation has a better standing wherever its box is. So once a feasible solution has
passed, all members are feasible until the archive is cleared.
-/

namespace ParetoSearch

open Binary64

variable {D : Type}

/-! ### Violations and feasibility -/

/-- A sum of sizes is bounded below by what it starts from and by every size. -/
theorem le_foldl_abs {cs : List Float} {total : Float} (htotal : 0.0 ≤ total)
    (hcs : ∀ c ∈ cs, c.isNaN = false) :
    real total ≤ real (cs.foldl (fun total c => total + c.abs) total) ∧
      ∀ c ∈ cs, real c.abs ≤ real (cs.foldl (fun total c => total + c.abs) total) := by
  induction cs generalizing total with
  | nil => simp
  | cons d rest ih =>
    have hd := zero_le_abs (hcs d List.mem_cons_self)
    obtain ⟨hsum, hrest⟩ := ih (zero_le_add htotal hd) fun c hc => hcs c (List.mem_cons_of_mem d hc)
    refine ⟨(real_le_add_right htotal hd).trans hsum, fun c hc => ?_⟩
    rcases List.mem_cons.1 hc with rfl | hc
    · exact (real_le_add_left htotal hd).trans hsum
    · exact hrest c hc

/-- A sum of zeros is zero. -/
theorem foldl_abs_eq_zero {cs : List Float} {total : Float} (htotal : 0.0 ≤ total)
    (hzero : real total = 0) (hcs : ∀ c ∈ cs, c.isNaN = false ∧ real c = 0) :
    real (cs.foldl (fun total c => total + c.abs) total) = 0 := by
  induction cs generalizing total with
  | nil => exact hzero
  | cons d rest ih =>
    obtain ⟨hnumber, hd⟩ := hcs d List.mem_cons_self
    have hsum := zero_le_add htotal (zero_le_abs hnumber)
    apply ih hsum
    · rw [real_add (isNaN_of_zero_le hsum), hzero, real_abs, hd, neg_zero, max_self, add_zero,
        rounded_zero]
    · exact fun c hc => hcs c (List.mem_cons_of_mem d hc)

theorem beq_zero_iff {x : Float} (hx : x.isNaN = false) : (x == 0.0) = true ↔ real x = 0 := by
  rw [beq_iff_place_eq hx (by decide), place_eq_iff_real_eq, real_zero]

/-- **The two tests agree**: a finite solution is feasible exactly if its violation is zero. -/
theorem Solution.isFeasible_iff {s : Solution D} (h : s.AllFinite) :
    s.isFeasible = true ↔ real s.violation = 0 := by
  have hnumber : ∀ c ∈ s.constraints, c.isNaN = false := fun c hc =>
    isNaN_of_isFinite (List.all_eq_true.1 h.2 c hc)
  have hstart : real (-0.0) = 0 := realOf_zero .negative
  rw [Solution.isFeasible, List.all_eq_true]
  constructor
  · intro hzero
    apply foldl_abs_eq_zero (by decide) hstart
    exact fun c hc => ⟨hnumber c hc, (beq_zero_iff (hnumber c hc)).1 (hzero c hc)⟩
  · intro hviolation c hc
    have hle : real c.abs ≤ 0 := hviolation ▸ (le_foldl_abs (by decide) hnumber).2 c hc
    rw [real_abs, max_le_iff] at hle
    refine (beq_zero_iff (hnumber c hc)).2 (le_antisymm hle.1 ?_)
    exact EReal.neg_le_zero.1 hle.2

theorem Solution.isFeasible_of_violation_le {s t : Solution D} (hs : s.AllFinite)
    (ht : t.AllFinite) (hfeasible : t.isFeasible = true) (hle : s.violation ≤ t.violation) :
    s.isFeasible = true := by
  have hnumber := Solution.isNaN_violation hs
  rw [le_iff_real_le hnumber (Solution.isNaN_violation ht), (isFeasible_iff ht).1 hfeasible] at hle
  exact (isFeasible_iff hs).2 (le_antisymm hle (real_nonneg (Solution.zero_le_violation hs)))

namespace Archive

variable {A : Archive D} {s : Solution D} {passed : List (Solution D)} {p : BoxKey × Solution D}

/-! ### Members have the least violation -/

theorem Fits.allFinite (h : A.Fits s) : s.AllFinite := by
  obtain ⟨m, c, -, -, hfits⟩ := h
  exact hfits.2.2

theorem Accounts.violation_le (h : A.Accounts passed) (hp : p ∈ A.members) (hs : s ∈ passed) :
    p.2.violation ≤ s.violation := by
  obtain ⟨i, hchosen⟩ := ((h.summarizes p).1 hp).2
  have hpfinite := Solution.isNaN_violation (h.sound.fits p hp).allFinite
  have hsfinite := Solution.isNaN_violation (h.covers s hs).1.allFinite
  rw [le_iff_place_le hpfinite hsfinite]
  by_contra hlt
  apply hchosen.not_lt s hs
  exact Epsilons.standing_lt_iff.2 (.inl (Epsilons.grade_lt_of_violation_lt (not_le.1 hlt)))

theorem Accounts.members_ne_nil (h : A.Accounts passed) (hs : s ∈ passed) : A.members ≠ [] := by
  obtain ⟨p, hp, -⟩ := (h.covers s hs).2
  exact List.ne_nil_of_mem hp

/-- **Members have the least violation**: all members have the same violation, which is the least
of all solutions that passed the checks since the archive was made or last cleared. If one of those
was feasible, there are members, and all of them are feasible. -/
theorem History.violation_least (h : History A passed) :
    (∀ p ∈ A.members, ∀ q ∈ A.members, (p.2.violation == q.2.violation) = true) ∧
    (∀ p ∈ A.members, p.2 ∈ passed ∧ ∀ s ∈ passed, p.2.violation ≤ s.violation) ∧
    ((∃ s ∈ passed, s.isFeasible = true) →
      A.members ≠ [] ∧ ∀ p ∈ A.members, p.2.isFeasible = true) := by
  have h := h.accounts
  have hfinite : ∀ p ∈ A.members, p.2.AllFinite := fun p hp => (h.sound.fits p hp).allFinite
  refine ⟨?_, ?_, ?_⟩
  · intro p hp q hq
    have hpq := h.sound.violation_eq hp hq
    exact (beq_iff_place_eq (Solution.isNaN_violation (hfinite p hp))
      (Solution.isNaN_violation (hfinite q hq))).2 hpq
  · intro p hp
    exact ⟨h.summarizes.mem_offered hp, fun s hs => h.violation_le hp hs⟩
  · rintro ⟨s, hs, hfeasible⟩
    refine ⟨h.members_ne_nil hs, fun p hp => ?_⟩
    exact Solution.isFeasible_of_violation_le (hfinite p hp) (h.covers s hs).1.allFinite hfeasible
      (h.violation_le hp hs)

/-- A feasible solution drives out one that breaks a constraint, in another box. -/
theorem History.violation_least_of_feasible : ∃ (A : Archive Unit) (passed : List (Solution Unit)),
    History A passed ∧ passed.length = 2 ∧ A.members.length = 1 ∧
      ∀ p ∈ A.members, p.2.isFeasible = true := by
  have h : History ((Operation.addAll [Solution.ofEvaluation () ⟨[0.5, 0.5], [0.25]⟩,
      Solution.ofEvaluation () ⟨[2.5, 2.5], [-0.0]⟩]).run
        (Archive.ofEpsilons ⟨[1.0], by decide, by decide⟩)) _ := .run (.ofEpsilons _) _
  have hfeasible := (History.violation_least h).2.2
    ⟨Solution.ofEvaluation () ⟨[2.5, 2.5], [-0.0]⟩, by decide +kernel, by decide⟩
  exact ⟨_, _, h, by decide +kernel, by decide +kernel, hfeasible.2⟩

end Archive

end ParetoSearch
