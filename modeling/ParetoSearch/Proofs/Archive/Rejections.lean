import ParetoSearch.Proofs.Archive.Reachable

/-!
# When an offer fails

An offer compares the solution with members, and a comparison may end in an error. It
never does here: what passes the checks at the start can be compared with every member of
a sound archive, so the checks alone decide whether an offer fails
(`Sound.add_eq_error_iff`), and at that point nothing has been changed. The checks reject
a solution for its numbers of objectives and constraints and for values that are not
finite (`ensureFits_eq_ok_iff`). A list of offers fails at the first solution that is
rejected by the archive as the solutions before it have left it
(`addAll_eq_error_iff`).
-/

namespace ParetoSearch.Archive

variable {D : Type} {A B : Archive D} {s : Solution D} {solutions : List (Solution D)} {e : Error}

/-! ### The checks -/

/-- The solution has a wrong number of objectives or constraints, or a value that is not finite. As
long as no number of objectives is fixed, any but zero will do. -/
def Rejects (A : Archive D) (s : Solution D) : Prop :=
  (∃ m, A.objectives = some m ∧ s.objectives.length ≠ m) ∨
    (A.objectives = none ∧ s.objectives.length = 0) ∨
    (∃ c, A.constraints = some c ∧ s.constraints.length ≠ c) ∨
    ∃ v ∈ s.objectives ++ s.constraints, v.isFinite = false

theorem getD_length_eq_iff {n : ℕ} {fixed : Option ℕ} :
    fixed.getD n = n ↔ ¬∃ m, fixed = some m ∧ n ≠ m := by
  cases fixed <;> simp [eq_comm]

theorem ensureFits_eq_ok_iff : A.ensureFits s = .ok () ↔ ¬A.Rejects s := by
  have hfinite : (∃ v ∈ s.objectives ++ s.constraints, v.isFinite = false) ↔ ¬s.AllFinite := by
    simp [Solution.allFinite_iff_forall]
  rw [Rejects, hfinite, ensureFits]
  simp only [not_or, not_not, ← getD_length_eq_iff, List.length_eq_zero_iff]
  split_ifs with hempty
  · simp [hempty]
  · simp only [check_bind_eq_ok, ensureLength_eq_ok, ensureFinite_eq_ok]
    constructor
    · rintro ⟨hm, hc, hvalues⟩
      exact ⟨hm, hempty, hc, hvalues⟩
    · rintro ⟨hm, -, hc, hvalues⟩
      exact ⟨hm, hc, hvalues⟩

/-! ### One offer -/

theorem Sound.exists_add_eq_ok_of_ensureFits (hA : A.Sound) (hs : A.ensureFits s = .ok ()) :
    ∃ taken B, Archive.add s A = .ok taken B := by
  by_cases hrefused : A.Refuses s
  · exact ⟨false, A, hA.add_of_refuses hs hrefused⟩
  · obtain ⟨B, hadd, -⟩ := hA.add_of_not_refuses hs hrefused
    exact ⟨true, B, hadd⟩

/-- An offer fails exactly with the error of the checks, and leaves the archive as it was. -/
theorem Sound.add_eq_error_iff (hA : A.Sound) :
    Archive.add s A = .error e B ↔ A.ensureFits s = .error e ∧ B = A := by
  constructor
  · intro hadd
    cases hs : A.ensureFits s with
    | error e' =>
      cases (add_of_error hs).symm.trans hadd
      exact ⟨rfl, rfl⟩
    | ok =>
      obtain ⟨taken, C, hadd'⟩ := hA.exists_add_eq_ok_of_ensureFits hs
      cases hadd'.symm.trans hadd
  · rintro ⟨hs, rfl⟩
    exact add_of_error hs

theorem Sound.exists_add_eq_error_iff (hA : A.Sound) :
    (∃ e B, Archive.add s A = .error e B) ↔ A.Rejects s := by
  rw [← not_iff_not, ← ensureFits_eq_ok_iff]
  constructor
  · intro hnever
    cases hs : A.ensureFits s with
    | error e => exact absurd ⟨e, A, add_of_error hs⟩ hnever
    | ok => rfl
  · rintro hs ⟨e, B, hadd⟩
    have herror := (hA.add_eq_error_iff.1 hadd).1
    cases hs.symm.trans herror

/-! ### A list of offers -/

/-- A list of offers fails at the first one that does. -/
theorem addAll_eq_error_iff : addAll solutions A = .error e B ↔
    ∃ before s rest taken C, solutions = before ++ s :: rest ∧
      addAll before A = .ok taken C ∧ add s C = .error e B := by
  induction solutions generalizing A with
  | nil =>
    constructor
    · intro h
      cases h
    · rintro ⟨before, s, rest, _, _, h, -⟩
      cases before <;> cases h
  | cons t rest ih =>
    constructor
    · intro h
      cases hadd : add t A with
      | error e' C =>
        cases (addAll_cons_of_error hadd rest).symm.trans h
        exact ⟨[], t, rest, 0, A, rfl, rfl, hadd⟩
      | ok first C =>
        obtain ⟨before, s, behind, taken, C', rfl, hbefore, hs⟩ :=
          ih.1 ((addAll_cons_eq_error_iff hadd).1 h)
        have hbefore := addAll_cons_eq_ok_iff.2 ⟨first, taken, C, hadd, hbefore, rfl⟩
        exact ⟨t :: before, s, behind, _, C', rfl, hbefore, hs⟩
    · rintro ⟨before, s, behind, taken, C, hsplit, hbefore, hs⟩
      cases before with
      | nil =>
        cases hsplit
        cases hbefore
        exact addAll_cons_of_error hs rest
      | cons u before =>
        cases hsplit
        obtain ⟨first, others, C', hfirst, hbefore, -⟩ := addAll_cons_eq_ok_iff.1 hbefore
        apply (addAll_cons_eq_error_iff hfirst).2
        exact ih.2 ⟨before, s, behind, others, C, rfl, hbefore, hs⟩

/-! ### Reachable archives -/

/-- **An offer fails exactly at the checks**: to a reachable archive, the offer of a solution fails
exactly if the solution is rejected, and leaves the archive as it was; a solution that is not
rejected can be compared with every member, either way round. The offer of a list fails exactly if
a solution is rejected after all before it were added, and leaves the archive as they did. -/
theorem Reachable.fails_iff_rejects (hA : A.Reachable) :
    (∀ s, ((∃ e B, Archive.add s A = .error e B) ↔ A.Rejects s) ∧
      (∀ e B, Archive.add s A = .error e B → B = A) ∧
      (¬A.Rejects s → ∀ p ∈ A.members, (∃ verdict, A.comparison p.2 s = .ok verdict) ∧
        ∃ verdict, A.comparison s p.2 = .ok verdict)) ∧
    ∀ solutions e B, Archive.addAll solutions A = .error e B ↔
      ∃ before s rest taken, solutions = before ++ s :: rest ∧
        Archive.addAll before A = .ok taken B ∧ B.Rejects s ∧ B.ensureFits s = .error e := by
  have hsound := hA.sound
  refine ⟨fun s => ⟨hsound.exists_add_eq_error_iff, ?_, ?_⟩, ?_⟩
  · intro e B hadd
    exact (hsound.add_eq_error_iff.1 hadd).2
  · classical
    intro hs p hp
    obtain ⟨hp, hs⟩ := hsound.comparable (ensureFits_eq_ok_iff.2 hs) hp
    exact ⟨⟨_, A.epsilons.comparison_eq_ok hp⟩, ⟨_, A.epsilons.comparison_eq_ok hs⟩⟩
  · intro solutions e B
    rw [addAll_eq_error_iff]
    have hleft : ∀ {before taken C}, Archive.addAll before A = .ok taken C → C.Sound := by
      intro before taken C hbefore
      have hC := hsound.addAll before
      rwa [hbefore] at hC
    constructor
    · rintro ⟨before, s, rest, taken, C, hsplit, hbefore, hadd⟩
      have hC := hleft hbefore
      obtain ⟨hs, rfl⟩ := hC.add_eq_error_iff.1 hadd
      exact ⟨before, s, rest, taken, hsplit, hbefore, hC.exists_add_eq_error_iff.1 ⟨_, _, hadd⟩, hs⟩
    · rintro ⟨before, s, rest, taken, hsplit, hbefore, -, hs⟩
      exact ⟨before, s, rest, taken, B, hsplit, hbefore, add_of_error hs⟩

/-- A list of three solutions, of which the second is rejected, leaves one member behind. After that
one objective is too few. -/
theorem Reachable.fails_iff_rejects_of_too_few : ∃ A : Archive Unit, A.Reachable ∧
    A.members.length = 1 ∧
    ∃ e B, Archive.add (Solution.ofEvaluation () ⟨[0.5], []⟩) A = .error e B := by
  have hA : ((Operation.addAll [Solution.ofEvaluation () ⟨[0.5, 2.5], []⟩,
      Solution.ofEvaluation () ⟨[2.5, 0.5, 0.5], []⟩,
      Solution.ofEvaluation () ⟨[2.5, 0.5], []⟩]).run
        (Archive.ofEpsilons ⟨[1.0], by decide, by decide⟩)).Reachable := .run (.ofEpsilons _) _
  have hfails := ((Reachable.fails_iff_rejects hA).1 (Solution.ofEvaluation () ⟨[0.5], []⟩)).1
  exact ⟨_, hA, by decide +kernel, hfails.2 (.inl ⟨2, by decide +kernel, by decide⟩)⟩

end ParetoSearch.Archive
