import ParetoSearch.Proofs.Archive.Coverage
import ParetoSearch.Proofs.Nsga2.Calls
import ParetoSearch.Proofs.Population.Survivors

/-!
# What NSGA-II remembers

With an archive, NSGA-II remembers the solutions that the archive covers. What a call
brings is offered to the archive before any of it can be dropped, so a call that succeeds
adds it to what is remembered (`Remembers.run`), and a call that fails forgets nothing.

When a call succeeds, the population has as many members as it has brought
(`length_of_run`). When it ends in an error, the population is as it was, unless the
members could not be ranked (`population_of_run_eq_error`). What is remembered has the same
numbers of objectives and constraints and finite values, so it can be ranked, and with an
archive the population is as it was (`Remembers.of_run_eq_error`).
-/

namespace ParetoSearch.Nsga2

variable {ρ W D : Type} {a b : Nsga2 ρ W D} {seen more found : List (Solution D)}

/-- The archive is there, it is sound, and it covers these solutions. -/
def Remembers (a : Nsga2 ρ W D) (seen : List (Solution D)) : Prop :=
  ∃ A, a.archive = some A ∧ A.Sound ∧ ∀ s ∈ seen, A.Covers s

namespace Remembers

theorem of_entry_eq (h : a.Remembers seen)
    (hmore : ∀ s ∈ more, ∃ t ∈ seen, Entry.ofSolution s = Entry.ofSolution t) :
    a.Remembers more := by
  obtain ⟨A, hA, hsound, hcovers⟩ := h
  refine ⟨A, hA, hsound, ?_⟩
  intro s hs
  obtain ⟨t, ht, heq⟩ := hmore s hs
  exact (hcovers t ht).of_entry_eq heq

/-- No offer makes the archive forget, whether it takes the solutions or ends in an error. -/
theorem fed (h : a.Remembers seen) (n : ℕ) (offered : List (Solution D)) :
    (a.fed n offered).Remembers seen := by
  obtain ⟨A, hA, hsound, hcovers⟩ := h
  refine ⟨_, congrArg (Option.map _) hA, hsound.addAll offered, ?_⟩
  exact fun s hs => hsound.covers_addAll offered (hcovers s hs)

/-- What has been offered without an error is remembered as well. -/
theorem fed_append (h : a.Remembers seen) (n : ℕ)
    (hall : ∀ A, a.archive = some A → ∃ taken B, Archive.addAll found A = .ok taken B) :
    (a.fed n found).Remembers (seen ++ found) := by
  obtain ⟨A, hA, hsound, hcovers⟩ := h
  obtain ⟨taken, B, hB⟩ := hall A hA
  have hleft : Archive.leftBehind (Archive.addAll found A) = B := by rw [hB, Archive.leftBehind]
  refine ⟨B, ?_, hleft ▸ hsound.addAll found, ?_⟩
  · rw [fed_archive, hA, Option.map_some, hleft]
  · intro s hs
    rcases List.mem_append.1 hs with hs | hs
    · exact hleft ▸ hsound.covers_addAll found (hcovers s hs)
    · exact hsound.covers_of_addAll_eq_ok hB s hs

/-- What is remembered fits together. -/
theorem exists_fits (h : a.Remembers seen) : ∃ m c, ∀ s ∈ seen, s.Fits m c := by
  obtain ⟨A, -, -, hcovers⟩ := h
  refine ⟨A.objectives.getD 0, A.constraints.getD 0, ?_⟩
  intro s hs
  obtain ⟨m, c, hm, hc, hfits⟩ := (hcovers s hs).1
  rwa [hm, hc]

end Remembers

/-! ### Calls -/

variable {call : Search.Call D} {w w' : W}

theorem rivals_subset (a : Nsga2 ρ W D) (call : Search.Call D) : a.rivals call ⊆ a.population := by
  cases call with
  | step =>
    by_cases hstarted : a.started
    · rw [rivals, if_pos hstarted]
      exact List.Subset.refl _
    · rw [rivals, if_neg hstarted]
      exact List.nil_subset _
  | replacePopulation solutions => exact List.nil_subset _

theorem rivals_append_subset (a : Nsga2 ρ W D) (call : Search.Call D) (found : List (Solution D)) :
    a.rivals call ++ found ⊆ a.population ++ found :=
  List.append_subset.2 ⟨fun _ hs => List.mem_append_left _ (a.rivals_subset call hs),
    List.subset_append_right _ _⟩

variable [Generator ρ]

/-- The solutions that a call brings, evaluated. -/
def newcomers (call : Search.Call D) (s : Nsga2 ρ W D × W) : List (Solution D) :=
  match admitted call s with
  | .ok found _ => found
  | .error _ _ => []

theorem newcomers_eq {s t : Nsga2 ρ W D × W} (h : admitted call s = .ok found t) :
    newcomers call s = found := by rw [newcomers, h]

theorem length_newcomers (h : call.run (a, w) = .ok () (b, w')) :
    (newcomers call (a, w)).length = a.room call := by
  obtain ⟨found, g, n, P, hadmitted, hroom, -, -, -⟩ := exists_of_run_eq_ok h
  rw [newcomers_eq hadmitted, hroom]

/-- A call that succeeds leaves as many members as it has brought. -/
theorem length_of_run (h : call.run (a, w) = .ok () (b, w')) :
    b.population.length = a.room call := by
  obtain ⟨found, g, n, P, -, hroom, -, hP, rfl⟩ := exists_of_run_eq_ok h
  obtain ⟨-, hlength, -⟩ := Population.exists_of_truncate_eq_ok hP
  rw [settled_population, hlength, List.length_append, min_eq_left (Nat.le_add_left _ _), hroom]

theorem exists_mem_of_run (h : call.run (a, w) = .ok () (b, w')) :
    ∀ s ∈ b.population, ∃ t ∈ a.rivals call ++ newcomers call (a, w),
      Entry.ofSolution s = Entry.ofSolution t := by
  obtain ⟨found, g, n, P, hadmitted, -, -, hP, rfl⟩ := exists_of_run_eq_ok h
  rw [newcomers_eq hadmitted]
  exact Population.exists_mem_of_truncate_eq_ok hP

/-- **What a call that ends in an error leaves**: the population as it was, if it has not come to
admit its newcomers, and else its rivals and newcomers, which could not be ranked. -/
theorem population_of_run_eq_error {e : Error}
    (h : call.run (a, w) = .error (.error e) (b, w')) :
    admitted call (a, w) = .error (.error e) (b, w') ∧ b.population = a.population ∨
      (∃ s, admitted call (a, w) = .ok (newcomers call (a, w)) s) ∧
        (newcomers call (a, w)).length = a.room call ∧
        b.population = a.rivals call ++ newcomers call (a, w) ∧
        ¬b.population.Pairwise Solution.Comparable := by
  rcases of_run_eq_error h with ⟨offered, g, n, hadmitted, rfl⟩ |
    ⟨found, g, n, P, hadmitted, hroom, -, hP, rfl⟩
  · exact .inl ⟨hadmitted, rfl⟩
  · obtain ⟨rfl, hnot⟩ := Population.truncate_eq_error hP
    rw [newcomers_eq hadmitted]
    exact .inr ⟨⟨_, hadmitted⟩, hroom, rfl, hnot⟩

namespace Remembers

/-- A call that succeeds adds what it brings to what is remembered. -/
theorem run (h : a.Remembers seen) (hrun : call.run (a, w) = .ok () (b, w')) :
    b.Remembers (seen ++ newcomers call (a, w)) := by
  obtain ⟨found, g, n, P, hadmitted, -, hall, -, rfl⟩ := exists_of_run_eq_ok hrun
  have hdrawn : (a.drawn g).Remembers seen := h
  rw [newcomers_eq hadmitted]
  exact hdrawn.fed_append n hall

theorem run_population (h : a.Remembers a.population) (hrun : call.run (a, w) = .ok () (b, w')) :
    b.Remembers b.population := by
  refine (h.run hrun).of_entry_eq fun s hs => ?_
  obtain ⟨t, ht, heq⟩ := exists_mem_of_run hrun s hs
  exact ⟨t, a.rivals_append_subset call _ ht, heq⟩

/-- **A call that ends in an error leaves the population alone**: nothing is joined to it, and
nothing is dropped. -/
theorem of_run_eq_error (h : a.Remembers a.population) {e : Error}
    (hrun : call.run (a, w) = .error (.error e) (b, w')) :
    ∃ offered g n, b = (a.drawn g).fed n offered := by
  rcases Nsga2.of_run_eq_error hrun with ⟨offered, g, n, -, hleft⟩ |
    ⟨found, g, n, P, -, -, hall, hP, -⟩
  · exact ⟨offered, g, n, hleft⟩
  · obtain ⟨m, c, hfits⟩ := (h.fed_append 0 hall).exists_fits
    have hcomparable : (a.rivals call ++ found).Pairwise Solution.Comparable :=
      List.pairwise_of_forall_mem_list fun s hs t ht =>
        (hfits s (a.rivals_append_subset call _ hs)).comparable
          (hfits t (a.rivals_append_subset call _ ht))
    exact absurd hcomparable (Population.truncate_eq_error hP).2

end Remembers

end ParetoSearch.Nsga2
