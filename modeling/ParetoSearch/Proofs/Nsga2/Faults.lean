import ParetoSearch.Proofs.Nsga2.Calls
import ParetoSearch.Proofs.Population.Faults

/-!
# What a call of NSGA-II may raise

A call raises what its problem raises, or its operator for as many parents as it takes.
Besides, there may be no room for the parents or for the first population, and a front
may be sorted by distances that are no order; then the population that the call leaves has
a disordered front. There is nothing else (`run_eq_fault`): children are asked for only if
there are members, so parents are selected where there are some, and a population is
replaced by solutions.
-/

namespace ParetoSearch

variable {ρ W D : Type} {f : Fault}

namespace Nsga2

variable [Generator ρ]

/-! ### Parents -/

theorem select_eq_ok (how : Selection) {members : Population D} (h : 0 < members.length) (g : ρ) :
    ∃ i g', how.select members g = .ok i g' := by
  unfold Selection.select
  rw [dif_pos h]
  exact ⟨_, _, rfl⟩

/-- Among members as many parents are chosen as are asked for. -/
theorem chooseParents_eq_ok (how : Selection) {members : Population D} (h : 0 < members.length)
    (n : ℕ) (g : ρ) :
    ∃ parents g', chooseParents how members n g = .ok parents g' ∧ parents.length = n := by
  induction n generalizing g with
  | zero => exact ⟨[], g, rfl, rfl⟩
  | succ n ih =>
    obtain ⟨i, g₁, hi⟩ := select_eq_ok how h g
    obtain ⟨others, g', hothers, hlength⟩ := ih g₁
    refine ⟨members[i] :: others, g', ?_, congrArg Nat.succ hlength⟩
    exact bind_apply_eq_ok.2 ⟨i, g₁, hi, bind_apply_eq_ok.2 ⟨others, g', hothers, rfl⟩⟩

/-- There is more to be stored than can be. -/
def Overfull (a : Nsga2 ρ W D) : Prop :=
  Population.capacity < a.config.populationSize ∨ Variation.maxParents < a.variation.arity

/-- What a call may raise that leaves the population `P`: what the problem or the operator does, that
there is no room, or that distances are no order. -/
inductive Blames (a : Nsga2 ρ W D) (P : Population D) : Fault → Prop
  | problem {f : Fault} (h : a.problem.Raises f) : Blames a P f
  | variation {f : Fault} (h : a.variation.Raises f) : Blames a P f
  | room (h : a.Overfull) : Blames a P .roomExceeded
  | order (h : P.HasDisorderedFront) : Blames a P .notOrdered

variable {a : Nsga2 ρ W D} {P : Population D} {w : W} {s : Nsga2 ρ W D × W} {call : Search.Call D}

/-- A brood may lack room for its parents, or the operator fails; there are parents if there are
members. -/
theorem raisesOnly_brood (hmembers : 0 < a.population.length) :
    RaisesOnly (a.Blames P) a.brood := by
  have hroom : FailsOnly (a.Blames P) (ensureRoom Variation.maxParents a.variation.arity) :=
    failsOnly_ensureRoom fun hlt => .room (.inr hlt)
  refine (RaisesOnly.check hroom).bind fun _ => RaisesOnly.bind_of_ok ?_ ?_
  · rintro ⟨g, w⟩ e t h
    obtain ⟨parents, g', hparents, -⟩ :=
      chooseParents_eq_ok a.config.selection hmembers a.variation.arity g
    obtain ⟨g₂, herror, -⟩ := focus_apply_eq_error.1 h
    cases herror.symm.trans hparents
  · rintro ⟨g, w⟩ parents t h s f t' hevolve
    obtain ⟨parents', g', hparents, hlength⟩ :=
      chooseParents_eq_ok a.config.selection hmembers a.variation.arity g
    obtain ⟨g₂, hok, -⟩ := focus_apply_eq_ok.1 h
    cases hok.symm.trans hparents
    exact .variation ⟨parents, s, t', hlength, hevolve⟩

/-! ### Calls -/

omit [Generator ρ] in
theorem drawing_eq_fault {α : Type} {x : EStateM Fault (ρ × W) α}
    (h : drawing x (a, w) = .error (.fault f) s) :
    ∃ t, x (a.generator, w) = .error f t := by
  rw [drawing_apply] at h
  cases hx : x (a.generator, w) with
  | error f' t =>
    rw [hx] at h
    cases h
    exact ⟨t, rfl⟩
  | ok r t =>
    rw [hx] at h
    cases h

/-- Bringing solutions may lack room or fail with the problem or the operator, unless nothing is to
replace the population. -/
theorem brought_eq_fault (hcall : call ≠ .replacePopulation [])
    (h : brought call (a, w) = .error (.fault f) s) : a.Blames P f := by
  cases call with
  | step =>
    simp only [brought, bind_apply, get_apply] at h
    have hcreate : RaisesOnly (a.Blames P) a.problem.create := fun _ _ _ h => .problem (.create h)
    by_cases hstarted : a.started
    · rw [if_pos hstarted] at h
      obtain ⟨t, ht⟩ := drawing_eq_fault h
      exact raisesOnly_fill [] raisesOnly_brood hcreate _ _ _ ht
    · rw [if_neg hstarted, bind_apply, fault_apply] at h
      cases hroom : ensureRoom Population.capacity a.config.populationSize with
      | error f' =>
        rw [hroom] at h
        cases h
        exact failsOnly_ensureRoom (fun hlt => Blames.room (.inl hlt)) f hroom
      | ok =>
        rw [hroom] at h
        obtain ⟨t, ht⟩ := drawing_eq_fault h
        exact .problem (a.problem.raisesOnly_createMany _ _ _ _ ht)
  | replacePopulation solutions =>
    cases solutions with
    | nil => exact absurd rfl hcall
    | cons s rest => cases h

omit [Generator ρ] in
theorem takeIn_eq_fault {solutions : List (Solution D)}
    (h : takeIn solutions (a, w) = .error (.fault f) s) : a.problem.Raises f := by
  simp only [takeIn, List.partition_eq_filter_filter, bind_apply, get_apply, evaluating_apply] at h
  cases hfound : a.problem.evaluateAll (solutions.filter (Bool.not ∘ (·.isEvaluated))) w with
  | error f' w' =>
    rw [hfound] at h
    cases h
    exact a.problem.raisesOnly_evaluateAll _ _ _ _ hfound
  | ok r w' =>
    obtain ⟨evaluated, verdict⟩ := r
    cases verdict with
    | error e =>
      simp only [hfound, error_apply] at h
      cases h
    | ok =>
      simp only [hfound, error_apply, modify_apply] at h
      rcases offer_cases (solutions.filter (·.isEvaluated) ++ evaluated)
        { a with evaluations := a.evaluations + evaluated.length } w' with
        ⟨hoffer, -⟩ | ⟨e, hoffer⟩
      · rw [hoffer] at h
        cases h
      · rw [hoffer] at h
        cases h

/-- **What a call may raise**: what the problem or the operator does, that there is no room, or that
distances are no order in the population that it leaves, unless nothing is to replace the
population. -/
theorem run_eq_fault (hcall : call ≠ .replacePopulation [])
    (h : call.run (a, w) = .error (.fault f) s) : a.Blames s.1.population f := by
  rw [run_apply] at h
  cases hadmitted : admitted call (a, w) with
  | error e t =>
    rw [hadmitted] at h
    cases h
    rcases bind_apply_eq_error.1 hadmitted with hbrought | ⟨solutions, t, hbrought, htake⟩
    · exact brought_eq_fault hcall hbrought
    · rcases brought_cases call a w with ⟨_, g, w', hbrought', -⟩ | ⟨_, _, hbrought'⟩
      · cases hbrought.symm.trans hbrought'
        exact .problem (takeIn_eq_fault (a := a.drawn g) htake)
      · cases hbrought.symm.trans hbrought'
  | ok found t =>
    rw [hadmitted] at h
    dsimp only at h
    cases hP : Population.truncate found.length (a.rivals call ++ found) with
    | error e P =>
      rw [hP] at h
      cases h
      obtain ⟨rfl, hdisordered⟩ := Population.truncate_eq_fault hP
      exact .order hdisordered
    | ok _ P =>
      rw [hP] at h
      cases h

/-! ### Parts that stay -/

/-- The algorithms have the same problem, operator and configuration. -/
structure SameParts (a b : Nsga2 ρ W D) : Prop where
  problem_eq : b.problem = a.problem
  variation_eq : b.variation = a.variation
  config_eq : b.config = a.config

omit [Generator ρ] in
theorem SameParts.trans {b c : Nsga2 ρ W D} (h : a.SameParts b) (h' : b.SameParts c) :
    a.SameParts c :=
  ⟨h'.problem_eq.trans h.problem_eq, h'.variation_eq.trans h.variation_eq,
    h'.config_eq.trans h.config_eq⟩

omit [Generator ρ] in
/-- What may be raised depends on these parts only. -/
theorem SameParts.blames {b : Nsga2 ρ W D} (h : a.SameParts b) (hb : b.Blames P f) :
    a.Blames P f := by
  obtain ⟨hproblem, hvariation, hconfig⟩ := h
  cases hb with
  | problem hf => exact .problem (hproblem ▸ hf)
  | variation hf => exact .variation (hvariation ▸ hf)
  | room hf =>
    refine .room ?_
    rwa [Overfull, hconfig, hvariation] at hf
  | order hf => exact .order hf

theorem sameParts_of_run {b : Nsga2 ρ W D} {w' : W} (h : call.run (a, w) = .ok () (b, w')) :
    a.SameParts b := by
  obtain ⟨found, g, n, P, -, -, -, -, rfl⟩ := exists_of_run_eq_ok h
  exact ⟨rfl, rfl, rfl⟩

theorem sameParts_of_run_eq_error {b : Nsga2 ρ W D} {w' : W} {e : Error}
    (h : call.run (a, w) = .error (.error e) (b, w')) : a.SameParts b := by
  rcases of_run_eq_error h with ⟨offered, g, n, -, rfl⟩ | ⟨found, g, n, P, -, -, -, -, rfl⟩
  · exact ⟨rfl, rfl, rfl⟩
  · exact ⟨rfl, rfl, rfl⟩

end Nsga2

end ParetoSearch
