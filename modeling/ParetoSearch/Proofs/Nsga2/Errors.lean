import ParetoSearch.Proofs.Nsga2.Validity

/-!
# What an error leaves of the population

A call of NSGA-II draws, evaluates and offers to the archive before it touches the
population, so an error up to there leaves the population alone. But then the newcomers
join the population or take its place before all are ranked, and if they cannot be ranked,
this is not taken back (`not_forall_population_eq`): a step leaves parents and children,
twice as many as there were, and a replacement leaves what it has refused.

It does not come to that if there was an archive from the start, which refuses what cannot
be ranked with what it has seen, nor if whatever came evaluated is as the problem declares
it (`population_after_error`).
-/

namespace ParetoSearch.Nsga2

variable {ρ W D : Type} [Generator ρ] {a₀ a b : Nsga2 ρ W D} {w w' : W} {call : Search.Call D}
  {given : List (Solution D)} {e : Error}

/-- If whatever came evaluated is accepted, a call can rank whatever it has brought. -/
theorem Attempts.pairwise_comparable (h : Attempts a₀ given a) (hnone : a₀.population = [])
    (hgiven : ∀ t ∈ given ++ ready call (a, w), a₀.problem.Accepts t) :
    (a.rivals call ++ newcomers call (a, w)).Pairwise Solution.Comparable := by
  have hvouched := h.vouched hnone
  rw [← h.problem_eq] at hvouched hgiven
  have haccepts : ∀ s ∈ a.rivals call ++ newcomers call (a, w), a.problem.Accepts s :=
    fun s hs => (vouched_of_mem_ranked hvouched w s hs).accepts hgiven
  exact List.pairwise_of_forall_mem_list fun s hs t ht =>
    (Problem.accepts_iff.1 (haccepts s hs)).comparable (Problem.accepts_iff.1 (haccepts t ht))

/-- **What a call leaves that ends in an error**: if it has not come to admit its newcomers, the
population as it was, with all its members, their order and their attributes. If it has, then they
could not be ranked, and the population is left with them, as many as were brought, behind their
rivals. It does not come to that if there was an archive from the start, or if the problem accepts
all solutions that came evaluated to this call and to the earlier ones. -/
theorem population_after_error (h : Attempts a₀ given a) (hnone : a₀.population = [])
    (hrun : call.run (a, w) = .error (.error e) (b, w')) :
    ((∃ f s, admitted call (a, w) = .error f s) → b.population = a.population) ∧
    (∀ found s, admitted call (a, w) = .ok found s → found.length = a.room call ∧
      b.population = a.rivals call ++ found ∧ ¬b.population.Pairwise Solution.Comparable) ∧
    ((∃ A, a₀.archive = some A ∧ A.Reachable) ∨
        (∀ t ∈ given ++ ready call (a, w), a₀.problem.Accepts t) →
      b.population = a.population) := by
  rcases population_of_run_eq_error hrun with
    ⟨hrefused, hsame⟩ | ⟨⟨s, hadmitted⟩, hroom, hjoined, hnot⟩
  · refine ⟨fun _ => hsame, fun found s hadmitted => ?_, fun _ => hsame⟩
    cases hrefused.symm.trans hadmitted
  · refine ⟨?_, ?_, ?_⟩
    · rintro ⟨f, s, hrefused⟩
      cases hrefused.symm.trans hadmitted
    · intro found s hfound
      cases hadmitted.symm.trans hfound
      exact ⟨hroom, hjoined, hnot⟩
    · rintro (⟨A, hA, hreachable⟩ | hgiven)
      · obtain ⟨offered, g, n, rfl⟩ := (h.remembers hnone hA hreachable.sound).of_run_eq_error hrun
        rfl
      · exact absurd (h.pairwise_comparable hnone hgiven) (hjoined ▸ hnot)

open Rehearsal

/-- An operator whose children come evaluated, with one objective each. -/
def shortChildren : Variation ChaCha Stage (List Float) :=
  playback 1 1 [Solution.ofEvaluation [5.0] ⟨[1.0], []⟩] 0

/-- Without an archive a second step with such children fails, and the population of two is left
with four members. -/
theorem not_forall_population_eq : ¬∀ (entropy : UInt64) (config : Nsga2Config)
    (a₀ a b : Nsga2 ChaCha Stage (List Float)) (given : List (Solution (List Float)))
    (call : Search.Call (List Float)) (w w' : Stage) (e : Error),
    Nsga2.ofConfig entropy twoObjectives shortChildren config = .ok a₀ → Attempts a₀ given a →
    call.run (a, w) = .error (.error e) (b, w') → b.population = a.population := by
  intro hall
  have hends : (firstCall (Nsga2.ofConfig 0 twoObjectives shortChildren { populationSize := 2 })
      .step ({} : Stage)).any (fun s =>
        s.1.population.length == 2 && match Search.Call.step.run s with
        | .error (.error _) t => t.1.population.length == 4
        | _ => false) = true := by decide +kernel
  obtain ⟨a₀, s, ha₀, hstart, hends⟩ := exists_of_firstCall hends
  simp only [Bool.and_eq_true, beq_iff_eq] at hends
  obtain ⟨htwo, hends⟩ := hends
  split at hends
  next e t hrun =>
    have hsame := hall 0 _ a₀ s.1 t.1 _ _ s.2 t.2 e ha₀ (Attempts.start.call .step hstart) hrun
    rw [hsame, htwo] at hends
    cases hends
  next => cases hends

/-- An archive refuses such children, and the population stays as it was. -/
theorem population_after_error_of_refused : ∃ (a₀ a b : Nsga2 ChaCha Stage (List Float))
    (A : Archive (List Float)) (given : List (Solution (List Float))) (w w' : Stage) (e : Error),
    Attempts a₀ given a ∧ a₀.population = [] ∧ a₀.archive = some A ∧ A.Reachable ∧
    Search.Call.step.run (a, w) = .error (.error e) (b, w') ∧ a.population.length = 2 ∧
    b.population = a.population := by
  let A := forTwo ⟨[1.0], by decide, by decide⟩
  have hends : (firstCall ((Nsga2.ofConfig 0 twoObjectives shortChildren
      { populationSize := 2 }).map (·.withArchive A)) .step ({} : Stage)).any (fun s =>
        s.1.population.length == 2 && match Search.Call.step.run s with
        | .error (.error _) _ => true
        | _ => false) = true := by decide +kernel
  obtain ⟨a₀, s, ha₀, hstart, hends⟩ := exists_of_firstCall hends
  obtain ⟨a₁, ha₁, rfl⟩ := map_eq_ok.1 ha₀
  obtain ⟨-, -, rfl⟩ := ofConfig_eq_ok.1 ha₁
  simp only [Bool.and_eq_true, beq_iff_eq] at hends
  obtain ⟨htwo, hends⟩ := hends
  split at hends
  next e t hrun =>
    have h := Attempts.start.call .step hstart
    have harchive : A.Reachable := reachable_forTwo _
    exact ⟨_, s.1, t.1, A, _, s.2, t.2, e, h, rfl, rfl, harchive, hrun, htwo,
      (population_after_error h rfl hrun).2.2 (.inl ⟨A, rfl, harchive⟩)⟩
  next => cases hends

end ParetoSearch.Nsga2
