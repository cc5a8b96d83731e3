import ParetoSearch.Proofs.EpsilonNsga2.Coverage

/-!
# Budgets

An NSGA-II, bare or under adaptive continuation, takes back no evaluations. So its runs
are loops that stop, whatever the budget and the flag: there are at most as many steps
as evaluations are left, and it can be told from what is left how a run has ended
(`runs_stop`). And a budget can be split: to use up a part of it first changes nothing
(`budgets_split`).
-/

namespace ParetoSearch.EpsilonNsga2

open Search (Stops)

variable {ρ W D : Type} [Generator ρ]

/-- **Runs stop**: from every state of an NSGA-II, bare or under adaptive continuation, a run is the
loop that it stands for and is not cut off. It takes at most as many steps as evaluations are left
of the budget, each of them started with some left. If it succeeds, it tells the evaluations and
steps that it leaves, and it ends in one way only: the budget is used up, the flag has been seen
raised with evaluations left, or the last step has used none. -/
theorem runs_stop :
    (∀ (flag : Option (StateM W Bool)) (budget : ℕ) (s : Nsga2 ρ W D × W),
      ∃ started, Stops flag budget s started) ∧
    ∀ (flag : Option (StateM W Bool)) (budget : ℕ) (s : EpsilonNsga2 ρ W D × W),
      ∃ started, Stops flag budget s started :=
  ⟨Search.exists_stops, Search.exists_stops⟩

/-- **Budgets can be split**: if a run of an NSGA-II, bare or under adaptive continuation, has used
up its budget, then a run with a larger budget from there on ends as it would have ended from the
start, in the same state and with the same outcome or failure. -/
theorem budgets_split :
    (∀ {m n : ℕ} {s t : Nsga2 ρ W D × W} {o : Search.Outcome}, m ≤ n →
      Search.run m s = .ok (some o) t → m ≤ o.evaluations →
        Search.run n t = Search.run n s ∧ ∀ u, Search.run n s ≠ .ok none u) ∧
    ∀ {m n : ℕ} {s t : EpsilonNsga2 ρ W D × W} {o : Search.Outcome}, m ≤ n →
      Search.run m s = .ok (some o) t → m ≤ o.evaluations →
        Search.run n t = Search.run n s ∧ ∀ u, Search.run n s ≠ .ok none u := by
  constructor
  · intro m n s t o hmn hrun hspent
    obtain ⟨started, hstops⟩ := Search.exists_stops none n s
    exact ⟨Search.runUnlessCancelled_of_spent hmn hrun hspent, hstops.ne_none⟩
  · intro m n s t o hmn hrun hspent
    obtain ⟨started, hstops⟩ := Search.exists_stops none n s
    exact ⟨Search.runUnlessCancelled_of_spent hmn hrun hspent, hstops.ne_none⟩

open Rehearsal

/-- Both runs take two steps and use more evaluations than they may, the second one for a
rebuild. -/
theorem budgets_split_of_overshoot : ∃ (a₀ : Nsga2 ChaCha Stage (List Float))
    (c₀ : EpsilonNsga2 ChaCha Stage (List Float)) (s : Nsga2 ChaCha Stage (List Float) × Stage)
    (t : EpsilonNsga2 ChaCha Stage (List Float) × Stage) (o p : Search.Outcome),
    Nsga2.ofConfig 0 twoCorners (shift 1 [1.0]) { populationSize := 2 } = .ok a₀ ∧
    Search.run 3 (a₀, ({} : Stage)) = .ok (some o) s ∧ o.evaluations = 4 ∧
    Search.run 9 s = Search.run 9 (a₀, ({} : Stage)) ∧
    ofPerturbation 0 twoCorners (shift 1 [1.0]) (shift 1 [-0.25]) checkingPairs = .ok c₀ ∧
    Search.run 5 (c₀, ({} : Stage)) = .ok (some p) t ∧ p.evaluations = 6 ∧
    t.1.progress.resizes.length = 1 ∧ Search.run 9 t = Search.run 9 (c₀, ({} : Stage)) := by
  have hbare : (Search.reached
      (Nsga2.ofConfig 0 twoCorners (shift 1 [1.0]) { populationSize := 2 }) (Search.run 3) {}).any
      (fun r => r.1.any (·.evaluations == 4)) = true := by decide +kernel
  have hends : (Search.reached
      (ofPerturbation 0 twoCorners (shift 1 [1.0]) (shift 1 [-0.25]) checkingPairs)
      (Search.run 5) {}).any (fun r =>
        r.1.any (·.evaluations == 6) && r.2.1.progress.resizes.length == 1) = true := by
    decide +kernel
  obtain ⟨a₀, _, s, ha₀, hfirst, hbare⟩ := Search.exists_of_reached hbare
  obtain ⟨c₀, _, t, hc₀, hsecond, hends⟩ := Search.exists_of_reached hends
  simp only [Bool.and_eq_true, Option.any_eq_true, beq_iff_eq] at hbare hends
  obtain ⟨o, rfl, ho⟩ := hbare
  obtain ⟨⟨p, rfl, hp⟩, hresizes⟩ := hends
  have hsplit := (budgets_split (ρ := ChaCha)).1 (n := 9) (by decide) hfirst (by omega)
  have hsplit' := (budgets_split (ρ := ChaCha)).2 (n := 9) (by decide) hsecond (by omega)
  exact ⟨a₀, c₀, s, t, o, p, ha₀, hfirst, ho, hsplit.1, hc₀, hsecond, hp, hresizes, hsplit'.1⟩

end ParetoSearch.EpsilonNsga2
