import ParetoSearch.Proofs.Archive.Coverage
import ParetoSearch.Proofs.Archive.Summary

/-!
# What was offered to an archive

A reachable archive is the outcome of a history of calls. Of such a history only the
solutions count that were offered since the archive was made or last cleared and that
passed the checks: an offer that fails them changes nothing and ends the list it stands
in (`passing`). Whatever the calls were, the members are the chosen ones among those
solutions, and all of those are covered (`History.accounts`).
-/

namespace ParetoSearch.Archive

variable {D : Type} {A B : Archive D} {s : Solution D} {passed solutions : List (Solution D)}

/-! ### Solutions that pass the checks -/

/-- The solutions of a list that pass the checks when the list is offered: those before the first
that does not. -/
def passing : List (Solution D) → Archive D → List (Solution D)
  | [], _ => []
  | s :: rest, A =>
    match A.ensureFits s with
    | .ok () => s :: passing rest (leftBehind (add s A))
    | .error _ => []

theorem passing_cons_of_ok (hs : A.ensureFits s = .ok ()) (rest : List (Solution D)) :
    passing (s :: rest) A = s :: passing rest (leftBehind (add s A)) := by
  rw [passing, hs]

theorem passing_cons_of_error {e : Error} (hs : A.ensureFits s = .error e)
    (rest : List (Solution D)) : passing (s :: rest) A = [] := by
  rw [passing, hs]

/-- What has passed the checks since the archive was made or cleared, after one more call. -/
def Operation.record : Operation D → Archive D → List (Solution D) → List (Solution D)
  | .add s, A, passed => passed ++ passing [s] A
  | .addAll solutions, A, passed => passed ++ passing solutions A
  | .clear, _, _ => []

/-- The archives that calls lead to, each with the solutions that have passed the checks since it
was made or last cleared, in order. -/
inductive History : Archive D → List (Solution D) → Prop
  | ofEpsilons (ε : Epsilons) : History (ofEpsilons ε) []
  | withDimensions {ε : Epsilons} {objectives constraints : ℕ} {A : Archive D}
      (h : withDimensions ε objectives constraints = .ok A) : History A []
  | ofSnapshot {snapshot : Snapshot D} {A : Archive D} (h : ofSnapshot snapshot = .ok A) :
      History A (snapshot.entries.map Entry.toSolution)
  | run {A : Archive D} {passed : List (Solution D)} (h : History A passed)
      (operation : Operation D) : History (operation.run A) (operation.record A passed)

theorem History.reachable (h : History A passed) : A.Reachable := by
  induction h with
  | ofEpsilons ε => exact .ofEpsilons ε
  | withDimensions h => exact .withDimensions h
  | ofSnapshot h => exact .ofSnapshot h
  | run _ operation ih => exact ih.run operation

theorem Reachable.exists_history (hA : A.Reachable) : ∃ passed, History A passed := by
  induction hA with
  | ofEpsilons ε => exact ⟨_, .ofEpsilons ε⟩
  | withDimensions h => exact ⟨_, .withDimensions h⟩
  | ofSnapshot h => exact ⟨_, .ofSnapshot h⟩
  | run _ operation ih =>
    obtain ⟨passed, h⟩ := ih
    exact ⟨_, h.run operation⟩

/-! ### The members account for what passed -/

/-- The archive is sound, its members are the chosen ones of the list, and all of the list is
covered. -/
structure Accounts (A : Archive D) (passed : List (Solution D)) : Prop where
  sound : A.Sound
  summarizes : A.Summarizes passed
  covers : ∀ s ∈ passed, A.Covers s

theorem accounts_nil (h : A.members = []) : A.Accounts [] :=
  ⟨sound_of_members_eq_nil h, summarizes_nil h, by simp⟩

/-- One more solution that passes the checks is accounted for, whether it is taken or not. -/
theorem Accounts.exists_add_eq_ok (h : A.Accounts passed) (hs : A.ensureFits s = .ok ()) :
    ∃ taken B, Archive.add s A = .ok taken B ∧ B.Accounts (passed ++ [s]) := by
  have hall : ∀ {B : Archive D}, (∀ t ∈ passed, B.Covers t) → B.Covers s →
      ∀ t ∈ passed ++ [s], B.Covers t := by
    intro B hold hnew t ht
    rcases List.mem_append.1 ht with ht | ht
    · exact hold t ht
    · exact List.mem_singleton.1 ht ▸ hnew
  by_cases hrefused : A.Refuses s
  · refine ⟨false, A, h.sound.add_of_refuses hs hrefused, h.sound, ?_, ?_⟩
    · exact h.summarizes.of_refuses h.sound hs hrefused
    · exact hall h.covers (h.sound.covers_of_refuses hs hrefused)
  · obtain ⟨B, hadd, hB⟩ := h.sound.add_of_not_refuses hs hrefused
    refine ⟨true, B, hadd, h.sound.of_takes hs hrefused hB, ?_, ?_⟩
    · exact h.summarizes.of_takes h.sound hs hrefused hB
    · exact hall (fun t ht => hB.covers h.sound hs hrefused (h.covers t ht)) (hB.covers_self hs)

/-- After a list was offered, as far as it goes, what passed is accounted for too. -/
theorem Accounts.leftBehind_addAll (h : A.Accounts passed) (solutions : List (Solution D)) :
    (leftBehind (Archive.addAll solutions A)).Accounts (passed ++ passing solutions A) := by
  induction solutions generalizing A passed with
  | nil => rwa [passing, List.append_nil]
  | cons s rest ih =>
    rw [leftBehind_addAll_cons]
    cases hs : A.ensureFits s with
    | error e =>
      rw [add_of_error hs, passing_cons_of_error hs, List.append_nil]
      exact h
    | ok =>
      obtain ⟨taken, B, hadd, hB⟩ := h.exists_add_eq_ok hs
      have hrest := ih hB
      rw [passing_cons_of_ok hs, hadd]
      simpa [leftBehind] using hrest

theorem leftBehind_add (s : Solution D) (A : Archive D) :
    leftBehind (add s A) = leftBehind (addAll [s] A) := by
  rw [leftBehind_addAll_cons]
  cases add s A <;> rfl

theorem Sound.passing_eq_of_addAll_eq_ok (hA : A.Sound) {taken : ℕ}
    (h : Archive.addAll solutions A = .ok taken B) : passing solutions A = solutions := by
  induction solutions generalizing A B taken with
  | nil => rfl
  | cons s rest ih =>
    obtain ⟨first, others, C, hadd, hrest, -⟩ := addAll_cons_eq_ok_iff.1 h
    have hC : leftBehind (Archive.add s A) = C := by rw [hadd, leftBehind]
    cases hs : A.ensureFits s with
    | error e => cases (add_of_error hs).symm.trans hadd
    | ok => rw [passing_cons_of_ok hs, hC, ih (hC ▸ hA.add s) hrest]

/-- **An archive accounts for its history**: the members are the chosen ones of the solutions that
passed the checks since it was made or last cleared, and cover them all. -/
theorem History.accounts (h : History A passed) : A.Accounts passed := by
  induction h with
  | ofEpsilons ε => exact accounts_nil rfl
  | withDimensions h => exact accounts_nil (members_eq_nil_of_withDimensions h)
  | @ofSnapshot snapshot A h =>
    obtain ⟨ε, taken, hall⟩ := exists_addAll_of_ofSnapshot h
    have hempty : (Archive.ofEpsilons ε : Archive D).Accounts [] := accounts_nil rfl
    have haccounts := hempty.leftBehind_addAll (snapshot.entries.map Entry.toSolution)
    rwa [hempty.sound.passing_eq_of_addAll_eq_ok hall, hall, List.nil_append] at haccounts
  | run _ operation ih =>
    cases operation with
    | add s =>
      rw [Operation.run, leftBehind_add]
      exact ih.leftBehind_addAll [s]
    | addAll solutions => exact ih.leftBehind_addAll solutions
    | clear => exact accounts_nil rfl

end ParetoSearch.Archive
