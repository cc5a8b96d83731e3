import ParetoSearch.Proofs.Archive.PlainRule

/-!
# Reachable archives

An archive is reachable if it was made in one of the three ways and then left behind by
any calls that change archives, among them calls that fail. All of them come down to
offers, so what every offer keeps holds of reachable archives (`Reachable.of_add`). An
offer leaves a sound archive sound (`Sound.add`), so every reachable archive is sound
(`Reachable.sound`): its members stand in their own boxes and are not better than each
other (`Reachable.members_incomparable`), and solutions are added to it by the plain
rule (`Reachable.add_iff_plain_rule`).
-/

namespace ParetoSearch.Archive

variable {D : Type} {A B : Archive D} {s : Solution D}

/-- A call that may change an archive. -/
inductive Operation (D : Type) where
  | add (s : Solution D)
  | addAll (solutions : List (Solution D))
  | clear

/-- The archive that a call leaves behind, also if it fails. -/
def leftBehind {α : Type} : EStateM.Result Error (Archive D) α → Archive D
  | .ok _ A => A
  | .error _ A => A

/-- The archive after a call. -/
def Operation.run : Operation D → Archive D → Archive D
  | .add s, A => leftBehind (Archive.add s A)
  | .addAll solutions, A => leftBehind (Archive.addAll solutions A)
  | .clear, A => A.clear

/-- The archives that calls lead to, from those that can be made. -/
inductive Reachable : Archive D → Prop
  | ofEpsilons (ε : Epsilons) : Reachable (ofEpsilons ε)
  | withDimensions {ε : Epsilons} {objectives constraints : ℕ} {A : Archive D}
      (h : withDimensions ε objectives constraints = .ok A) : Reachable A
  | ofSnapshot {snapshot : Snapshot D} {A : Archive D} (h : ofSnapshot snapshot = .ok A) :
      Reachable A
  | run {A : Archive D} (h : Reachable A) (operation : Operation D) : Reachable (operation.run A)

/-! ### Calls leave archives sound -/

theorem Sound.add (hA : A.Sound) (s : Solution D) : (leftBehind (add s A)).Sound := by
  cases hs : A.ensureFits s with
  | error e => rwa [add_of_error hs]
  | ok =>
    by_cases h : A.Refuses s
    · rwa [hA.add_of_refuses hs h]
    · obtain ⟨B, hadd, hB⟩ := hA.add_of_not_refuses hs h
      rw [hadd]
      exact hA.of_takes hs h hB

theorem leftBehind_addAll_cons (s : Solution D) (rest : List (Solution D)) (A : Archive D) :
    leftBehind (addAll (s :: rest) A) =
      match Archive.add s A with
      | .ok _ B => leftBehind (addAll rest B)
      | .error _ B => B := by
  cases hadd : Archive.add s A with
  | error e B => rw [addAll_cons_of_error hadd, leftBehind]
  | ok taken B =>
    show _ = leftBehind (addAll rest B)
    cases hrest : addAll rest B with
    | error e C => rw [(addAll_cons_eq_error_iff hadd).2 hrest]
    | ok others C =>
      rw [addAll_cons_eq_ok_iff.2 ⟨taken, others, B, hadd, hrest, rfl⟩]
      rfl

/-- What every offer keeps is kept when a list is offered. -/
theorem leftBehind_addAll_of_add {P : Archive D → Prop}
    (hadd : ∀ (A : Archive D) (s : Solution D), P A → P (leftBehind (Archive.add s A)))
    (solutions : List (Solution D)) (hA : P A) : P (leftBehind (Archive.addAll solutions A)) := by
  induction solutions generalizing A with
  | nil => exact hA
  | cons s rest ih =>
    have hleft := hadd A s hA
    rw [leftBehind_addAll_cons]
    cases h : Archive.add s A with
    | error e B => rwa [h] at hleft
    | ok taken B =>
      rw [h] at hleft
      exact ih hleft

theorem Sound.addAll (hA : A.Sound) (solutions : List (Solution D)) :
    (leftBehind (addAll solutions A)).Sound :=
  leftBehind_addAll_of_add (fun _ s hA => hA.add s) solutions hA

theorem objectives_pos_of_withDimensions {ε : Epsilons} {objectives constraints : ℕ} {A : Archive D}
    (h : withDimensions ε objectives constraints = .ok A) : 0 < objectives := by
  unfold withDimensions at h
  split_ifs at h with hzero
  exact Nat.pos_of_ne_zero hzero

theorem members_eq_nil_of_withDimensions {ε : Epsilons} {objectives constraints : ℕ}
    (h : withDimensions ε objectives constraints = .ok A) : A.members = [] := by
  unfold withDimensions at h
  split_ifs at h
  rw [← Except.ok.inj h]

/-- An archive is made from a snapshot by offering the entries to an empty one, without an error. -/
theorem exists_addAll_of_ofSnapshot {snapshot : Snapshot D} (h : ofSnapshot snapshot = .ok A) :
    ∃ ε taken, addAll (snapshot.entries.map Entry.toSolution) (ofEpsilons ε) = .ok taken A := by
  obtain ⟨E, hE, h⟩ := bind_eq_ok.1 h
  obtain ⟨ε, -, hε⟩ := bind_eq_ok.1 hE
  obtain rfl : ofEpsilons ε = E := Except.ok.inj hε
  cases hall : addAll (snapshot.entries.map Entry.toSolution) (ofEpsilons ε) with
  | error e B =>
    rw [hall] at h
    cases h
  | ok taken B =>
    rw [hall] at h
    obtain rfl : B = A := Except.ok.inj h
    exact ⟨ε, taken, hall⟩

/-- An archive made from a snapshot is what offering its entries to an empty one leaves behind. -/
theorem exists_leftBehind_of_ofSnapshot {snapshot : Snapshot D} (h : ofSnapshot snapshot = .ok A) :
    ∃ ε, A = leftBehind (addAll (snapshot.entries.map Entry.toSolution) (ofEpsilons ε)) := by
  obtain ⟨ε, taken, hall⟩ := exists_addAll_of_ofSnapshot h
  exact ⟨ε, by rw [hall, leftBehind]⟩

/-- What holds of new archives and is kept by every offer and by clearing holds of every reachable
archive. -/
theorem Reachable.of_add {P : Archive D → Prop} (hnew : ∀ ε, P (Archive.ofEpsilons ε))
    (hdimensions : ∀ {ε : Epsilons} {objectives constraints : ℕ} {A : Archive D},
      Archive.withDimensions ε objectives constraints = .ok A → P A)
    (hadd : ∀ (A : Archive D) (s : Solution D), P A → P (leftBehind (Archive.add s A)))
    (hclear : ∀ A : Archive D, P A → P A.clear) (hA : A.Reachable) : P A := by
  induction hA with
  | ofEpsilons ε => exact hnew ε
  | withDimensions h => exact hdimensions h
  | ofSnapshot h =>
    obtain ⟨ε, rfl⟩ := exists_leftBehind_of_ofSnapshot h
    exact leftBehind_addAll_of_add hadd _ (hnew ε)
  | run _ operation ih =>
    cases operation with
    | add s => exact hadd _ s ih
    | addAll solutions => exact leftBehind_addAll_of_add hadd solutions ih
    | clear => exact hclear _ ih

theorem Reachable.sound (hA : A.Reachable) : A.Sound :=
  hA.of_add (fun _ => sound_of_members_eq_nil rfl)
    (fun h => sound_of_members_eq_nil (members_eq_nil_of_withDimensions h))
    (fun _ s hA => hA.add s) (fun _ _ => sound_of_members_eq_nil rfl)

/-! ### What holds of reachable archives -/

/-- **Members are not better than each other**: in every reachable archive, each member stands under
the key of its own box, alone, has the fixed numbers of objectives and constraints and finite
values, and the comparison of any two members finds neither better. -/
theorem Reachable.members_incomparable (hA : A.Reachable) :
    A.members.Ascending ∧
    (∀ p ∈ A.members, p.1 = A.boxKey p.2.objectives ∧
      A.objectives = some p.2.objectives.length ∧
      A.constraints = some p.2.constraints.length ∧ p.2.AllFinite) ∧
    ∀ p ∈ A.members, ∀ q ∈ A.members, A.comparison p.2 q.2 = .ok .neither := by
  have hA := hA.sound
  refine ⟨hA.ascending, fun p hp => ⟨hA.key_eq p hp, ?_⟩, fun p hp q hq => ?_⟩
  · obtain ⟨m, c, hm, hc, rfl, rfl, hfinite⟩ := hA.fits p hp
    exact ⟨hm, hc, hfinite⟩
  · refine (Epsilons.comparison_eq_neither_iff ((hA.fits p hp).comparable (hA.fits q hq))).2 ?_
    exact ⟨hA.not_lt p hp q hq, hA.not_lt q hq p hp⟩

/-- Two solutions in boxes of which neither is better are kept both. -/
theorem Reachable.members_incomparable_of_two : ∃ A : Archive Unit, A.Reachable ∧
    A.members.length = 2 ∧
    ∀ p ∈ A.members, ∀ q ∈ A.members, A.comparison p.2 q.2 = .ok .neither := by
  have hA : ((Operation.addAll [Solution.ofEvaluation () ⟨[0.5, 2.5], []⟩,
      Solution.ofEvaluation () ⟨[2.5, 0.5], []⟩]).run
        (Archive.ofEpsilons ⟨[1.0], by decide, by decide⟩)).Reachable := .run (.ofEpsilons _) _
  exact ⟨_, hA, by decide +kernel, (Reachable.members_incomparable hA).2.2⟩

/-- **Solutions are added by the plain rule**: a solution that passes the checks is refused, and
leaves the archive unchanged, exactly if a member is better, or holds its box with the same
violation and is no further from the corner; otherwise it is taken. -/
theorem Reachable.add_iff_plain_rule (hA : A.Reachable) (hs : A.ensureFits s = .ok ()) :
    (Archive.add s A = .ok false A ↔ A.Refuses s) ∧
      (¬A.Refuses s → ∃ B, Archive.add s A = .ok true B ∧ A.Takes s B) := by
  have hA := hA.sound
  refine ⟨⟨fun hadd => ?_, hA.add_of_refuses hs⟩, hA.add_of_not_refuses hs⟩
  by_contra h
  obtain ⟨B, hadd', -⟩ := hA.add_of_not_refuses hs h
  simp [hadd] at hadd'

/-- A solution that is closer to the corner of an occupied box passes the checks. -/
theorem Reachable.add_iff_plain_rule_of_occupied : ∃ (A : Archive Unit) (s t : Solution Unit),
    A.Reachable ∧ A.members.find? (A.boxKey s.objectives) = some t ∧ A.ensureFits s = .ok () ∧
    (Archive.add s A = .ok false A ↔ A.Refuses s) ∧
      (¬A.Refuses s → ∃ B, Archive.add s A = .ok true B ∧ A.Takes s B) := by
  have hA : ((Operation.add (Solution.ofEvaluation () ⟨[0.75, 0.75], [0.0]⟩)).run
      (Archive.ofEpsilons ⟨[1.0], by decide, by decide⟩)).Reachable := .run (.ofEpsilons _) _
  have hs : ((Operation.add (Solution.ofEvaluation () ⟨[0.75, 0.75], [0.0]⟩)).run
      (Archive.ofEpsilons ⟨[1.0], by decide, by decide⟩)).ensureFits
        (Solution.ofEvaluation () ⟨[0.25, 0.25], [0.0]⟩) = .ok () := by decide +kernel
  exact ⟨_, _, Solution.ofEvaluation () ⟨[0.75, 0.75], [0.0]⟩, hA, by decide +kernel, hs,
    Reachable.add_iff_plain_rule hA hs⟩

end ParetoSearch.Archive
