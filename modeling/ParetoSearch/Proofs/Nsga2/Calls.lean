import ParetoSearch.Nsga2
import ParetoSearch.Proofs.Archive.Reachable
import ParetoSearch.Proofs.Continuation.Passages

/-!
# What a call of NSGA-II does

A step and a replacement of the population do the same in three stages: solutions are
brought (`brought`), they are evaluated and offered to the archive (`admitted`), and then
as many as were brought are kept of them and their rivals, the members that compete with
them (`run_apply`). Only the first two stages may leave anything else than the population
changed, and they do not touch it, so a call that ends in an error there has at most drawn,
evaluated and offered something. An error behind them is one of the choice, and then the
newcomers were admitted (`of_run_eq_error`).
-/

namespace ParetoSearch

variable {ρ W D α : Type}

/-! ### Evaluations -/

namespace Problem

variable {p : Problem ρ W D} {solutions found : List (Solution D)} {verdict : Except Error Unit}
  {w w' : W}

theorem map_decision_of_evaluateAll (h : p.evaluateAll solutions w = .ok (found, verdict) w') :
    found.map Solution.decision = solutions.map Solution.decision := by
  induction solutions generalizing w w' found verdict with
  | nil =>
    obtain ⟨heq, -⟩ := pure_apply_eq_ok.1 h
    cases heq
    rfl
  | cons s rest ih =>
    obtain ⟨⟨s', v⟩, _, hfirst, h⟩ := bind_apply_eq_ok.1 h
    obtain ⟨e, _, -, hfirst⟩ := bind_apply_eq_ok.1 hfirst
    obtain ⟨hs', -⟩ := pure_apply_eq_ok.1 hfirst
    obtain ⟨rfl, -⟩ := Prod.mk.inj hs'
    dsimp only at h
    cases v with
    | error e =>
      obtain ⟨heq, -⟩ := pure_apply_eq_ok.1 h
      cases heq
      rfl
    | ok =>
      obtain ⟨⟨others, v⟩, _, hrest, h⟩ := bind_apply_eq_ok.1 h
      obtain ⟨heq, -⟩ := pure_apply_eq_ok.1 h
      cases heq
      simp [ih hrest]

theorem length_of_evaluateAll (h : p.evaluateAll solutions w = .ok (found, verdict) w') :
    found.length = solutions.length := by
  simpa using congrArg List.length (map_decision_of_evaluateAll h)

end Problem

namespace Nsga2

/-! ### Single operations -/

/-- The algorithm after draws that have left this generator. -/
@[simps]
def drawn (a : Nsga2 ρ W D) (g : ρ) : Nsga2 ρ W D := { a with generator := g }

theorem drawing_apply (x : EStateM Fault (ρ × W) α) (a : Nsga2 ρ W D) (w : W) :
    drawing x (a, w) =
      match x (a.generator, w) with
      | .ok b (g, w) => .ok b (a.drawn g, w)
      | .error f (g, w) => .error (.fault f) (a.drawn g, w) := by
  unfold drawing focus EStateM.adaptExcept
  dsimp only
  cases x (a.generator, w) <;> rfl

/-- Draws succeed with the algorithm's generator or not at all. -/
theorem drawing_eq_ok {x : EStateM Fault (ρ × W) α} {a b : Nsga2 ρ W D} {w w' : W} {r : α} :
    drawing x (a, w) = .ok r (b, w') ↔ ∃ g, x (a.generator, w) = .ok r (g, w') ∧ a.drawn g = b := by
  rw [drawing_apply]
  cases x (a.generator, w) <;> grind

theorem onPopulation_apply (x : EStateM Failure (Population D) α) (a : Nsga2 ρ W D) (w : W) :
    onPopulation x (a, w) =
      match x a.population with
      | .ok b P => .ok b ({ a with population := P }, w)
      | .error e P => .error e ({ a with population := P }, w) := by
  unfold onPopulation focus
  dsimp only
  cases x a.population <;> rfl

/-- The algorithm after `n` more evaluations and offers to its archive. -/
@[simps]
def fed (a : Nsga2 ρ W D) (n : ℕ) (offered : List (Solution D)) : Nsga2 ρ W D :=
  { a with
    evaluations := a.evaluations + n
    archive := a.archive.map fun A => Archive.leftBehind (Archive.addAll offered A) }

theorem fed_zero_nil (a : Nsga2 ρ W D) : a.fed 0 [] = a := by
  have hmap : a.archive.map (fun A => Archive.leftBehind (Archive.addAll [] A)) = a.archive :=
    Option.map_id'
  rw [fed, hmap]
  rfl

/-- The ends of offering solutions to the archive. -/
theorem offer_cases (solutions : List (Solution D)) (a : Nsga2 ρ W D) (w : W) :
    (offer solutions (a, w) = .ok () (a.fed 0 solutions, w) ∧
      ∀ A, a.archive = some A → ∃ taken B, Archive.addAll solutions A = .ok taken B) ∨
    ∃ e, offer solutions (a, w) = .error (.error e) (a.fed 0 solutions, w) := by
  unfold offer focus EStateM.adaptExcept fed
  dsimp only
  cases a.archive with
  | none => exact .inl ⟨rfl, by simp⟩
  | some A =>
    simp only [Archive.offerAll, Option.map_some]
    cases hall : Archive.addAll solutions A with
    | ok taken B => exact .inl ⟨rfl, by simp [hall]⟩
    | error e B => exact .inr ⟨e, rfl⟩

/-- Offering succeeds if there is no archive, or it takes or refuses each solution without an
error. -/
theorem offer_eq_ok {solutions : List (Solution D)} {a : Nsga2 ρ W D} {w : W}
    {s : Nsga2 ρ W D × W} :
    offer solutions (a, w) = .ok () s ↔
      (∀ A, a.archive = some A → ∃ taken B, Archive.addAll solutions A = .ok taken B) ∧
        (a.fed 0 solutions, w) = s := by
  unfold offer focus EStateM.adaptExcept fed
  dsimp only
  cases a.archive with
  | none => simp [Archive.offerAll]
  | some A =>
    simp only [Archive.offerAll, Option.map_some]
    cases hall : Archive.addAll solutions A with
    | ok taken B => simp [hall, Archive.leftBehind]
    | error e B => simp [hall]

theorem evaluating_apply (x : EStateM Fault W α) (a : Nsga2 ρ W D) (w : W) :
    (onSecond (EStateM.adaptExcept .fault x) : EStateM Failure (Nsga2 ρ W D × W) α) (a, w) =
      match x w with
      | .ok b w => .ok b (a, w)
      | .error f w => .error (.fault f) (a, w) := by
  unfold onSecond focus EStateM.adaptExcept
  dsimp only
  cases x w <;> rfl

/-- Solutions are taken in if all of them that are not yet evaluated are evaluated as declared, and
the archive takes or refuses all without an error. -/
theorem takeIn_eq_ok {solutions found : List (Solution D)} {a b : Nsga2 ρ W D} {w w' : W} :
    takeIn solutions (a, w) = .ok found (b, w') ↔
      ∃ evaluated,
        a.problem.evaluateAll (solutions.filter (Bool.not ∘ (·.isEvaluated))) w =
          .ok (evaluated, .ok ()) w' ∧
        found = solutions.filter (·.isEvaluated) ++ evaluated ∧
        (∀ A, a.archive = some A → ∃ taken B, Archive.addAll found A = .ok taken B) ∧
        b = a.fed evaluated.length found := by
  simp only [takeIn, List.partition_eq_filter_filter, bind_apply, get_apply, evaluating_apply]
  cases hfound : a.problem.evaluateAll (solutions.filter (Bool.not ∘ (·.isEvaluated))) w with
  | error f w' => simp
  | ok r w₁ =>
    obtain ⟨evaluated, verdict⟩ := r
    cases verdict with
    | error e => simp [error_apply]
    | ok =>
      simp only [error_apply, modify_apply]
      constructor
      · intro h
        obtain ⟨_, s, hoffer, h⟩ := bind_apply_eq_ok.1 h
        obtain ⟨hall, rfl⟩ := offer_eq_ok.1 hoffer
        obtain ⟨rfl, heq⟩ := pure_apply_eq_ok.1 h
        cases heq
        exact ⟨evaluated, rfl, rfl, hall, rfl⟩
      · rintro ⟨_, heq, rfl, hall, rfl⟩
        cases heq
        exact bind_apply_of_ok (offer_eq_ok.2 ⟨hall, rfl⟩)

/-- The ends of taking in solutions. -/
theorem takeIn_cases (solutions : List (Solution D)) (a : Nsga2 ρ W D) (w : W) :
    (∃ found n w', takeIn solutions (a, w) = .ok found (a.fed n found, w') ∧
      found.length = solutions.length ∧
      ∀ A, a.archive = some A → ∃ taken B, Archive.addAll found A = .ok taken B) ∨
    (∃ e offered n w', takeIn solutions (a, w) = .error (.error e) (a.fed n offered, w')) ∨
    ∃ f s, takeIn solutions (a, w) = .error (.fault f) s := by
  simp only [takeIn, List.partition_eq_filter_filter, bind_apply, get_apply, evaluating_apply]
  cases hfound : a.problem.evaluateAll (solutions.filter (Bool.not ∘ (·.isEvaluated))) w with
  | error f w' => exact .inr (.inr ⟨f, _, rfl⟩)
  | ok r w' =>
    obtain ⟨evaluated, verdict⟩ := r
    dsimp only
    cases verdict with
    | error e =>
      refine .inr (.inl ⟨e, [], 0, w', ?_⟩)
      rw [fed_zero_nil]
      rfl
    | ok =>
      simp only [error_apply, modify_apply]
      have hlength : (solutions.filter (·.isEvaluated) ++ evaluated).length = solutions.length := by
        rw [List.length_append, Problem.length_of_evaluateAll hfound]
        exact (List.length_eq_length_filter_add _).symm
      rcases offer_cases (solutions.filter (·.isEvaluated) ++ evaluated)
        { a with evaluations := a.evaluations + evaluated.length } w' with
        ⟨hoffer, hall⟩ | ⟨e, hoffer⟩
      · refine .inl ⟨_, evaluated.length, w', ?_, hlength, hall⟩
        simp only [hoffer]
        rfl
      · refine .inr (.inl
          ⟨e, solutions.filter (·.isEvaluated) ++ evaluated, evaluated.length, w', ?_⟩)
        simp only [hoffer]
        rfl

/-- Solutions that are installed are rivals of each other only. -/
theorem install_apply (solutions : List (Solution D)) (a : Nsga2 ρ W D) (w : W) :
    install solutions (a, w) =
      match takeIn solutions (a, w) with
      | .error e s => .error e s
      | .ok found (b, w') =>
        match Population.truncate found.length found with
        | .error e P => .error e ({ b with population := P }, w')
        | .ok _ P => .ok () ({ b with population := P, started := true }, w') := by
  simp only [install, bind_apply]
  cases takeIn solutions (a, w) with
  | error e s => rfl
  | ok found s =>
    obtain ⟨b, w'⟩ := s
    simp only [onPopulation_apply, bind_apply, set_apply]
    cases Population.truncate found.length found with
    | error e P => rfl
    | ok _ P => rfl

/-! ### Calls -/

variable [Generator ρ]

/-- The solutions that a call brings. -/
def brought : Search.Call D → EStateM Failure (Nsga2 ρ W D × W) (List (Solution D))
  | .step => do
    let (a, _) ← get
    if a.started then drawing (fill a.brood a.problem.create a.population.length [])
    else
      ensureRoom Population.capacity a.config.populationSize
      drawing (a.problem.createMany a.config.populationSize)
  | .replacePopulation solutions => do
    if solutions.isEmpty then throw (.fault .emptyReplacement)
    return solutions

/-- How many solutions a call brings. -/
def room (a : Nsga2 ρ W D) : Search.Call D → ℕ
  | .step => if a.started then a.population.length else a.config.populationSize
  | .replacePopulation solutions => solutions.length

/-- The members with which the solutions that a call brings compete. -/
def rivals (a : Nsga2 ρ W D) : Search.Call D → Population D
  | .step => if a.started then a.population else []
  | .replacePopulation _ => []

/-- The solutions that a call brings, evaluated and offered to the archive. -/
def admitted (call : Search.Call D) : EStateM Failure (Nsga2 ρ W D × W) (List (Solution D)) := do
  takeIn (← brought call)

/-- The algorithm with the population that a call has chosen. -/
@[simps]
def settled (a : Nsga2 ρ W D) (P : Population D) (call : Search.Call D) : Nsga2 ρ W D :=
  { a with
    population := P
    started := true
    steps := a.steps + match call with
      | .step => 1
      | .replacePopulation _ => 0 }

/-- A step brings children, and the first one random decisions. -/
theorem brought_step_eq_ok {solutions : List (Solution D)} {a : Nsga2 ρ W D} {w : W}
    {s : Nsga2 ρ W D × W} :
    brought .step (a, w) = .ok solutions s ↔
      if a.started then
        drawing (fill a.brood a.problem.create a.population.length []) (a, w) = .ok solutions s
      else
        a.config.populationSize ≤ Population.capacity ∧
          drawing (a.problem.createMany a.config.populationSize) (a, w) = .ok solutions s := by
  simp only [brought, bind_apply, get_apply]
  by_cases hstarted : a.started
  · rw [if_pos hstarted, if_pos hstarted]
  · rw [if_neg hstarted, if_neg hstarted, bind_apply, fault_apply, ← ensureRoom_eq_ok]
    cases ensureRoom Population.capacity a.config.populationSize with
    | error f => simp
    | ok => simp

theorem brought_cases (call : Search.Call D) (a : Nsga2 ρ W D) (w : W) :
    (∃ solutions g w', brought call (a, w) = .ok solutions (a.drawn g, w') ∧
      solutions.length = a.room call) ∨
    ∃ f s, brought call (a, w) = .error (.fault f) s := by
  cases call with
  | step =>
    simp only [brought, bind_apply, get_apply, room]
    by_cases hstarted : a.started
    · rw [if_pos hstarted, if_pos hstarted, drawing_apply]
      split
      next solutions g w' h => exact .inl ⟨_, g, w', rfl, length_of_fill h⟩
      next f g w' h => exact .inr ⟨f, _, rfl⟩
    · rw [if_neg hstarted, if_neg hstarted, bind_apply, fault_apply]
      cases ensureRoom Population.capacity a.config.populationSize with
      | error f => exact .inr ⟨f, _, rfl⟩
      | ok =>
        simp only [drawing_apply]
        split
        next solutions g w' h => exact .inl ⟨_, g, w', rfl, Problem.length_of_createMany h⟩
        next f g w' h => exact .inr ⟨f, _, rfl⟩
  | replacePopulation solutions =>
    cases solutions with
    | nil => exact .inr ⟨_, _, rfl⟩
    | cons s rest => exact .inl ⟨_, _, _, rfl, rfl⟩

/-- The ends of bringing solutions and taking them in. -/
theorem admitted_cases (call : Search.Call D) (a : Nsga2 ρ W D) (w : W) :
    (∃ found g n w', admitted call (a, w) = .ok found ((a.drawn g).fed n found, w') ∧
      found.length = a.room call ∧
      ∀ A, a.archive = some A → ∃ taken B, Archive.addAll found A = .ok taken B) ∨
    (∃ e offered g n w', admitted call (a, w) =
      .error (.error e) ((a.drawn g).fed n offered, w')) ∨
    ∃ f s, admitted call (a, w) = .error (.fault f) s := by
  simp only [admitted, bind_apply]
  rcases brought_cases call a w with ⟨solutions, g, w₁, hbrought, hlength⟩ | ⟨f, s, hbrought⟩
  · simp only [hbrought]
    rcases takeIn_cases solutions (a.drawn g) w₁ with
      ⟨found, n, w', htake, hfound, hall⟩ | ⟨e, offered, n, w', htake⟩ | ⟨f, s, htake⟩
    · exact .inl ⟨found, g, n, w', htake, hfound.trans hlength, hall⟩
    · exact .inr (.inl ⟨e, offered, g, n, w', htake⟩)
    · exact .inr (.inr ⟨f, s, htake⟩)
  · simp only [hbrought]
    exact .inr (.inr ⟨f, s, rfl⟩)

theorem start_apply (a : Nsga2 ρ W D) (w : W) (hstarted : ¬a.started) :
    start (a, w) = (brought .step >>= install) (a, w) := by
  have hbrought : brought .step (a, w) = (do
      ensureRoom Population.capacity a.config.populationSize
      drawing (a.problem.createMany a.config.populationSize) :
        EStateM Failure (Nsga2 ρ W D × W) _) (a, w) := congrFun (if_neg hstarted) _
  simp only [start, bind_apply, get_apply, hbrought, fault_apply]
  cases ensureRoom Population.capacity a.config.populationSize with
  | error f => rfl
  | ok => rfl

theorem generation_apply (a : Nsga2 ρ W D) (w : W) (hstarted : a.started) :
    generation (a, w) =
      match admitted .step (a, w) with
      | .error e s => .error e s
      | .ok found (b, w') =>
        match Population.truncate found.length (a.population ++ found) with
        | .error e P => .error e ({ b with population := P }, w')
        | .ok _ P => .ok () ({ b with population := P, started := true }, w') := by
  have hbrought : brought .step (a, w) =
      drawing (fill a.brood a.problem.create a.population.length []) (a, w) :=
    congrFun (if_pos hstarted) _
  simp only [generation, admitted, bind_apply, get_apply, ← hbrought]
  rcases brought_cases .step a w with ⟨solutions, g, w₁, hsolutions, hroom⟩ | ⟨f, s, hsolutions⟩
  · simp only [hsolutions]
    rcases takeIn_cases solutions (a.drawn g) w₁ with
      ⟨found, n, w', htake, hfound, -⟩ | ⟨e, offered, n, w', htake⟩ | ⟨f, s, htake⟩
    · have hlength : found.length = a.population.length :=
        hfound.trans (hroom.trans (if_pos hstarted))
      simp only [htake, onPopulation_apply, bind_apply, modify_apply, hlength, fed_population,
        drawn_population]
      cases Population.truncate a.population.length (a.population ++ found) with
      | error e P => rfl
      | ok _ P => simp [hstarted]
    · simp only [htake]
    · simp only [htake]
  · simp only [hsolutions]

/-- **What a call does**: the solutions that it brings are taken in, and of them and their rivals as
many are kept as were taken in. -/
theorem run_apply (call : Search.Call D) (a : Nsga2 ρ W D) (w : W) :
    call.run (a, w) =
      match admitted call (a, w) with
      | .error e s => .error e s
      | .ok found (b, w') =>
        match Population.truncate found.length (a.rivals call ++ found) with
        | .error e P => .error e ({ b with population := P }, w')
        | .ok _ P => .ok () (b.settled P call, w') := by
  cases call with
  | replacePopulation solutions =>
    cases solutions with
    | nil => rfl
    | cons s rest => exact install_apply (s :: rest) a w
  | step =>
    show step (a, w) = _
    simp only [step, bind_apply, get_apply]
    by_cases hstarted : a.started
    · have hrivals : a.rivals .step = a.population := if_pos hstarted
      rw [if_pos hstarted, bind_apply, generation_apply a w hstarted, hrivals]
      cases admitted .step (a, w) with
      | error e s => rfl
      | ok found s =>
        dsimp only
        cases Population.truncate found.length (a.population ++ found) with
        | error e P => rfl
        | ok _ P => rfl
    · have hrivals : a.rivals .step = [] := if_neg hstarted
      rw [if_neg hstarted, bind_apply, start_apply a w hstarted, hrivals]
      simp only [admitted, bind_apply]
      cases brought .step (a, w) with
      | error e s => rfl
      | ok solutions s =>
        obtain ⟨b, w₁⟩ := s
        simp only [install_apply]
        cases takeIn solutions (b, w₁) with
        | error e s => rfl
        | ok found s =>
          dsimp only [List.nil_append]
          cases Population.truncate found.length found with
          | error e P => rfl
          | ok _ P => rfl

/-- What a call that succeeds has done. -/
theorem exists_of_run_eq_ok {call : Search.Call D} {a b : Nsga2 ρ W D} {w w' : W}
    (h : call.run (a, w) = .ok () (b, w')) :
    ∃ found g n P, admitted call (a, w) = .ok found ((a.drawn g).fed n found, w') ∧
      found.length = a.room call ∧
      (∀ A, a.archive = some A → ∃ taken B, Archive.addAll found A = .ok taken B) ∧
      Population.truncate found.length (a.rivals call ++ found) = .ok () P ∧
      b = ((a.drawn g).fed n found).settled P call := by
  rw [run_apply] at h
  rcases admitted_cases call a w with ⟨found, g, n, w₁, hadmitted, hroom, hall⟩ |
    ⟨e, offered, g, n, w₁, hadmitted⟩ | ⟨f, s, hadmitted⟩
  · simp only [hadmitted] at h
    cases hP : Population.truncate found.length (a.rivals call ++ found) with
    | error e P => simp [hP] at h
    | ok _ P =>
      simp only [hP] at h
      cases h
      exact ⟨found, g, n, P, hadmitted, hroom, hall, hP, rfl⟩
  · simp [hadmitted] at h
  · simp [hadmitted] at h

/-- What a call that ends in an error has done: it has not come as far as the population, unless the
population could not be cut down. -/
theorem of_run_eq_error {call : Search.Call D} {a b : Nsga2 ρ W D} {w w' : W} {e : Error}
    (h : call.run (a, w) = .error (.error e) (b, w')) :
    (∃ offered g n, admitted call (a, w) = .error (.error e) (b, w') ∧
      b = (a.drawn g).fed n offered) ∨
    ∃ found g n P, admitted call (a, w) = .ok found ((a.drawn g).fed n found, w') ∧
      found.length = a.room call ∧
      (∀ A, a.archive = some A → ∃ taken B, Archive.addAll found A = .ok taken B) ∧
      Population.truncate found.length (a.rivals call ++ found) = .error (.error e) P ∧
      b = { (a.drawn g).fed n found with population := P } := by
  rw [run_apply] at h
  rcases admitted_cases call a w with ⟨found, g, n, w₁, hadmitted, hroom, hall⟩ |
    ⟨e, offered, g, n, w₁, hadmitted⟩ | ⟨f, s, hadmitted⟩
  · simp only [hadmitted] at h
    cases hP : Population.truncate found.length (a.rivals call ++ found) with
    | error e P =>
      simp only [hP] at h
      cases h
      exact .inr ⟨found, g, n, P, hadmitted, hroom, hall, hP, rfl⟩
    | ok _ P => simp [hP] at h
  · simp only [hadmitted] at h
    cases h
    exact .inl ⟨offered, g, n, hadmitted, rfl⟩
  · simp [hadmitted] at h

theorem evaluations_le_of_run (call : Search.Call D) {a b : Nsga2 ρ W D} {w w' : W}
    (h : call.run (a, w) = .ok () (b, w')) : a.evaluations ≤ b.evaluations := by
  obtain ⟨found, g, n, P, -, -, -, -, rfl⟩ := exists_of_run_eq_ok h
  exact Nat.le_add_right _ _

instance : Search.Cumulative (Nsga2 ρ W D) where
  le_of_step hstep := evaluations_le_of_run .step hstep
  le_of_replacePopulation hreplace := evaluations_le_of_run (.replacePopulation _) hreplace

/-! ### First calls -/

/-- What the first call of a new algorithm leaves, if there is one and its call succeeds. -/
def firstCall (new : Except Error (Nsga2 ρ W D)) (call : Search.Call D) (w : W) :
    Option (Nsga2 ρ W D × W) :=
  match new with
  | .error _ => none
  | .ok a₀ => match call.run (a₀, w) with
    | .error _ _ => none
    | .ok _ s => some s

theorem exists_of_firstCall {new : Except Error (Nsga2 ρ W D)} {call : Search.Call D} {w : W}
    {test : Nsga2 ρ W D × W → Bool} (h : (firstCall new call w).any test = true) :
    ∃ a₀ s, new = .ok a₀ ∧ call.run (a₀, w) = .ok () s ∧ test s = true := by
  cases new with
  | error e => simp [firstCall] at h
  | ok a₀ =>
    cases hrun : call.run (a₀, w) with
    | error e s => simp [firstCall, hrun] at h
    | ok _ s =>
      simp only [firstCall, hrun, Option.any_some] at h
      exact ⟨a₀, s, rfl, hrun, h⟩

end Nsga2

end ParetoSearch
