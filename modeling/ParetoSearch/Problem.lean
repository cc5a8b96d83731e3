import ParetoSearch.Solution

/-!
# Problems

A problem makes random decisions and evaluates decisions. Both may look at and change a world `W`,
in which a problem keeps what it remembers between calls. An evaluation is stored on the solution
before it is checked against the numbers of objectives and constraints that the problem declares.

`fill` is how a search comes by as many solutions as it has places: it asks for broods, uses them up
one by one, and puts a random decision in place of an empty brood.
-/

namespace ParetoSearch

/-- A problem to be searched. -/
structure Problem (ρ W D : Type) where
  /-- How many objectives an evaluation should have. -/
  objectives : Nat
  /-- How many constraints an evaluation should have. -/
  constraints : Nat
  /-- A random decision, as a solution. -/
  create : EStateM Fault (ρ × W) (Solution D)
  /-- The evaluation of a decision. -/
  evaluate : D → EStateM Fault W Evaluation

variable {ρ W D σ : Type}

namespace Problem

/-- The solution with its evaluation, and whether the evaluation is as declared. -/
def evaluateSolution (p : Problem ρ W D) (s : Solution D) :
    EStateM Fault W (Solution D × Except Error Unit) := do
  let s := s.setEvaluation (← p.evaluate s.decision)
  return (s, s.validate p.objectives p.constraints)

/-- The solutions with their evaluations, up to the first whose evaluation is not as declared; the
others after it are left as they are. -/
def evaluateAll (p : Problem ρ W D) :
    List (Solution D) → EStateM Fault W (List (Solution D) × Except Error Unit)
  | [] => return ([], .ok ())
  | s :: rest => do
    let (s, verdict) ← p.evaluateSolution s
    match verdict with
    | .error e => return (s :: rest, .error e)
    | .ok () =>
      let (rest, verdict) ← p.evaluateAll rest
      return (s :: rest, verdict)

/-- A number of random decisions. -/
def createMany (p : Problem ρ W D) : Nat → EStateM Fault (ρ × W) (List (Solution D))
  | 0 => return []
  | n + 1 => do
    let s ← p.create
    let others ← p.createMany n
    return s :: others

theorem length_of_createMany {p : Problem ρ W D} {n : Nat} {found : List (Solution D)}
    {s t : ρ × W} (h : p.createMany n s = .ok found t) : found.length = n := by
  induction n generalizing s t found with
  | zero =>
    obtain ⟨rfl, -⟩ := pure_apply_eq_ok.1 h
    rfl
  | succ n ih =>
    obtain ⟨_, _, -, h⟩ := bind_apply_eq_ok.1 h
    obtain ⟨others, _, hr, h⟩ := bind_apply_eq_ok.1 h
    obtain ⟨rfl, -⟩ := pure_apply_eq_ok.1 h
    simp [ih hr]

/-- What every random decision satisfies, a number of them satisfy. -/
theorem forall_mem_of_createMany {p : Problem ρ W D} {P : Solution D → Prop}
    (hcreate : ∀ {x : Solution D} {s t : ρ × W}, p.create s = .ok x t → P x) {n : Nat}
    {found : List (Solution D)} {s t : ρ × W} (h : p.createMany n s = .ok found t) :
    ∀ x ∈ found, P x := by
  induction n generalizing s t found with
  | zero =>
    obtain ⟨rfl, -⟩ := pure_apply_eq_ok.1 h
    nofun
  | succ n ih =>
    obtain ⟨x, _, hx, h⟩ := bind_apply_eq_ok.1 h
    obtain ⟨others, _, hothers, h⟩ := bind_apply_eq_ok.1 h
    obtain ⟨rfl, -⟩ := pure_apply_eq_ok.1 h
    exact List.forall_mem_cons.2 ⟨hcreate hx, ih hothers⟩

end Problem

/-- As many solutions as there are places: first those pending, then brood after brood, with a
created solution for each empty brood. -/
def fill (brood : EStateM Fault σ (List (Solution D))) (create : EStateM Fault σ (Solution D)) :
    (places : Nat) → (pending : List (Solution D)) → EStateM Fault σ (List (Solution D))
  | 0, _ => return []
  | places + 1, s :: pending => do
    let others ← fill brood create places pending
    return s :: others
  | places + 1, [] => do
    match ← brood with
    | [] =>
      let s ← create
      let others ← fill brood create places []
      return s :: others
    | s :: pending =>
      let others ← fill brood create places pending
      return s :: others

/-- Filling yields exactly as many solutions as there are places. -/
theorem length_of_fill {brood : EStateM Fault σ (List (Solution D))}
    {create : EStateM Fault σ (Solution D)} {places : Nat} {pending found : List (Solution D)}
    {s t : σ} (h : fill brood create places pending s = .ok found t) : found.length = places := by
  fun_induction fill brood create places pending generalizing s t found with
  | case1 =>
    obtain ⟨rfl, -⟩ := pure_apply_eq_ok.1 h
    rfl
  | case2 places c pending ih =>
    obtain ⟨others, _, hr, h⟩ := bind_apply_eq_ok.1 h
    obtain ⟨rfl, -⟩ := pure_apply_eq_ok.1 h
    simp [ih hr]
  | case3 places ih₁ ih₂ =>
    obtain ⟨children, _, -, h⟩ := bind_apply_eq_ok.1 h
    split at h
    · obtain ⟨_, _, -, h⟩ := bind_apply_eq_ok.1 h
      obtain ⟨others, _, hr, h⟩ := bind_apply_eq_ok.1 h
      obtain ⟨rfl, -⟩ := pure_apply_eq_ok.1 h
      simp [ih₁ hr]
    · obtain ⟨others, _, hr, h⟩ := bind_apply_eq_ok.1 h
      obtain ⟨rfl, -⟩ := pure_apply_eq_ok.1 h
      simp [ih₂ _ hr]

/-- What every child, every created solution and every pending one satisfies, all satisfy that fill
the places. -/
theorem forall_mem_of_fill {brood : EStateM Fault σ (List (Solution D))}
    {create : EStateM Fault σ (Solution D)} {P : Solution D → Prop}
    (hbrood : ∀ {children : List (Solution D)} {s t : σ}, brood s = .ok children t →
      ∀ x ∈ children, P x)
    (hcreate : ∀ {x : Solution D} {s t : σ}, create s = .ok x t → P x) {places : Nat}
    {pending found : List (Solution D)} {s t : σ} (hpending : ∀ x ∈ pending, P x)
    (h : fill brood create places pending s = .ok found t) : ∀ x ∈ found, P x := by
  fun_induction fill brood create places pending generalizing s t found with
  | case1 =>
    obtain ⟨rfl, -⟩ := pure_apply_eq_ok.1 h
    nofun
  | case2 places c pending ih =>
    obtain ⟨hc, hpending⟩ := List.forall_mem_cons.1 hpending
    obtain ⟨others, _, hothers, h⟩ := bind_apply_eq_ok.1 h
    obtain ⟨rfl, -⟩ := pure_apply_eq_ok.1 h
    exact List.forall_mem_cons.2 ⟨hc, ih hpending hothers⟩
  | case3 places ih₁ ih₂ =>
    obtain ⟨children, _, hchildren, h⟩ := bind_apply_eq_ok.1 h
    split at h
    · obtain ⟨x, _, hx, h⟩ := bind_apply_eq_ok.1 h
      obtain ⟨others, _, hothers, h⟩ := bind_apply_eq_ok.1 h
      obtain ⟨rfl, -⟩ := pure_apply_eq_ok.1 h
      exact List.forall_mem_cons.2 ⟨hcreate hx, ih₁ nofun hothers⟩
    · obtain ⟨hc, hrest⟩ := List.forall_mem_cons.1 (hbrood hchildren)
      obtain ⟨others, _, hothers, h⟩ := bind_apply_eq_ok.1 h
      obtain ⟨rfl, -⟩ := pure_apply_eq_ok.1 h
      exact List.forall_mem_cons.2 ⟨hc, ih₂ _ hrest hothers⟩

end ParetoSearch
