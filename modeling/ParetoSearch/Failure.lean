import ParetoSearch.Decimal

/-!
# Failures

Two kinds of thing go wrong. An `Error` is an answer: a configuration that makes no sense, vectors
of the wrong length, a value that is not finite. A `Fault` is a call outside the domain of an
operation, such as a selection from nothing; it ends the search. Both are causes; their wording is
in one `message` function each.

Operations that change a state are functions in `EStateM`, which keeps the state a failing call
left behind. This module also holds the liftings between the three error types and `focus`, which
runs an operation on a part of a state.
-/

namespace ParetoSearch

/-! ### Errors -/

/-- One of the two vectors that an evaluation yields. -/
inductive Part where
  | objectives
  | constraints
  deriving Repr, DecidableEq

/-- The whole vector. -/
def Part.vector : Part → String
  | .objectives => "objectives"
  | .constraints => "constraints"

/-- One entry of the vector. -/
def Part.entry : Part → String
  | .objectives => "objective"
  | .constraints => "constraint"

/-- What is wrong with a configuration. -/
inductive Misconfiguration where
  | noEpsilons
  | epsilonNotPositive (index : Nat) (value : Float)
  | archiveWithoutObjectives
  | populationTooSmall (size : Nat)
  | emptyTournament
  | emptyWindow
  | emptyMaxWindow
  | emptyMinimumPopulation
  | populationBoundsInverted (minimum maximum : Nat)
  | injectionRateOutside (value : Float)
  | growthBoundsOutside (low high : Float)
  | variationWithoutParents
  | perturbationWithoutParents
  | noArchive
  deriving Repr, DecidableEq

/-- The wording of a misconfiguration. -/
def Misconfiguration.message : Misconfiguration → String
  | .noEpsilons => "epsilon vector must not be empty"
  | .epsilonNotPositive index value =>
    s!"epsilon[{index}] must be positive and finite, got {Decimal.text value}"
  | .archiveWithoutObjectives => "archive needs at least one objective"
  | .populationTooSmall size => s!"population_size must be >= 2, got {size}"
  | .emptyTournament => "tournament size must be positive"
  | .emptyWindow => "window_size must be positive"
  | .emptyMaxWindow => "max_window_size must be positive"
  | .emptyMinimumPopulation => "minimum_population_size must be positive"
  | .populationBoundsInverted minimum maximum =>
    s!"maximum_population_size ({maximum}) must be >= minimum_population_size ({minimum})"
  | .injectionRateOutside value =>
    s!"injection_rate must be in [0, 1], got {Decimal.text value}"
  | .growthBoundsOutside low high =>
    "growth bounds must satisfy 0 < min <= 1 <= max, got " ++
      s!"[{Decimal.text low}, {Decimal.text high}]"
  | .variationWithoutParents => "variation operator must take at least one parent"
  | .perturbationWithoutParents => "perturbation operator must take at least one parent"
  | .noArchive => "adaptive continuation requires an archive"

/-- Why an operation refuses its input. -/
inductive Error where
  | configuration (cause : Misconfiguration)
  | dimensionMismatch (part : Part) (expected actual : Nat)
  | nonFinite (part : Part) (index : Nat) (value : Float)
  deriving Repr, DecidableEq

/-- The wording of an error. -/
def Error.message : Error → String
  | .configuration cause => s!"Invalid configuration: {cause.message}"
  | .dimensionMismatch part expected actual =>
    s!"Dimension mismatch in {part.vector}: expected {expected}, got {actual}"
  | .nonFinite part index value =>
    s!"Non-finite {part.entry} at index {index}: {Decimal.text value}"

/-! ### Faults -/

/-- A call outside the domain of an operation. -/
inductive Fault where
  /-- A bound of a decision variable is not finite. -/
  | boundsNotFinite (index : Nat)
  /-- The lower bound of a decision variable is above the upper one. -/
  | boundsInverted (index : Nat)
  /-- A member is to be selected where there is none. -/
  | emptySelection
  /-- A population is to be replaced by nothing. -/
  | emptyReplacement
  /-- A draw from a range that holds nothing. -/
  | emptyRange
  /-- A draw from a range whose width is not finite. -/
  | infiniteRange
  /-- A chance that is no probability. -/
  | probabilityOutside
  /-- An index outside a vector or list. -/
  | indexOutside
  /-- A value is to be kept between bounds that are not in order. -/
  | clampInverted
  /-- A dominator is to be taken from an item that has none left. -/
  | countBelowZero
  /-- A count goes beyond the greatest one. -/
  | countOverflow
  /-- A list is to hold more than can be stored. -/
  | roomExceeded
  /-- Elements are to be sorted by a test that is no order. -/
  | notOrdered
  deriving Repr, DecidableEq

/-- The wording of a fault, where it has one. -/
def Fault.message? : Fault → Option String
  | .boundsNotFinite index => some s!"bounds of variable {index} must be finite"
  | .boundsInverted index => some s!"lower bound above upper for variable {index}"
  | .emptySelection => some "cannot select from empty population"
  | .emptyReplacement => some "replacement population must not be empty"
  | _ => none

/-- An error or a fault. -/
inductive Failure where
  | error (cause : Error)
  | fault (cause : Fault)
  deriving Repr, DecidableEq

/-! ### Operations that may fail -/

variable {ε σ τ α : Type}

/-- A check is an operation that leaves the state alone. -/
instance liftCheck : MonadLift (Except ε) (EStateM ε σ) where
  monadLift
    | .ok a => pure a
    | .error e => throw e

/-- An error is one cause of failure. -/
instance liftError : MonadLift (Except Error) (Except Failure) := ⟨Except.mapError .error⟩

/-- A fault is the other. -/
instance liftFault : MonadLift (Except Fault) (Except Failure) := ⟨Except.mapError .fault⟩

/-- An operation that may end in an error. -/
instance liftErrorState : MonadLift (EStateM Error σ) (EStateM Failure σ) :=
  ⟨EStateM.adaptExcept .error⟩

/-- An operation that may end in a fault. -/
instance liftFaultState : MonadLift (EStateM Fault σ) (EStateM Failure σ) :=
  ⟨EStateM.adaptExcept .fault⟩

/-- An operation that never fails. -/
instance liftTotal : MonadLift (StateM σ) (EStateM ε σ) := ⟨EStateM.fromStateM⟩

/-- Runs an operation on the part of the state that `get` reads and `put` writes. What the operation
leaves behind is written back, also when it fails. -/
def focus (get : σ → τ) (put : τ → σ → σ) (x : EStateM ε τ α) : EStateM ε σ α := fun s =>
  match x (get s) with
  | .ok a t => .ok a (put t s)
  | .error e t => .error e (put t s)

/-- A focused operation succeeds when the operation does on its part of the state. -/
theorem focus_apply_eq_ok {get : σ → τ} {put : τ → σ → σ} {x : EStateM ε τ α} {s s' : σ} {a : α} :
    focus get put x s = .ok a s' ↔ ∃ t, x (get s) = .ok a t ∧ put t s = s' := by
  unfold focus
  cases x (get s) <;> grind

theorem focus_apply_eq_error {get : σ → τ} {put : τ → σ → σ} {x : EStateM ε τ α} {s s' : σ}
    {e : ε} : focus get put x s = .error e s' ↔ ∃ t, x (get s) = .error e t ∧ put t s = s' := by
  unfold focus
  cases x (get s) <;> grind

/-- Runs an operation on the first of two states. -/
def onFirst (x : EStateM ε σ α) : EStateM ε (σ × τ) α := focus (·.1) (fun s p => (s, p.2)) x

/-- Runs an operation on the second of two states. -/
def onSecond (x : EStateM ε τ α) : EStateM ε (σ × τ) α := focus (·.2) (fun t p => (p.1, t)) x

theorem bind_apply_eq_ok {β : Type} {x : EStateM ε σ α} {f : α → EStateM ε σ β} {s t : σ} {b : β} :
    (x >>= f) s = .ok b t ↔ ∃ a u, x s = .ok a u ∧ f a u = .ok b t := by
  simp only [bind, EStateM.bind]
  cases x s <;> grind

/-- One operation after another fails when the first does, or when it succeeds and the second
fails. -/
theorem bind_apply_eq_error {β : Type} {x : EStateM ε σ α} {f : α → EStateM ε σ β} {s t : σ}
    {e : ε} : (x >>= f) s = .error e t ↔
      x s = .error e t ∨ ∃ a u, x s = .ok a u ∧ f a u = .error e t := by
  simp only [bind, EStateM.bind]
  cases x s <;> grind

theorem bind_apply_of_ok {β : Type} {x : EStateM ε σ α} {f : α → EStateM ε σ β} {s t : σ} {a : α}
    (h : x s = .ok a t) : (x >>= f) s = f a t := by
  simp only [bind, EStateM.bind, h]

theorem bind_apply_of_error {β : Type} {x : EStateM ε σ α} {f : α → EStateM ε σ β} {s t : σ}
    {e : ε} (h : x s = .error e t) : (x >>= f) s = .error e t := by
  simp only [bind, EStateM.bind, h]

theorem bind_apply {β : Type} (x : EStateM ε σ α) (f : α → EStateM ε σ β) (s : σ) :
    (x >>= f) s = match x s with
      | .ok a t => f a t
      | .error e t => .error e t := by
  simp only [bind, EStateM.bind]
  cases x s <;> rfl

theorem get_apply (s : σ) : (get : EStateM ε σ σ) s = .ok s s := rfl

theorem set_apply (t s : σ) : (set t : EStateM ε σ PUnit) s = .ok ⟨⟩ t := rfl

theorem modify_apply (f : σ → σ) (s : σ) : (modify f : EStateM ε σ PUnit) s = .ok ⟨⟩ (f s) := rfl

/-- A computation that may end in an error leaves the state alone. -/
theorem error_apply (x : Except Error α) (s : σ) :
    (liftM x : EStateM Failure σ α) s = match x with
      | .ok a => .ok a s
      | .error e => .error (.error e) s := by
  cases x <;> rfl

theorem fault_apply (x : Except Fault α) (s : σ) :
    (liftM x : EStateM Failure σ α) s = match x with
      | .ok a => .ok a s
      | .error f => .error (.fault f) s := by
  cases x <;> rfl

@[simp] theorem pure_apply_eq_ok {s t : σ} {a b : α} :
    (pure a : EStateM ε σ α) s = .ok b t ↔ a = b ∧ s = t := by
  simp [pure, EStateM.pure]

theorem bind_eq_ok {β : Type} {x : Except ε α} {f : α → Except ε β} {b : β} :
    (x >>= f) = .ok b ↔ ∃ a, x = .ok a ∧ f a = .ok b := by
  cases x <;> simp [bind, Except.bind]

/-- Naming the cause of an error otherwise changes nothing where there is none. -/
theorem mapError_eq_ok {ε' : Type} {f : ε → ε'} {x : Except ε α} {a : α} :
    x.mapError f = .ok a ↔ x = .ok a := by
  cases x with
  | error e => exact ⟨nofun, nofun⟩
  | ok b =>
    show Except.ok b = .ok a ↔ _
    rw [Except.ok.injEq, Except.ok.injEq]

theorem map_eq_ok {β : Type} {f : α → β} {x : Except ε α} {b : β} :
    x.map f = .ok b ↔ ∃ a, x = .ok a ∧ f a = b := by
  cases x <;> simp [Except.map]

@[simp] theorem ok_bind {β : Type} (a : α) (f : α → Except ε β) :
    ((.ok a : Except ε α) >>= f) = f a := rfl

@[simp] theorem check_bind_eq_ok {x : Except ε Unit} {f : Unit → Except ε α} {a : α} :
    (x >>= f) = .ok a ↔ x = .ok () ∧ f () = .ok a := by
  cases x <;> simp [bind, Except.bind]

/-! ### Checks on sizes and vectors -/

/-- Refuses room for more than can be stored. -/
def ensureRoom (capacity count : Nat) : Except Fault Unit :=
  if count ≤ capacity then .ok () else .error .roomExceeded

@[simp] theorem ensureRoom_eq_ok {capacity count : Nat} :
    ensureRoom capacity count = .ok () ↔ count ≤ capacity := by
  unfold ensureRoom; split <;> simp_all

/-- The first value that fails a test, with its index. -/
def firstFailing? (test : Float → Bool) (values : List Float) : Option (Nat × Float) :=
  (values.zipIdx.find? fun p => !test p.1).map fun p => (p.2, p.1)

/-- No value fails exactly when all pass. -/
theorem firstFailing?_eq_none {test : Float → Bool} {values : List Float} :
    firstFailing? test values = none ↔ values.all test = true := by
  simp only [firstFailing?, Option.map_eq_none_iff, List.find?_eq_none, List.all_eq_true]
  constructor
  · intro h x hx
    obtain ⟨i, hi⟩ := List.mem_iff_getElem?.1 hx
    simpa using h (x, i) (List.mem_zipIdx_iff_getElem?.2 hi)
  · rintro h ⟨x, i⟩ hp
    simpa using h x (List.mem_of_getElem? (List.mem_zipIdx_iff_getElem?.1 hp))

/-- Refuses a vector of the wrong length. -/
def ensureLength (part : Part) (expected actual : Nat) : Except Error Unit :=
  if expected = actual then .ok () else .error (.dimensionMismatch part expected actual)

/-- Refuses a vector with a value that is not finite, naming the first. -/
def ensureFinite (part : Part) (values : List Float) : Except Error Unit :=
  match firstFailing? Float.isFinite values with
  | none => .ok ()
  | some (index, value) => .error (.nonFinite part index value)

@[simp] theorem ensureLength_eq_ok {part : Part} {expected actual : Nat} :
    ensureLength part expected actual = .ok () ↔ expected = actual := by
  unfold ensureLength; split <;> simp_all

@[simp] theorem ensureFinite_eq_ok {part : Part} {values : List Float} :
    ensureFinite part values = .ok () ↔ values.all Float.isFinite = true := by
  unfold ensureFinite
  rw [← firstFailing?_eq_none]
  split <;> simp_all

end ParetoSearch
