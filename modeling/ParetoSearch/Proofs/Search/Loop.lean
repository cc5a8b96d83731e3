import Mathlib.Data.Nat.Notation
import Mathlib.Logic.ExistsUnique
import Mathlib.Order.Basic
import ParetoSearch.Search

/-!
# Runs as loops

A run is written with a limit on its steps. The loop that it stands for has none
(`Loop`): it takes steps until the budget is used up, the flag is raised, a step fails or a
step uses no evaluations. Where evaluations are cumulative, each step of the loop but the
last uses at least one of those left, so the limit of a run is never met, and a run is the
loop (`exists_loop`, `Loop.eq_run`).

From the loop it can be read off how a run ends (`Loop.existsUnique_ending`), and that a run
which has used up its budget can be resumed with a larger one as if it had had this budget
from the start (`Loop.resume`).
-/

namespace ParetoSearch.Search

variable {α ρ W D : Type} [Search α ρ W D]

/-- The algorithms of type `α` never take back evaluations that they have counted. -/
class Cumulative (α : Type) {ρ W D : Type} [Search α ρ W D] : Prop where
  le_of_step : ∀ {a b : α} {w w' : W}, step (a, w) = .ok () (b, w') → evaluations a ≤ evaluations b
  le_of_replacePopulation : ∀ {solutions : List (Solution D)} {a b : α} {w w' : W},
    replacePopulation solutions (a, w) = .ok () (b, w') → evaluations a ≤ evaluations b

/-! ### The loop -/

/-- What is left of a run. -/
abbrev Left (α W : Type) := EStateM.Result Failure (α × W) (Option Outcome)

/-- The loop of a run: from a state, with the states in which steps are started, to what is left. -/
inductive Loop (flag : Option (StateM W Bool)) (budget : ℕ) :
    α × W → List (α × W) → Left α W → Prop
  /-- The budget is used up. -/
  | spent {a : α} {w : W} (hspent : budget ≤ evaluations a) :
      Loop flag budget (a, w) [] (.ok (some (outcome a false)) (a, w))
  /-- The flag is raised. -/
  | cancelled {a : α} {w w' : W} (hleft : evaluations a < budget)
      (hflag : isRaised flag w = (true, w')) :
      Loop flag budget (a, w) [] (.ok (some (outcome a true)) (a, w'))
  /-- A step fails. -/
  | failed {a : α} {w v : W} {e : Failure} {s : α × W} (hleft : evaluations a < budget)
      (hflag : isRaised flag w = (false, v)) (hstep : step (a, v) = .error e s) :
      Loop flag budget (a, w) [(a, v)] (.error e s)
  /-- A step uses no evaluations. -/
  | idle {a b : α} {w v w' : W} (hleft : evaluations a < budget)
      (hflag : isRaised flag w = (false, v)) (hstep : step (a, v) = .ok () (b, w'))
      (hidle : evaluations b = evaluations a) :
      Loop flag budget (a, w) [(a, v)] (.ok (some (outcome b false)) (b, w'))
  /-- A step uses evaluations, and the loop goes on. -/
  | next {a b : α} {w v w' : W} {started : List (α × W)} {r : Left α W}
      (hleft : evaluations a < budget) (hflag : isRaised flag w = (false, v))
      (hstep : step (a, v) = .ok () (b, w')) (hused : evaluations b ≠ evaluations a)
      (hrest : Loop flag budget (b, w') started r) :
      Loop flag budget (a, w) ((a, v) :: started) r

variable {flag : Option (StateM W Bool)} {m n budget : ℕ} {s t : α × W}
  {started started' : List (α × W)} {r r' : Left α W} {o : Outcome}

namespace Loop

theorem unique (h : Loop flag budget s started r) (h' : Loop flag budget s started' r') :
    started = started' ∧ r = r' := by
  induction h generalizing started' with
  | spent => cases h' <;> grind
  | cancelled => cases h' <;> grind
  | failed => cases h' <;> grind
  | idle => cases h' <;> grind
  | next => cases h' <;> grind

theorem evaluations_lt (h : Loop flag budget s started r) :
    ∀ u ∈ started, evaluations u.1 < budget := by
  induction h with
  | spent => simp
  | cancelled => simp
  | failed hleft => simpa using hleft
  | idle hleft => simpa using hleft
  | next hleft _ _ _ _ ih => exact List.forall_mem_cons.2 ⟨hleft, ih⟩

theorem length_le [Cumulative α] (h : Loop flag budget s started r) :
    started.length ≤ budget - evaluations s.1 := by
  induction h with
  | spent => simp
  | cancelled => simp
  | failed hleft => simp; omega
  | idle hleft => simp; omega
  | next hleft _ hstep hused _ ih =>
    have hle := Cumulative.le_of_step hstep
    simp at ih ⊢
    omega

/-- Once a budget is used up, a larger one can be used from there on as from the start. -/
theorem resume (h : Loop flag m s started r) (hr : r = .ok (some o) t) (hspent : m ≤ o.evaluations)
    (hmn : m ≤ n) (hrest : Loop flag n t started' r') :
    Loop flag n s (started ++ started') r' := by
  induction h with
  | spent =>
    cases hr
    exact hrest
  | cancelled hleft =>
    cases hr
    exact absurd hspent (Nat.not_le_of_lt hleft)
  | failed => cases hr
  | idle hleft _ _ hidle =>
    cases hr
    exact absurd (hidle ▸ hspent) (Nat.not_le_of_lt hleft)
  | next hleft hflag hstep hused _ ih =>
    exact .next (Nat.lt_of_lt_of_le hleft hmn) hflag hstep hused (ih hr)

end Loop

/-! ### Runs -/

/-- With as many steps allowed as evaluations are left, a run is the loop. -/
theorem exists_loop_runWithin [Cumulative α] (flag : Option (StateM W Bool)) {limit : ℕ}
    (hlimit : budget ≤ evaluations s.1 + limit) :
    ∃ started, Loop flag budget s started (runWithin flag budget limit s) := by
  obtain ⟨a, w⟩ := s
  induction limit generalizing a w with
  | zero =>
    have hspent : budget ≤ evaluations a := hlimit
    rw [runWithin, if_pos hspent]
    exact ⟨_, .spent hspent⟩
  | succ limit ih =>
    rw [runWithin]
    by_cases hspent : budget ≤ evaluations a
    · rw [if_pos hspent]
      exact ⟨_, .spent hspent⟩
    · rw [if_neg hspent]
      have hleft := Nat.lt_of_not_le hspent
      rcases hflag : isRaised flag w with ⟨_ | _, v⟩
      · dsimp only
        cases hstep : (step : EStateM Failure (α × W) Unit) (a, v) with
        | error e s => exact ⟨_, .failed hleft hflag hstep⟩
        | ok _ s =>
          obtain ⟨b, w'⟩ := s
          dsimp only
          by_cases hidle : evaluations b = evaluations a
          · rw [if_pos hidle]
            exact ⟨_, .idle hleft hflag hstep hidle⟩
          · rw [if_neg hidle]
            have hle := Cumulative.le_of_step hstep
            obtain ⟨started, hrest⟩ := ih b w' (by simp at hlimit ⊢; omega)
            exact ⟨_, .next hleft hflag hstep hidle hrest⟩
      · exact ⟨_, .cancelled hleft hflag⟩

/-- Where evaluations are cumulative, a run is the loop. -/
theorem exists_loop [Cumulative α] (flag : Option (StateM W Bool)) (budget : ℕ) (s : α × W) :
    ∃ started, Loop flag budget s started (runUnlessCancelled flag budget s) :=
  exists_loop_runWithin flag (by omega)

theorem Loop.eq_run [Cumulative α] (h : Loop flag budget s started r) :
    runUnlessCancelled flag budget s = r := by
  obtain ⟨_, hrun⟩ := exists_loop flag budget s
  exact (hrun.unique h).2

/-- A run that has used up its budget is the beginning of each run with a larger one. -/
theorem runUnlessCancelled_of_spent [Cumulative α] (hmn : m ≤ n)
    (hrun : runUnlessCancelled flag m s = .ok (some o) t) (hspent : m ≤ o.evaluations) :
    runUnlessCancelled flag n t = runUnlessCancelled flag n s := by
  obtain ⟨started, hfirst⟩ := exists_loop flag m s
  obtain ⟨started', hrest⟩ := exists_loop flag n t
  exact (hfirst.resume hrun hspent hmn hrest).eq_run.symm

/-! ### How runs end -/

/-- A way in which a run that succeeds can end. -/
inductive Ending where
  | spent
  | cancelled
  | idle

/-- The last of the steps started leaves this state; if there was none, it is the first one. -/
def ComesTo (s : α × W) (started : List (α × W)) (t : α × W) : Prop :=
  match started.getLast? with
  | none => t = s
  | some u => step u = .ok () t

/-- What it means that a run ends in this way: from `s`, with the steps started, to `t`. -/
def Ending.Holds (flag : Option (StateM W Bool)) (budget : ℕ) (s : α × W) (started : List (α × W))
    (o : Outcome) (t : α × W) : Ending → Prop
  | spent => o.cancelled = false ∧ budget ≤ evaluations t.1
  | cancelled => o.cancelled = true ∧ evaluations t.1 < budget ∧
      ∃ w, ComesTo s started (t.1, w) ∧ isRaised flag w = (true, t.2)
  | idle => o.cancelled = false ∧
      ∃ u ∈ started.getLast?, step u = .ok () t ∧ evaluations t.1 = evaluations u.1

theorem ComesTo.cons {u : α × W} (h : ComesTo t started u) {v : α × W} (hstep : step v = .ok () t) :
    ComesTo s (v :: started) u := by
  rcases List.eq_nil_or_concat started with rfl | ⟨earlier, last, rfl⟩
  · obtain rfl : u = t := h
    exact hstep
  · rw [List.concat_eq_append, ComesTo, List.getLast?_concat] at h
    rw [List.concat_eq_append, ComesTo, ← List.cons_append, List.getLast?_concat]
    exact h

theorem Ending.Holds.cons {e : Ending} {u v : α × W} (h : e.Holds flag budget u started o t)
    (hstep : step v = .ok () u) : e.Holds flag budget s (v :: started) o t := by
  cases e with
  | spent => exact h
  | cancelled =>
    obtain ⟨hcancelled, hleft, w, hcomes, hflag⟩ := h
    exact ⟨hcancelled, hleft, w, hcomes.cons hstep, hflag⟩
  | idle =>
    obtain ⟨hcancelled, last, hlast, hidle⟩ := h
    refine ⟨hcancelled, last, ?_, hidle⟩
    rw [List.getLast?_cons, Option.mem_def.1 hlast]
    rfl

namespace Loop

theorem exists_ending (h : Loop flag budget s started r) (hr : r = .ok (some o) t) :
    ∃ e : Ending, e.Holds flag budget s started o t := by
  induction h with
  | spent hspent =>
    cases hr
    exact ⟨.spent, rfl, hspent⟩
  | cancelled hleft hflag =>
    cases hr
    exact ⟨.cancelled, rfl, hleft, _, rfl, hflag⟩
  | failed => cases hr
  | idle _ _ hstep hidle =>
    cases hr
    exact ⟨.idle, rfl, _, rfl, hstep, hidle⟩
  | next _ _ hstep _ _ ih =>
    obtain ⟨e, he⟩ := ih hr
    exact ⟨e, he.cons hstep⟩

/-- A run that succeeds ends in one way, and in this one only. -/
theorem existsUnique_ending (h : Loop flag budget s started (.ok (some o) t)) :
    ∃! e : Ending, e.Holds flag budget s started o t := by
  obtain ⟨e, he⟩ := h.exists_ending rfl
  refine ⟨e, he, ?_⟩
  intro e' he'
  -- Behind a last step that has used none, evaluations are left as they were before it.
  have hidle : Ending.idle.Holds flag budget s started o t → evaluations t.1 < budget := by
    rintro ⟨-, u, hu, -, heq⟩
    exact heq ▸ h.evaluations_lt u (List.mem_of_getLast? hu)
  cases e <;> cases e' <;> grind [Ending.Holds]

theorem outcome_eq (h : Loop flag budget s started r) (hr : r = .ok (some o) t) :
    o = outcome t.1 o.cancelled := by
  induction h with
  | spent => cases hr; rfl
  | cancelled => cases hr; rfl
  | failed => cases hr
  | idle => cases hr; rfl
  | next _ _ _ _ _ ih => exact ih hr

theorem ne_none (h : Loop flag budget s started r) : r ≠ .ok none t := by
  induction h with
  | spent => exact nofun
  | cancelled => exact nofun
  | failed => exact nofun
  | idle => exact nofun
  | next _ _ _ _ _ ih => exact ih

end Loop

/-- The run from `s` stops with the steps that were started in these states. -/
structure Stops (flag : Option (StateM W Bool)) (budget : ℕ) (s : α × W)
    (started : List (α × W)) : Prop where
  /-- The run is the loop. -/
  loop : Loop flag budget s started (runUnlessCancelled flag budget s)
  /-- It is not cut off. -/
  ne_none : ∀ t, runUnlessCancelled flag budget s ≠ .ok none t
  length_le : started.length ≤ budget - evaluations s.1
  evaluations_lt : ∀ u ∈ started, evaluations u.1 < budget
  outcome_eq : ∀ o t, runUnlessCancelled flag budget s = .ok (some o) t →
    o = outcome t.1 o.cancelled
  existsUnique_ending : ∀ o t, runUnlessCancelled flag budget s = .ok (some o) t →
    ∃! e : Ending, e.Holds flag budget s started o t

theorem exists_stops [Cumulative α] (flag : Option (StateM W Bool)) (budget : ℕ) (s : α × W) :
    ∃ started, Stops flag budget s started := by
  obtain ⟨started, h⟩ := exists_loop flag budget s
  refine ⟨started, h, fun t => h.ne_none, h.length_le, h.evaluations_lt, ?_, ?_⟩
  · exact fun o t hrun => h.outcome_eq hrun
  · exact fun o t hrun => (hrun ▸ h).existsUnique_ending

/-! ### New algorithms -/

omit [Search α ρ W D] in
/-- What an operation answers and leaves of a new algorithm, if there is one and the operation
succeeds. -/
def reached {β : Type} (new : Except Error α) (x : EStateM Failure (α × W) β) (w : W) :
    Option (β × α × W) :=
  match new with
  | .error _ => none
  | .ok a => match x (a, w) with
    | .error _ _ => none
    | .ok b s => some (b, s)

/-- What passes a test has been left by an operation that succeeded. -/
theorem exists_of_reached {β : Type} {new : Except Error α} {x : EStateM Failure (α × W) β} {w : W}
    {test : β × α × W → Bool} (h : (reached new x w).any test = true) :
    ∃ a b s, new = .ok a ∧ x (a, w) = .ok b s ∧ test (b, s) = true := by
  cases new with
  | error e => simp [reached] at h
  | ok a =>
    cases hx : x (a, w) with
    | error e s => simp [reached, hx] at h
    | ok b s =>
      simp only [reached, hx, Option.any_some] at h
      exact ⟨a, b, s, rfl, hx, h⟩

end ParetoSearch.Search
