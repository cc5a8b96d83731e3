import Mathlib.Data.Nat.Notation
import ParetoSearch.Problem
import ParetoSearch.Variation.Basic

/-!
# What may be raised

`FailsOnly` says which errors a computation may end in, and `RaisesOnly` says it of an
operation in whatever state it starts. Both are kept by going on with computations that
fail in the same way.

What a problem or an operator raises is its own affair: `Problem.Raises` and
`Variation.Raises` only name it. Evaluating many solutions, making many decisions and
filling places add nothing to it.
-/

namespace ParetoSearch

variable {ε σ α β : Type} {P : ε → Prop}

/-! ### Errors that a computation may end in -/

/-- The computation ends in errors of one kind only. -/
def FailsOnly (P : ε → Prop) (x : Except ε α) : Prop := ∀ e, x = .error e → P e

namespace FailsOnly

theorem ok (a : α) : FailsOnly P (.ok a : Except ε α) := nofun

theorem error {e : ε} (h : P e) : FailsOnly P (.error e : Except ε α) := by
  rintro _ ⟨⟩
  exact h

theorem bind {x : Except ε α} {f : α → Except ε β} (hx : FailsOnly P x)
    (hf : ∀ a, FailsOnly P (f a)) : FailsOnly P (x >>= f) := by
  cases x with
  | error e => exact error (hx e rfl)
  | ok a => exact hf a

theorem mapM {f : α → Except ε β} {xs : List α} (h : ∀ x ∈ xs, FailsOnly P (f x)) :
    FailsOnly P (xs.mapM f) := by
  induction xs with
  | nil => exact ok _
  | cons x xs ih =>
    obtain ⟨hx, hxs⟩ := List.forall_mem_cons.1 h
    rw [List.mapM_cons]
    exact hx.bind fun y => (ih hxs).bind fun ys => ok _

end FailsOnly

theorem failsOnly_ensureRoom {P : Fault → Prop} {capacity count : ℕ}
    (h : capacity < count → P .roomExceeded) : FailsOnly P (ensureRoom capacity count) := by
  unfold ensureRoom
  split
  · exact .ok _
  next hlt => exact .error (h (Nat.lt_of_not_le hlt))

/-- The operation ends in errors of one kind only, in whatever state it starts. -/
def RaisesOnly (P : ε → Prop) (x : EStateM ε σ α) : Prop := ∀ s e t, x s = .error e t → P e

namespace RaisesOnly

variable {x : EStateM ε σ α} {f : α → EStateM ε σ β}

theorem pure (a : α) : RaisesOnly P (Pure.pure a : EStateM ε σ α) := nofun

theorem check {x : Except ε α} (h : FailsOnly P x) : RaisesOnly P (liftM x : EStateM ε σ α) := by
  cases x with
  | error e =>
    rintro _ _ _ ⟨⟩
    exact h e rfl
  | ok a => exact pure a

theorem bind_of_ok (hx : RaisesOnly P x) (hf : ∀ s a t, x s = .ok a t → RaisesOnly P (f a)) :
    RaisesOnly P (x >>= f) := by
  intro s e t h
  rcases bind_apply_eq_error.1 h with h | ⟨a, u, hok, h⟩
  · exact hx s e t h
  · exact hf s a u hok u e t h

theorem bind (hx : RaisesOnly P x) (hf : ∀ a, RaisesOnly P (f a)) : RaisesOnly P (x >>= f) :=
  hx.bind_of_ok fun _ a _ _ => hf a

end RaisesOnly

/-! ### Problems and operators -/

variable {ρ W D : Type}

/-- The problem raises the fault, for some decision or some generator. -/
inductive Problem.Raises (p : Problem ρ W D) (f : Fault) : Prop
  | create {s t : ρ × W} (h : p.create s = .error f t)
  | evaluate {x : D} {w w' : W} (h : p.evaluate x w = .error f w')

/-- The operator raises the fault, for as many parents as it takes. -/
def Variation.Raises (v : Variation ρ W D) (f : Fault) : Prop :=
  ∃ parents s t, parents.length = v.arity ∧ v.evolve parents s = .error f t

namespace Problem

theorem raisesOnly_evaluateAll (p : Problem ρ W D) (solutions : List (Solution D)) :
    RaisesOnly p.Raises (p.evaluateAll solutions) := by
  induction solutions with
  | nil => exact .pure _
  | cons s rest ih =>
    have hfirst : RaisesOnly p.Raises (p.evaluateSolution s) :=
      RaisesOnly.bind (fun _ _ _ h => .evaluate h) fun _ => .pure _
    refine hfirst.bind ?_
    rintro ⟨s', verdict⟩
    cases verdict with
    | error e => exact .pure _
    | ok => exact ih.bind fun _ => .pure _

theorem raisesOnly_createMany (p : Problem ρ W D) (n : ℕ) :
    RaisesOnly p.Raises (p.createMany n) := by
  induction n with
  | zero => exact .pure _
  | succ n ih => exact RaisesOnly.bind (fun _ _ _ h => .create h) fun _ => ih.bind fun _ => .pure _

end Problem

/-- Filling places raises what making a brood or a random decision does; no brood is made for no
places. -/
theorem raisesOnly_fill {P : Fault → Prop} {brood : EStateM Fault σ (List (Solution D))}
    {create : EStateM Fault σ (Solution D)} {places : ℕ} (pending : List (Solution D))
    (hbrood : 0 < places → RaisesOnly P brood) (hcreate : RaisesOnly P create) :
    RaisesOnly P (fill brood create places pending) := by
  induction places generalizing pending with
  | zero => exact .pure _
  | succ places ih =>
    have hbrood := hbrood places.succ_pos
    have ih := fun pending => ih pending fun _ => hbrood
    cases pending with
    | cons s pending => exact (ih pending).bind fun _ => .pure _
    | nil =>
      refine hbrood.bind fun children => ?_
      cases children with
      | nil => exact hcreate.bind fun _ => (ih []).bind fun _ => .pure _
      | cons s pending => exact (ih pending).bind fun _ => .pure _

end ParetoSearch
