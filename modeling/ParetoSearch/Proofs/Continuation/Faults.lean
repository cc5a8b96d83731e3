import ParetoSearch.Proofs.Continuation.Resizes
import ParetoSearch.Proofs.Search.Faults

/-!
# How a step under continuation ends in a fault

A step under a configuration that makes sense ends in a fault at one of four places
(`breakdown_of_step`): the inner algorithm's step fails, the counter goes beyond the
greatest count, the making of a new population fails, or the inner algorithm does not take
it. The size of a new population is always found, since the bounds on it are in order
(`exists_growth_eq_ok`, `exists_newSize_eq_ok`). The counter is below the window before
every step, so that it goes too far only if the window and the evaluations do
(`movedCounter_eq_error`).

Making a new population raises what the problem does, or the operator for as many parents
as it takes; there may also be no room for them (`raisesOnly_renewal`). Parents are drawn
only from an archive that has members.
-/

namespace ParetoSearch.Continuation

open Binary64 (maxCount)
open Search (archiveSize evaluations population)

variable {α ρ W D : Type} {f : Fault}

/-! ### Sizes -/

section Sizes

variable {config : ContinuationConfig}

/-- There is a factor to grow by, since the growth bounds are in order. -/
theorem exists_growth_eq_ok (hconfig : config.validate = .ok ()) (previous current : ℕ) :
    ∃ factor, growth config previous current = .ok factor := by
  unfold growth
  split
  · exact ⟨_, rfl⟩
  · rw [clampFloat, if_pos (minGrowth_le_maxGrowth hconfig)]
    exact ⟨_, rfl⟩

theorem exists_newSize_eq_ok (hconfig : config.validate = .ok ()) (old : ℕ) (factor : Float) :
    ∃ new, newSize config old factor = .ok new := by
  obtain ⟨-, -, -, hbounds, -⟩ := ContinuationConfig.validate_eq_ok.1 hconfig
  exact ⟨_, if_pos hbounds⟩

end Sizes

/-! ### The counter -/

/-- From below the window the counter fails only if the window or the evaluations are too many. -/
theorem movedCounter_eq_error {frequency : Frequency} {p : Progress} {window n : ℕ}
    (hbelow : p.counter < window) (h : movedCounter frequency p n = .error f) :
    f = .countOverflow ∧ maxCount < window + n := by
  unfold movedCounter at h
  dsimp only at h
  split at h
  next => cases h
  next hgreat =>
    cases h
    refine ⟨rfl, ?_⟩
    cases frequency <;> simp only [advance] at hgreat <;> omega

section Counter

variable [Search α ρ W D] [Generator ρ] {c d : Continuation α ρ W D} {w w' : W}

theorem Passage.counter_lt {calls : List (Search.Call D × α × W)}
    (h : Passage (c, w) calls (d, w')) (hwindow : 0 < c.config.window) :
    d.progress.counter < d.config.window := by
  cases h with
  | quiet _ _ hlt => exact hlt
  | held harrives =>
    rw [harrives.eq_atCheck]
    exact hwindow
  | rebuilt harrives =>
    rw [harrives.eq_atCheck]
    exact hwindow

theorem Setback.counter_lt {e : Error} (h : Setback e (c, w) (d, w'))
    (hbelow : c.progress.counter < c.config.window) : d.progress.counter < d.config.window := by
  cases h with
  | step => exact hbelow
  | replacePopulation harrives =>
    rw [harrives.eq_atCheck]
    exact Nat.zero_lt_of_lt hbelow

end Counter

/-! ### New populations -/

section Renewal

variable [Generator ρ]

theorem length_drawParents (members : List (Solution D)) (h : 0 < members.length) (n : ℕ) (g : ρ) :
    ((drawParents members h n).run g).1.length = n := by
  induction n generalizing g with
  | zero => rfl
  | succ n ih => exact congrArg Nat.succ (ih _)

/-- What making a new population may raise: what the problem or the operator does, or that there is
no room for parents. -/
inductive Blames [Search α ρ W D] (c : Continuation α ρ W D) : Fault → Prop
  | problem {f : Fault} (h : (Search.problem c.inner).Raises f) : Blames c f
  | perturbation {f : Fault} (h : c.perturbation.Raises f) : Blames c f
  | room (h : Variation.maxParents < c.perturbation.arity) : Blames c .roomExceeded

variable [Search α ρ W D]

/-- A brood of archive members may lack room for its parents, or the operator fails. -/
theorem raisesOnly_brood (c : Continuation α ρ W D) (members : List (Solution D)) :
    RaisesOnly c.Blames (brood members c.perturbation) := by
  unfold brood
  split
  next h =>
    refine (RaisesOnly.check (failsOnly_ensureRoom .room)).bind fun _ => ?_
    refine RaisesOnly.bind_of_ok (fun _ _ _ herror => ?_) fun s parents t hdraw => ?_
    · obtain ⟨_, herror, -⟩ := focus_apply_eq_error.1 herror
      cases herror
    · obtain ⟨_, hdraw, -⟩ := focus_apply_eq_ok.1 hdraw
      cases hdraw
      exact fun s' f t' hevolve =>
        .perturbation ⟨_, s', t', length_drawParents members h _ s.1, hevolve⟩
  · exact .pure _

theorem raisesOnly_renewal (c : Continuation α ρ W D) (size injected : ℕ) :
    RaisesOnly c.Blames (c.renewal size injected) := by
  have hcreate : RaisesOnly c.Blames (Search.problem c.inner).create :=
    fun _ _ _ h => .problem (.create h)
  have hrandom : RaisesOnly c.Blames ((Search.problem c.inner).createMany injected) :=
    fun _ _ _ h => .problem ((Search.problem c.inner).raisesOnly_createMany _ _ _ _ h)
  exact hrandom.bind fun _ =>
    (raisesOnly_fill [] (fun _ => raisesOnly_brood c _) hcreate).bind fun _ => .pure _

/-- A population that can be stored is made, unless the problem or the operator fails or there is no
room for parents. -/
theorem blames_of_rebuild {c : Continuation α ρ W D} {w : W} {s : Continuation α ρ W D × W}
    {size injected : ℕ} (hsize : size ≤ Population.capacity)
    (h : rebuild size injected (c, w) = .error (.fault f) s) : c.Blames f := by
  simp only [rebuild, bind_apply, get_apply, fault_apply, ensureRoom_eq_ok.2 hsize] at h
  change drawing (c.renewal size injected) (c, w) = _ at h
  rw [drawing_apply] at h
  cases hrenewal : c.renewal size injected (c.generator, w) with
  | error f' t =>
    rw [hrenewal] at h
    cases h
    exact raisesOnly_renewal c _ _ _ _ _ hrenewal
  | ok solutions t =>
    rw [hrenewal] at h
    cases h

end Renewal

/-! ### Steps -/

section Steps

variable [Search α ρ W D] [Generator ρ]

/-- How a step ends in a fault, and the inner algorithm that it leaves. -/
inductive Breakdown (f : Fault) : Continuation α ρ W D × W → α → Prop
  /-- The step of the inner algorithm fails. -/
  | step {c : Continuation α ρ W D} {w w' : W} {a : α}
      (hstep : Search.step (c.inner, w) = .error (.fault f) (a, w')) : Breakdown f (c, w) a
  /-- The counter cannot be moved. -/
  | counter {c : Continuation α ρ W D} {w w' : W} {a : α}
      (hstep : Search.step (c.inner, w) = .ok () (a, w'))
      (hcounter : movedCounter c.config.frequency c.progress (evaluations a) = .error f) :
      Breakdown f (c, w) a
  /-- No new population is made. -/
  | rebuild {c d : Continuation α ρ W D} {w w₁ : W} {new : ℕ} {s : Continuation α ρ W D × W}
      (harrives : c.Arrives w d w₁) (hnew : new ≤ d.config.maximumPopulation)
      (hrebuild : rebuild new (injectedCount d.config new) (d, w₁) = .error (.fault f) s) :
      Breakdown f (c, w) s.1.inner
  /-- The inner algorithm does not take the new population. -/
  | replacePopulation {c d : Continuation α ρ W D} {w w₁ w₂ w' : W} {r : Resize}
      {solutions : List (Solution D)} {g : ρ} {a : α} (harrives : c.Arrives w d w₁)
      (hrenews : d.Renews w₁ r solutions g w₂)
      (hreplace : Search.replacePopulation solutions (d.inner, w₂) = .error (.fault f) (a, w')) :
      Breakdown f (c, w) a

/-- A rebuild that ends in a fault has found the size of the new population. -/
theorem resize_eq_fault {c : Continuation α ρ W D} {w : W} {s : Continuation α ρ W D × W}
    (hconfig : c.config.validate = .ok ()) (hdue : c.IsStalled ∨ c.IsOverdue)
    (h : resize (archiveSize c.inner) c.isForced (c, w) = .error (.fault f) s) :
    (∃ new ≤ c.config.maximumPopulation,
      rebuild new (injectedCount c.config new) (c, w) = .error (.fault f) s) ∨
    ∃ r solutions g w₁, c.Renews w r solutions g w₁ ∧
      Search.replacePopulation solutions (c.inner, w₁) = .error (.fault f) (s.1.inner, s.2) := by
  obtain ⟨factor, hgrowth⟩ :=
    exists_growth_eq_ok hconfig c.progress.previousArchive (archiveSize c.inner)
  obtain ⟨new, hnew⟩ := exists_newSize_eq_ok hconfig (population c.inner).length factor
  simp only [resize, bind_apply, get_apply, fault_apply, hgrowth, hnew] at h
  rcases rebuild_cases new (injectedCount c.config new) c w with
    ⟨solutions, g, w₁, hrebuild⟩ | ⟨f', t, hrebuild⟩
  · have hrenews : c.Renews w (c.record factor new) solutions g w₁ :=
      ⟨hdue, hgrowth, hnew, hrebuild, rfl⟩
    simp only [hrebuild, onInner_apply] at h
    cases hreplace : Search.replacePopulation solutions (c.inner, w₁) with
    | ok _ t =>
      rw [hreplace] at h
      cases h
    | error e t =>
      rw [hreplace] at h
      cases h
      exact .inr ⟨_, _, _, _, hrenews, hreplace⟩
  · simp only [hrebuild] at h
    cases h
    exact .inl ⟨new, (newSize_bounds hnew).2, hrebuild⟩

/-- **The ways in which a step ends in a fault**, under a configuration that makes sense. -/
theorem breakdown_of_step {c : Continuation α ρ W D} {w : W} {s : Continuation α ρ W D × W}
    (hconfig : c.config.validate = .ok ()) (h : step (c, w) = .error (.fault f) s) :
    Breakdown f (c, w) s.1.inner := by
  rw [step_apply] at h
  cases hstep : Search.step (c.inner, w) with
  | error e t =>
    rw [hstep] at h
    cases h
    exact .step hstep
  | ok _ t =>
    obtain ⟨a, w₁⟩ := t
    simp only [hstep] at h
    cases hcounter : movedCounter c.config.frequency c.progress (evaluations a) with
    | error f' =>
      simp only [hcounter] at h
      cases h
      exact .counter hstep hcounter
    | ok n =>
      simp only [hcounter] at h
      by_cases hwindow : c.config.window ≤ n
      · have harrives : c.Arrives w (c.atCheck a) w₁ := ⟨hstep, ⟨n, hcounter, hwindow⟩, rfl⟩
        rw [if_pos hwindow, check_apply] at h
        by_cases hdue : (c.atCheck a).IsStalled ∨ (c.atCheck a).IsOverdue
        · rw [if_pos hdue] at h
          rcases resize_eq_fault (c := c.atCheck a) hconfig hdue h with
            ⟨new, hle, hrebuild⟩ | ⟨r, solutions, g, w₂, hrenews, hreplace⟩
          · exact .rebuild harrives hle hrebuild
          · exact .replacePopulation harrives hrenews hreplace
        · rw [if_neg hdue] at h
          cases h
      · rw [if_neg hwindow] at h
        cases h

end Steps

end ParetoSearch.Continuation
