import Mathlib.Data.Nat.Notation
import Mathlib.Tactic.Simps.Basic
import Mathlib.Tactic.SplitIfs
import ParetoSearch.Continuation.Basic
import ParetoSearch.Proofs.Search.Loop

/-!
# What a step under continuation does

A step of an algorithm under adaptive continuation makes one or two calls of the inner
algorithm. It passes quietly, or it comes to a check at which the population is held or
rebuilt (`Passage`). If it ends in an error, the inner algorithm has ended in it, and no
rebuild is recorded (`Setback`): whatever else goes wrong is a fault. There is no other
end (`step_cases`), so that invariants need not open a step again.

Runs of steps that succeed are kept with a log of what is seen of each (`Trail`); what
every passage keeps holds of all of them (`Trail.of_passage`).
-/

namespace ParetoSearch

variable {α ρ W D β : Type}

/-! ### Calls -/

/-- A call that changes an algorithm. -/
inductive Search.Call (D : Type) where
  | step
  | replacePopulation (solutions : List (Solution D))

/-- Makes a call. -/
def Search.Call.run [Search α ρ W D] : Search.Call D → EStateM Failure (α × W) Unit
  | .step => Search.step
  | .replacePopulation solutions => Search.replacePopulation solutions

namespace Continuation

open Search (archiveSize evaluations population)

/-! ### Single operations -/

theorem onInner_apply (x : EStateM Failure (α × W) β) (c : Continuation α ρ W D) (w : W) :
    onInner x (c, w) =
      match x (c.inner, w) with
      | .ok b (a, w) => .ok b ({ c with inner := a }, w)
      | .error e (a, w) => .error e ({ c with inner := a }, w) := by
  unfold onInner focus
  dsimp only
  cases x (c.inner, w) <;> rfl

theorem drawing_apply (x : EStateM Fault (ρ × W) β) (c : Continuation α ρ W D) (w : W) :
    drawing x (c, w) =
      match x (c.generator, w) with
      | .ok b (g, w) => .ok b ({ c with generator := g }, w)
      | .error f (g, w) => .error (.fault f) ({ c with generator := g }, w) := by
  unfold drawing focus EStateM.adaptExcept
  dsimp only
  cases x (c.generator, w) <;> rfl

theorem modifyProgress_apply (f : Progress → Progress) (c : Continuation α ρ W D) (w : W) :
    modifyProgress f (c, w) = .ok () ({ c with progress := f c.progress }, w) := rfl

variable [Search α ρ W D]

/-! ### The stages of a step -/

/-- The algorithm after a step of the inner one, with the counter moved. -/
@[simps]
def moved (c : Continuation α ρ W D) (a : α) (counter : ℕ) : Continuation α ρ W D :=
  { c with
    inner := a
    progress := { c.progress with counter, lastEvaluations := evaluations a } }

/-- The algorithm at a check: the counter starts again, and the check is counted. -/
@[simps]
def atCheck (c : Continuation α ρ W D) (a : α) : Continuation α ρ W D :=
  { c with
    inner := a
    progress :=
      { c.progress with
        counter := 0
        lastEvaluations := evaluations a
        checks := c.progress.checks + 1
        checksSinceResize := c.progress.checksSinceResize + 1 } }

/-- The archive has not grown since the check before. -/
def IsStalled (c : Continuation α ρ W D) : Prop := archiveSize c.inner ≤ c.progress.previousArchive

/-- There have been as many checks since the last rebuild as there may be. -/
def IsOverdue (c : Continuation α ρ W D) : Prop := c.config.maxWindow ≤ c.progress.checksSinceResize

instance (c : Continuation α ρ W D) : Decidable c.IsStalled :=
  inferInstanceAs (Decidable (_ ≤ _))

instance (c : Continuation α ρ W D) : Decidable c.IsOverdue :=
  inferInstanceAs (Decidable (_ ≤ _))

/-- Whether only the number of checks leads to a rebuild. -/
def isForced (c : Continuation α ρ W D) : Bool := !decide c.IsStalled && decide c.IsOverdue

/-- The algorithm behind a check at which the population is held. -/
@[simps]
def held (c : Continuation α ρ W D) : Continuation α ρ W D :=
  { c with progress := { c.progress with previousArchive := archiveSize c.inner } }

/-- The record of a rebuild at a check. -/
def record (c : Continuation α ρ W D) (factor : Float) (new : ℕ) : Resize where
  check := c.progress.checks
  previousArchive := c.progress.previousArchive
  archive := archiveSize c.inner
  growth := factor
  oldPopulation := (population c.inner).length
  newPopulation := new
  injected := injectedCount c.config new
  forced := c.isForced

/-- The algorithm behind a rebuild. -/
@[simps]
def rebuilt (c : Continuation α ρ W D) (g : ρ) (a : α) (r : Resize) : Continuation α ρ W D :=
  { c with
    generator := g
    inner := a
    progress :=
      { c.progress with
        resizes := c.progress.resizes ++ [r]
        checksSinceResize := 0
        previousArchive := archiveSize a
        lastEvaluations := evaluations a } }

variable [Generator ρ]

/-- The step of the inner algorithm succeeds, and with it the window has passed. -/
structure Arrives (c : Continuation α ρ W D) (w : W) (d : Continuation α ρ W D) (w' : W) :
    Prop where
  step_eq : Search.step (c.inner, w) = .ok () (d.inner, w')
  exists_counter : ∃ n, movedCounter c.config.frequency c.progress (evaluations d.inner) = .ok n ∧
    c.config.window ≤ n
  eq_atCheck : d = c.atCheck d.inner

/-- At a check the solutions are made that are to be the new population. -/
structure Renews (c : Continuation α ρ W D) (w : W) (r : Resize) (solutions : List (Solution D))
    (g : ρ) (w' : W) : Prop where
  due : c.IsStalled ∨ c.IsOverdue
  growth_eq : growth c.config c.progress.previousArchive (archiveSize c.inner) = .ok r.growth
  newSize_eq : newSize c.config (population c.inner).length r.growth = .ok r.newPopulation
  rebuild_eq : rebuild r.newPopulation r.injected (c, w) =
    .ok solutions ({ c with generator := g }, w')
  record_eq : r = c.record r.growth r.newPopulation

/-- What a step that succeeds does, with the calls of the inner algorithm and the states in which
they are made. -/
inductive Passage : Continuation α ρ W D × W → List (Search.Call D × α × W) →
    Continuation α ρ W D × W → Prop
  /-- The window has not passed. -/
  | quiet {c : Continuation α ρ W D} {w w' : W} {a : α} {n : ℕ}
      (hstep : Search.step (c.inner, w) = .ok () (a, w'))
      (hcounter : movedCounter c.config.frequency c.progress (evaluations a) = .ok n)
      (hwindow : n < c.config.window) :
      Passage (c, w) [(.step, c.inner, w)] (c.moved a n, w')
  /-- The archive has grown, and no rebuild is due. -/
  | held {c d : Continuation α ρ W D} {w w' : W} (harrives : c.Arrives w d w')
      (hgrown : ¬d.IsStalled) (htime : ¬d.IsOverdue) :
      Passage (c, w) [(.step, c.inner, w)] (d.held, w')
  /-- The population is rebuilt. -/
  | rebuilt {c d : Continuation α ρ W D} {w w₁ w₂ w' : W} {r : Resize}
      {solutions : List (Solution D)} {g : ρ} {a : α} (harrives : c.Arrives w d w₁)
      (hrenews : d.Renews w₁ r solutions g w₂)
      (hreplace : Search.replacePopulation solutions (d.inner, w₂) = .ok () (a, w')) :
      Passage (c, w) [(.step, c.inner, w), (.replacePopulation solutions, d.inner, w₂)]
        (d.rebuilt g a r, w')

/-- How a step ends in an error. -/
inductive Setback (e : Error) : Continuation α ρ W D × W → Continuation α ρ W D × W → Prop
  /-- The step of the inner algorithm fails. -/
  | step {c : Continuation α ρ W D} {w w' : W} {a : α}
      (hstep : Search.step (c.inner, w) = .error (.error e) (a, w')) :
      Setback e (c, w) ({ c with inner := a }, w')
  /-- The inner algorithm does not take the new population. -/
  | replacePopulation {c d : Continuation α ρ W D} {w w₁ w₂ w' : W} {r : Resize}
      {solutions : List (Solution D)} {g : ρ} {a : α} (harrives : c.Arrives w d w₁)
      (hrenews : d.Renews w₁ r solutions g w₂)
      (hreplace : Search.replacePopulation solutions (d.inner, w₂) = .error (.error e) (a, w')) :
      Setback e (c, w) ({ d with generator := g, inner := a }, w')

/-! ### Rebuilds -/

omit [Search α ρ W D] [Generator ρ] in
/-- The size of a new population lies between the population bounds. -/
theorem newSize_bounds {config : ContinuationConfig} {old new : ℕ} {factor : Float}
    (h : newSize config old factor = .ok new) :
    config.minimumPopulation ≤ new ∧ new ≤ config.maximumPopulation := by
  unfold newSize clampSize at h
  split_ifs at h with hbounds
  rw [← Except.ok.inj h]
  exact ⟨Nat.le_max_left _ _, Nat.max_le.2 ⟨hbounds, Nat.min_le_right _ _⟩⟩

/-- The draws that make a new population: so many random decisions, and children of archive members
for the other places. -/
def renewal (c : Continuation α ρ W D) (size injected : ℕ) :
    EStateM Fault (ρ × W) (List (Solution D)) := do
  let random ← (Search.problem c.inner).createMany injected
  let others ← fill
    (brood (((Search.archive c.inner).map Archive.solutions).getD []) c.perturbation)
    (Search.problem c.inner).create (size - injected) []
  return random ++ others

/-- Making a new population draws with the generator for rebuilds and changes nothing else. -/
theorem rebuild_eq_ok {size injected : ℕ} {c : Continuation α ρ W D} {w : W}
    {solutions : List (Solution D)} {s : Continuation α ρ W D × W} :
    rebuild size injected (c, w) = .ok solutions s ↔
      size ≤ Population.capacity ∧
        ∃ g w', c.renewal size injected (c.generator, w) = .ok solutions (g, w') ∧
          ({ c with generator := g }, w') = s := by
  simp only [rebuild, bind_apply, get_apply, fault_apply, ← ensureRoom_eq_ok]
  cases ensureRoom Population.capacity size with
  | error f => simp
  | ok =>
    show drawing (c.renewal size injected) (c, w) = _ ↔ _
    rw [drawing_apply]
    cases c.renewal size injected (c.generator, w) <;> grind

/-- What can go wrong in making a new population is a fault. -/
theorem rebuild_cases (size injected : ℕ) (c : Continuation α ρ W D) (w : W) :
    (∃ solutions g w',
      rebuild size injected (c, w) = .ok solutions ({ c with generator := g }, w')) ∨
    ∃ f s, rebuild size injected (c, w) = .error (.fault f) s := by
  simp only [rebuild, bind_apply, get_apply, fault_apply]
  cases ensureRoom Population.capacity size with
  | error f => exact .inr ⟨f, _, rfl⟩
  | ok =>
    simp only [drawing_apply]
    split
    next solutions g w' h => exact .inl ⟨_, g, w', rfl⟩
    next f g w' h => exact .inr ⟨f, _, rfl⟩

theorem length_of_renewal {size injected : ℕ} {c : Continuation α ρ W D}
    {solutions : List (Solution D)} {s t : ρ × W} (hle : injected ≤ size)
    (h : c.renewal size injected s = .ok solutions t) : solutions.length = size := by
  obtain ⟨random, _, hrandom, h⟩ := bind_apply_eq_ok.1 h
  obtain ⟨others, _, hothers, h⟩ := bind_apply_eq_ok.1 h
  obtain ⟨rfl, -⟩ := pure_apply_eq_ok.1 h
  rw [List.length_append, Problem.length_of_createMany hrandom, length_of_fill hothers]
  omega

theorem Renews.length_eq {c : Continuation α ρ W D} {w w' : W} {r : Resize}
    {solutions : List (Solution D)} {g : ρ} (h : c.Renews w r solutions g w')
    (hle : r.injected ≤ r.newPopulation) : solutions.length = r.newPopulation := by
  obtain ⟨-, _, _, hrenewal, -⟩ := rebuild_eq_ok.1 h.rebuild_eq
  exact length_of_renewal hle hrenewal

/-- What is made for a rebuild replaces the population, and the rebuild is recorded. -/
theorem Renews.resize_eq {c : Continuation α ρ W D} {w w₁ w' : W} {r : Resize}
    {solutions : List (Solution D)} {g : ρ} {a : α} (h : c.Renews w r solutions g w₁)
    (hreplace : Search.replacePopulation solutions (c.inner, w₁) = .ok () (a, w')) :
    resize (archiveSize c.inner) c.isForced (c, w) = .ok () (c.rebuilt g a r, w') := by
  have hinjected : r.injected = injectedCount c.config r.newPopulation :=
    congrArg Resize.injected h.record_eq
  have hrebuild := h.rebuild_eq
  rw [hinjected] at hrebuild
  simp only [resize, bind_apply, get_apply, fault_apply, h.growth_eq, h.newSize_eq, hrebuild,
    onInner_apply, hreplace]
  rw [h.record_eq]
  rfl

/-- The ends of a rebuild that is due. -/
theorem resize_cases {c : Continuation α ρ W D} (w : W) (hdue : c.IsStalled ∨ c.IsOverdue) :
    (∃ r solutions g w₁ a w', c.Renews w r solutions g w₁ ∧
      Search.replacePopulation solutions (c.inner, w₁) = .ok () (a, w') ∧
      resize (archiveSize c.inner) c.isForced (c, w) = .ok () (c.rebuilt g a r, w')) ∨
    (∃ r solutions g w₁ e a w', c.Renews w r solutions g w₁ ∧
      Search.replacePopulation solutions (c.inner, w₁) = .error (.error e) (a, w') ∧
      resize (archiveSize c.inner) c.isForced (c, w) =
        .error (.error e) ({ c with generator := g, inner := a }, w')) ∨
    ∃ f s, resize (archiveSize c.inner) c.isForced (c, w) = .error (.fault f) s := by
  simp only [resize, bind_apply, get_apply, fault_apply]
  cases hgrowth : growth c.config c.progress.previousArchive (archiveSize c.inner) with
  | error f => exact .inr (.inr ⟨f, _, rfl⟩)
  | ok factor =>
    dsimp only
    cases hnew : newSize c.config (population c.inner).length factor with
    | error f => exact .inr (.inr ⟨f, _, rfl⟩)
    | ok new =>
      dsimp only
      rcases rebuild_cases new (injectedCount c.config new) c w with
        ⟨solutions, g, w₁, hrebuild⟩ | ⟨f, s, hrebuild⟩
      · have hrenews : c.Renews w (c.record factor new) solutions g w₁ :=
          ⟨hdue, hgrowth, hnew, hrebuild, rfl⟩
        simp only [hrebuild, onInner_apply]
        cases hreplace : Search.replacePopulation solutions (c.inner, w₁) with
        | ok _ s => exact .inl ⟨_, _, _, _, _, _, hrenews, hreplace, rfl⟩
        | error e s =>
          cases e with
          | error e => exact .inr (.inl ⟨_, _, _, _, _, _, _, hrenews, hreplace, rfl⟩)
          | fault f => exact .inr (.inr ⟨f, _, rfl⟩)
      · rw [hrebuild]
        exact .inr (.inr ⟨f, s, rfl⟩)

/-! ### Steps -/

theorem check_apply (c : Continuation α ρ W D) (a : α) (w : W) :
    check (c.moved a 0, w) =
      if (c.atCheck a).IsStalled ∨ (c.atCheck a).IsOverdue then
        resize (archiveSize a) (c.atCheck a).isForced (c.atCheck a, w)
      else .ok () ((c.atCheck a).held, w) := by
  have hdue : (decide (c.atCheck a).IsStalled || (c.atCheck a).isForced) = true ↔
      (c.atCheck a).IsStalled ∨ (c.atCheck a).IsOverdue := by
    by_cases h : (c.atCheck a).IsStalled <;> simp [isForced, h]
  simp only [check, bind_apply, get_apply, modifyProgress_apply]
  by_cases h : (c.atCheck a).IsStalled ∨ (c.atCheck a).IsOverdue
  · rw [if_pos h]
    exact congrFun (if_pos (hdue.2 h)) _
  · rw [if_neg h]
    exact congrFun (if_neg (mt hdue.1 h)) _

theorem step_apply (c : Continuation α ρ W D) (w : W) :
    step (c, w) =
      match Search.step (c.inner, w) with
      | .error e (a, w) => .error e ({ c with inner := a }, w)
      | .ok _ (a, w) =>
        match movedCounter c.config.frequency c.progress (evaluations a) with
        | .error f => .error (.fault f) ({ c with inner := a }, w)
        | .ok n =>
          if c.config.window ≤ n then check (c.moved a 0, w) else .ok () (c.moved a n, w) := by
  simp only [step, bind_apply, onInner_apply]
  cases Search.step (c.inner, w) with
  | error e s => rfl
  | ok _ s =>
    simp only [get_apply, fault_apply]
    cases movedCounter c.config.frequency c.progress (evaluations s.1) with
    | error f => rfl
    | ok n =>
      simp only [modifyProgress_apply]
      split_ifs <;> rfl

/-- A step that comes to a check goes on with it. -/
theorem Arrives.step_eq_check {c d : Continuation α ρ W D} {w w' : W} (h : c.Arrives w d w') :
    step (c, w) =
      if d.IsStalled ∨ d.IsOverdue then resize (archiveSize d.inner) d.isForced (d, w')
      else .ok () (d.held, w') := by
  obtain ⟨n, hcounter, hwindow⟩ := h.exists_counter
  rw [step_apply, h.step_eq]
  simp only [hcounter, if_pos hwindow, check_apply, ← h.eq_atCheck]

/-- **The ends of a step**: it passes, or it ends in an error of the inner algorithm, or there is a
fault. -/
theorem step_cases (s : Continuation α ρ W D × W) :
    (∃ calls t, step s = .ok () t ∧ Passage s calls t) ∨
    (∃ e t, step s = .error (.error e) t ∧ Setback e s t) ∨
    ∃ f t, step s = .error (.fault f) t := by
  obtain ⟨c, w⟩ := s
  rw [step_apply]
  cases hstep : Search.step (c.inner, w) with
  | error e s =>
    cases e with
    | error e => exact .inr (.inl ⟨e, _, rfl, .step hstep⟩)
    | fault f => exact .inr (.inr ⟨f, _, rfl⟩)
  | ok _ s =>
    obtain ⟨a, w₁⟩ := s
    dsimp only
    cases hcounter : movedCounter c.config.frequency c.progress (evaluations a) with
    | error f => exact .inr (.inr ⟨f, _, rfl⟩)
    | ok n =>
      dsimp only
      by_cases hwindow : c.config.window ≤ n
      · have harrives : c.Arrives w (c.atCheck a) w₁ := ⟨hstep, ⟨n, hcounter, hwindow⟩, rfl⟩
        rw [if_pos hwindow, check_apply]
        by_cases hdue : (c.atCheck a).IsStalled ∨ (c.atCheck a).IsOverdue
        · rw [if_pos hdue]
          rcases resize_cases w₁ hdue with ⟨r, _, g, _, b, w', hrenews, hreplace, hresize⟩ |
            ⟨r, _, g, _, e, b, w', hrenews, hreplace, hresize⟩ | ⟨f, t, hresize⟩
          · exact .inl ⟨_, _, hresize, .rebuilt harrives hrenews hreplace⟩
          · exact .inr (.inl ⟨e, _, hresize, .replacePopulation harrives hrenews hreplace⟩)
          · exact .inr (.inr ⟨f, t, hresize⟩)
        · rw [if_neg hdue]
          exact .inl ⟨_, _, rfl, .held harrives (mt .inl hdue) (mt .inr hdue)⟩
      · rw [if_neg hwindow]
        exact .inl ⟨_, _, rfl, .quiet hstep hcounter (Nat.lt_of_not_le hwindow)⟩

theorem exists_passage_of_step {s t : Continuation α ρ W D × W} (h : step s = .ok () t) :
    ∃ calls, Passage s calls t := by
  rcases step_cases s with ⟨calls, _, hstep, hpassage⟩ | ⟨e, _, hstep, -⟩ | ⟨f, _, hstep⟩
  · cases h.symm.trans hstep
    exact ⟨calls, hpassage⟩
  · cases h.symm.trans hstep
  · cases h.symm.trans hstep

theorem Passage.step_eq {s t : Continuation α ρ W D × W} {calls : List (Search.Call D × α × W)}
    (h : Passage s calls t) : step s = .ok () t := by
  cases h with
  | quiet hstep hcounter hwindow =>
    rw [step_apply, hstep]
    simp only [hcounter, if_neg (Nat.not_le_of_lt hwindow)]
  | held harrives hgrown htime =>
    rw [harrives.step_eq_check, if_neg (not_or.2 ⟨hgrown, htime⟩)]
  | rebuilt harrives hrenews hreplace =>
    rw [harrives.step_eq_check, if_pos hrenews.due, hrenews.resize_eq hreplace]

theorem setback_of_step {s t : Continuation α ρ W D × W} {e : Error}
    (h : step s = .error (.error e) t) : Setback e s t := by
  rcases step_cases s with ⟨calls, _, hstep, -⟩ | ⟨_, _, hstep, hsetback⟩ | ⟨f, _, hstep⟩
  · cases h.symm.trans hstep
  · cases h.symm.trans hstep
    exact hsetback
  · cases h.symm.trans hstep

/-! ### Runs -/

/-- Runs of successful steps with a log. Of a step from `c` to `d` the log gets `view c a d`, where
`a` is the inner algorithm behind its own step. Each step may find another world. -/
inductive Trail (view : Continuation α ρ W D → α → Continuation α ρ W D → List β)
    (c₀ : Continuation α ρ W D) : List β → Continuation α ρ W D → Prop
  | start : Trail view c₀ [] c₀
  | step {log : List β} {c d : Continuation α ρ W D} {a : α} {w v w' : W}
      (htrail : Trail view c₀ log c) (hinner : Search.step (c.inner, w) = .ok () (a, v))
      (hstep : step (c, w) = .ok () (d, w')) : Trail view c₀ (log ++ view c a d) d

namespace Trail

variable {view : Continuation α ρ W D → α → Continuation α ρ W D → List β} {log : List β}
  {c₀ c d : Continuation α ρ W D} {w w' : W}

theorem exists_step (htrail : Trail view c₀ log c)
    (hstep : Continuation.step (c, w) = .ok () (d, w')) :
    ∃ a, Trail view c₀ (log ++ view c a d) d := by
  obtain ⟨calls, hpassage⟩ := exists_passage_of_step hstep
  cases hpassage with
  | quiet hinner => exact ⟨_, .step htrail hinner hstep⟩
  | held harrives => exact ⟨_, .step htrail harrives.step_eq hstep⟩
  | rebuilt harrives => exact ⟨_, .step htrail harrives.step_eq hstep⟩

theorem exists_stepMany {n : ℕ} (hsteps : Search.stepMany n (c₀, w) = .ok () (c, w')) :
    ∃ log, Trail view c₀ log c := by
  refine Search.of_stepMany (P := fun s => ∃ log, Trail view c₀ log s.1) ?_ ⟨[], .start⟩ hsteps
  rintro s t ⟨log, htrail⟩ hstep
  obtain ⟨a, htrail⟩ := htrail.exists_step hstep
  exact ⟨_, htrail⟩

/-- What holds at the start, and is kept by every passage, holds in every run. -/
theorem of_passage {P : List β → Continuation α ρ W D → Prop} (hstart : P [] c₀)
    (hpassage : ∀ {log c d a w v w' calls}, P log c → Search.step (c.inner, w) = .ok () (a, v) →
      Passage (c, w) calls (d, w') → P (log ++ view c a d) d)
    (htrail : Trail view c₀ log c) : P log c := by
  induction htrail with
  | start => exact hstart
  | step _ hinner hstep ih =>
    obtain ⟨calls, h⟩ := exists_passage_of_step hstep
    exact hpassage ih hinner h

end Trail

/-! ### Evaluations -/

/-- A step takes back no evaluations, if the calls of the inner algorithm do not. -/
theorem Passage.evaluations_le [Search.Cumulative α] {s t : Continuation α ρ W D × W}
    {calls : List (Search.Call D × α × W)} (h : Passage s calls t) :
    evaluations s.1.inner ≤ evaluations t.1.inner := by
  cases h with
  | quiet hstep => exact Search.Cumulative.le_of_step hstep
  | held harrives => exact Search.Cumulative.le_of_step harrives.step_eq
  | rebuilt harrives _ hreplace =>
    exact Nat.le_trans (Search.Cumulative.le_of_step harrives.step_eq)
      (Search.Cumulative.le_of_replacePopulation hreplace)

instance [Search.Cumulative α] : Search.Cumulative (Continuation α ρ W D) where
  le_of_step hstep := by
    obtain ⟨calls, hpassage⟩ := exists_passage_of_step hstep
    exact hpassage.evaluations_le
  le_of_replacePopulation {solutions c d w w'} hreplace := by
    change onInner (Search.replacePopulation solutions) (c, w) = _ at hreplace
    rw [onInner_apply] at hreplace
    cases hinner : Search.replacePopulation solutions (c.inner, w) with
    | error e s => simp [hinner] at hreplace
    | ok _ s =>
      simp only [hinner] at hreplace
      cases hreplace
      show evaluations c.inner ≤ evaluations s.1
      exact Search.Cumulative.le_of_replacePopulation hinner

end Continuation

end ParetoSearch
