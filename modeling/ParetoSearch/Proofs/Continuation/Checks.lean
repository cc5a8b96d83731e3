import Mathlib.Data.List.Chain
import Mathlib.Data.List.DropRight
import ParetoSearch.Proofs.Continuation.Passages
import ParetoSearch.Random.ChaCha
import ParetoSearch.Rehearsal.Benchmark
import ParetoSearch.Rehearsal.Operators
import ParetoSearch.Rehearsal.Scripted

/-!
# When a population is rebuilt

What can be seen of a run of successful steps is a list of checks: the inner algorithm
at each, the inner algorithm when it is over, and what has been recorded meanwhile
(`Run`). From this list alone it can be said at which checks the population is rebuilt
(`Check.Obeys`): the archive is not larger than at the end of the check before, or as
many checks as allowed have passed since the last rebuild (`Run.checks_obey`).

The algorithm itself decides by tallies that it updates in different places: the number
of checks, of those since the last rebuild, the size of the archive, and the records.
That they say what the list says is what every passage keeps (`Tallies`).
-/

namespace ParetoSearch.Continuation

open Search (archiveSize)

variable {α ρ W D : Type}

/-! ### Checks -/

/-- What is seen of a check. -/
structure Check (α : Type) where
  /-- The inner algorithm behind its own step. -/
  found : α
  /-- The inner algorithm when the check is over. -/
  left : α
  /-- What is recorded between the two. -/
  records : List Resize

/-- Whether the population is rebuilt. -/
def Check.rebuilds (k : Check α) : Bool := !k.records.isEmpty

/-- The number of the last check that led to a rebuild; zero if there is none. -/
def lastRebuild (log : List (Check α)) : ℕ := (log.rdropWhile fun k => !k.rebuilds).length

/-- The number of the check that the last record names; zero if there is none. -/
def lastCheck (p : Progress) : ℕ := (p.lastResize?.map Resize.check).getD 0

theorem lastRebuild_concat (log : List (Check α)) (k : Check α) :
    lastRebuild (log ++ [k]) = if k.rebuilds then log.length + 1 else lastRebuild log := by
  unfold lastRebuild
  by_cases h : k.rebuilds
  · rw [List.rdropWhile_concat_neg _ _ _ (by simp [h]), if_pos h, List.length_append]
    rfl
  · rw [List.rdropWhile_concat_pos _ _ _ (by simp [h]), if_neg h]

theorem getLast?_checks (p : Progress) :
    (0 :: p.resizes.map Resize.check).getLast? = some (lastCheck p) := by
  rw [List.getLast?_cons, List.getLast?_map]
  rfl

/-- The check that is seen in a step, if there is one; `a` is the inner algorithm behind its own
step. -/
def seen (c : Continuation α ρ W D) (a : α) (d : Continuation α ρ W D) : List (Check α) :=
  if d.progress.checks = c.progress.checks then []
  else [⟨a, d.inner, d.progress.resizes.drop c.progress.resizes.length⟩]

theorem seen_eq_singleton {c d : Continuation α ρ W D} (a : α) (records : List Resize)
    (hchecks : d.progress.checks = c.progress.checks + 1)
    (hresizes : d.progress.resizes = c.progress.resizes ++ records) :
    seen c a d = [⟨a, d.inner, records⟩] := by
  rw [seen, if_neg (by omega), hresizes, List.drop_left]

variable [Search α ρ W D]

/-- The size of the archive at the end of the last check; `start` before the first one. -/
def sizeBehind (start : ℕ) (log : List (Check α)) : ℕ :=
  (log.getLast?.map fun k => archiveSize k.left).getD start

/-- The check that comes behind others happens as it should: the population is rebuilt exactly if
the archive has not grown or `maxWindow` checks have passed without, and it is recorded whether only
the second is the case. -/
structure Check.Obeys (k : Check α) (maxWindow start : ℕ) (before : List (Check α)) : Prop where
  rebuilds_iff : k.rebuilds ↔ archiveSize k.found ≤ sizeBehind start before ∨
    maxWindow ≤ before.length + 1 - lastRebuild before
  /-- Without a rebuild the inner algorithm is let alone. -/
  left_eq : ¬k.rebuilds → k.left = k.found
  /-- With one its population is replaced. -/
  exists_replacePopulation : k.rebuilds → ∃ solutions w w',
    Search.replacePopulation solutions (k.found, w) = .ok () (k.left, w')
  /-- A rebuild leaves one record. -/
  exists_record : k.rebuilds → ∃ r, k.records = [r] ∧ r.check = before.length + 1 ∧
    (r.forced ↔ ¬archiveSize k.found ≤ sizeBehind start before ∧
      maxWindow ≤ before.length + 1 - lastRebuild before)

variable {config : ContinuationConfig} {start : ℕ} {log : List (Check α)}

theorem forall_split_concat {β : Type} {entries : List β} {k : β} {P : β → List β → Prop}
    (h : ∀ before k behind, entries = before ++ k :: behind → P k before) (hk : P k entries) :
    ∀ before k' behind, entries ++ [k] = before ++ k' :: behind → P k' before := by
  intro before k' behind heq
  rcases List.eq_nil_or_concat' behind with rfl | ⟨rest, last, rfl⟩
  · obtain ⟨rfl, heq⟩ := List.append_inj' heq rfl
    obtain rfl : k = k' := by simpa using heq
    exact hk
  · have hsplit : entries ++ [k] = (before ++ k' :: rest) ++ [last] := by simpa using heq
    exact h before k' rest (List.append_inj' hsplit rfl).1

/-! ### Tallies -/

/-- What is kept between checks is what the checks so far say. -/
structure Tallies (config : ContinuationConfig) (start : ℕ) (log : List (Check α))
    (c : Continuation α ρ W D) : Prop where
  config_eq : c.config = config
  checks_eq : c.progress.checks = log.length
  previousArchive_eq : c.progress.previousArchive = sizeBehind start log
  since_add_eq : c.progress.checksSinceResize + lastRebuild log = log.length
  since_lt : c.progress.checksSinceResize < config.maxWindow
  resizes_eq : c.progress.resizes = log.flatMap Check.records
  lastCheck_eq : lastCheck c.progress = lastRebuild log
  /-- From one rebuild to the next, and to the first, there are at most `maxWindow` checks. -/
  gaps : (0 :: c.progress.resizes.map Resize.check).IsChain
    fun m n => m < n ∧ n ≤ m + config.maxWindow
  obeys : ∀ before k behind, log = before ++ k :: behind →
    k.Obeys config.maxWindow start before

namespace Tallies

variable {c : Continuation α ρ W D} {a : α}

/-- At a check the tallies tell whether the archive has grown. -/
theorem isStalled_iff (h : Tallies config start log c) (a : α) :
    (c.atCheck a).IsStalled ↔ archiveSize a ≤ sizeBehind start log := by
  rw [← h.previousArchive_eq]
  exact Iff.rfl

/-- At a check the tallies tell whether it is time. -/
theorem isOverdue_iff (h : Tallies config start log c) (a : α) :
    (c.atCheck a).IsOverdue ↔ config.maxWindow ≤ log.length + 1 - lastRebuild log := by
  have hsince : (c.atCheck a).progress.checksSinceResize = log.length + 1 - lastRebuild log := by
    have hadd := h.since_add_eq
    rw [atCheck_progress_checksSinceResize]
    omega
  rw [IsOverdue, hsince, ← h.config_eq]
  exact Iff.rfl

theorem isForced_iff (h : Tallies config start log c) (a : α) :
    (c.atCheck a).isForced ↔ ¬archiveSize a ≤ sizeBehind start log ∧
      config.maxWindow ≤ log.length + 1 - lastRebuild log := by
  rw [isForced, Bool.and_eq_true, Bool.not_eq_true', decide_eq_false_iff_not, decide_eq_true_iff,
    h.isStalled_iff, h.isOverdue_iff]

theorem moved (h : Tallies config start log c) (a : α) (n : ℕ) :
    Tallies config start (log ++ seen c a (c.moved a n)) (c.moved a n) := by
  have hseen : seen c a (c.moved a n) = [] := if_pos rfl
  rw [hseen, List.append_nil]
  exact ⟨h.config_eq, h.checks_eq, h.previousArchive_eq, h.since_add_eq, h.since_lt, h.resizes_eq,
    h.lastCheck_eq, h.gaps, h.obeys⟩

theorem held (h : Tallies config start log c) (hgrown : ¬(c.atCheck a).IsStalled)
    (htime : ¬(c.atCheck a).IsOverdue) :
    Tallies config start (log ++ seen c a (c.atCheck a).held) (c.atCheck a).held := by
  rw [seen_eq_singleton a [] (by simp) (by simp)]
  have hrebuilds : ¬(Check.mk a a []).rebuilds := by simp [Check.rebuilds]
  have hlast := (lastRebuild_concat log (Check.mk a a [])).trans (if_neg hrebuilds)
  constructor
  case config_eq => exact h.config_eq
  case checks_eq => simp [h.checks_eq]
  case previousArchive_eq => simp [sizeBehind]
  case since_add_eq =>
    rw [held_inner, atCheck_inner, hlast, List.length_append, ← h.since_add_eq]
    exact Nat.add_right_comm _ _ _
  case since_lt => exact Nat.lt_of_not_le (h.config_eq ▸ htime)
  case resizes_eq => simp [h.resizes_eq]
  case lastCheck_eq => exact h.lastCheck_eq.trans hlast.symm
  case gaps => exact h.gaps
  case obeys =>
    rw [h.isStalled_iff] at hgrown
    rw [h.isOverdue_iff] at htime
    refine forall_split_concat h.obeys ⟨?_, fun _ => rfl, ?_, ?_⟩
    · exact iff_of_false hrebuilds (not_or.2 ⟨hgrown, htime⟩)
    · exact fun h => absurd h hrebuilds
    · exact fun h => absurd h hrebuilds

variable [Generator ρ]

theorem rebuilt (h : Tallies config start log c) (hmax : 0 < config.maxWindow) {b : α}
    {w w₁ w₂ : W} {g : ρ} {r : Resize} {solutions : List (Solution D)}
    (hrenews : (c.atCheck a).Renews w r solutions g w₁)
    (hreplace : Search.replacePopulation solutions (a, w₁) = .ok () (b, w₂)) :
    Tallies config start (log ++ seen c a ((c.atCheck a).rebuilt g b r))
      ((c.atCheck a).rebuilt g b r) := by
  rw [seen_eq_singleton a [r] (by simp) (by simp)]
  have hrebuilds : (Check.mk a b [r]).rebuilds := rfl
  have hlast := (lastRebuild_concat log (Check.mk a b [r])).trans (if_pos hrebuilds)
  have hcheck : r.check = log.length + 1 := by
    rw [hrenews.record_eq, ← h.checks_eq]
    rfl
  constructor
  case config_eq => exact h.config_eq
  case checks_eq => simp [h.checks_eq]
  case previousArchive_eq => simp [sizeBehind]
  case since_add_eq => simp [hlast]
  case since_lt => exact hmax
  case resizes_eq => simp [h.resizes_eq]
  case lastCheck_eq => simp [lastCheck, Progress.lastResize?, hlast, hcheck]
  case gaps =>
    rw [rebuilt_progress_resizes, List.map_append, ← List.cons_append, List.isChain_append]
    refine ⟨h.gaps, List.isChain_singleton _, ?_⟩
    intro m hm n hn
    obtain rfl : lastCheck c.progress = m := Option.some.inj ((getLast?_checks _).symm.trans hm)
    obtain rfl : r.check = n := by simpa using hn
    have hadd := h.since_add_eq
    have hlt := h.since_lt
    rw [h.lastCheck_eq, hcheck]
    omega
  case obeys =>
    have hdue := hrenews.due
    rw [h.isStalled_iff, h.isOverdue_iff] at hdue
    refine forall_split_concat h.obeys ⟨?_, ?_, ?_, ?_⟩
    · exact iff_of_true hrebuilds hdue
    · exact fun h => absurd hrebuilds h
    · exact fun _ => ⟨solutions, w₁, w₂, hreplace⟩
    · refine fun _ => ⟨r, rfl, hcheck, ?_⟩
      rw [hrenews.record_eq]
      exact h.isForced_iff a

theorem passage (h : Tallies config start log c) (hmax : 0 < config.maxWindow)
    {d : Continuation α ρ W D} {w v w' : W} {calls : List (Search.Call D × α × W)}
    (hinner : Search.step (c.inner, w) = .ok () (a, v)) (hpassage : Passage (c, w) calls (d, w')) :
    Tallies config start (log ++ seen c a d) d := by
  cases hpassage with
  | quiet hstep _ _ =>
    cases hinner.symm.trans hstep
    exact h.moved a _
  | @held _ d _ _ harrives hgrown htime =>
    obtain ⟨hstep, -, heq⟩ := harrives
    cases hinner.symm.trans hstep
    rw [heq] at hgrown htime ⊢
    exact h.held hgrown htime
  | @rebuilt _ d _ _ _ _ _ _ _ _ harrives hrenews hreplace =>
    obtain ⟨hstep, -, heq⟩ := harrives
    cases hinner.symm.trans hstep
    rw [heq] at hrenews ⊢
    exact h.rebuilt hmax hrenews hreplace

end Tallies

/-! ### Runs -/

section Runs

variable [Generator ρ] {c₀ c : Continuation α ρ W D}

/-- Runs of successful steps, with the checks that are seen. -/
abbrev Run (c₀ : Continuation α ρ W D) : List (Check α) → Continuation α ρ W D → Prop :=
  Trail seen c₀

theorem Run.tallies (h₀ : Tallies config start [] c₀) (hmax : 0 < config.maxWindow)
    (hrun : Run c₀ log c) : Tallies config start log c :=
  Trail.of_passage h₀ (fun h hinner hpassage => h.passage hmax hinner hpassage) hrun

end Runs

/-- **Populations are rebuilt when the archive has not grown or it is time.** In every run of
successful steps every check obeys this rule, whatever the inner algorithm does, and there is one
record for each rebuild. So the number of checks since the last rebuild is always below `maxWindow`,
and the records name checks that ascend, with gaps of at most `maxWindow`. -/
theorem Run.checks_obey [Seedable ρ] {entropy : UInt64} {inner : α}
    {perturbation : Variation ρ W D} {c₀ c : Continuation α ρ W D}
    (hc₀ : ofConfig entropy inner config perturbation = .ok c₀) (hrun : Run c₀ log c) :
    c.progress.checks = log.length ∧
    (∀ before k behind, log = before ++ k :: behind →
      k.Obeys config.maxWindow (archiveSize inner) before) ∧
    c.progress.resizes = log.flatMap Check.records ∧
    c.progress.checksSinceResize = c.progress.checks - lastCheck c.progress ∧
    c.progress.checksSinceResize < config.maxWindow ∧
    (0 :: c.progress.resizes.map Resize.check).IsChain fun m n =>
      m < n ∧ n ≤ m + config.maxWindow := by
  obtain ⟨hconfig, -, A, hA, rfl⟩ := ofConfig_eq_ok.1 hc₀
  obtain ⟨-, hmax, -⟩ := ContinuationConfig.validate_eq_ok.1 hconfig
  have hsize : A.size = archiveSize inner := by
    rw [archiveSize, hA, Option.map_some, Option.getD_some]
  have h := hrun.tallies
    ⟨rfl, rfl, hsize, rfl, hmax, rfl, rfl, List.isChain_singleton _, by simp⟩ hmax
  refine ⟨h.checks_eq, h.obeys, h.resizes_eq, ?_, h.since_lt, h.gaps⟩
  rw [h.lastCheck_eq, h.checks_eq, ← h.since_add_eq, Nat.add_sub_cancel]

open Rehearsal in
/-- An algorithm whose first step finds a member for its archive, and none behind it. -/
def findingOnce : Scripted ChaCha Stage (List Float) where
  problem := BenchmarkProblem.toProblem
    { function := .identity 1, objectives := 1, constraints := 0, bounds := []
      decisions := [[1.0]], raiseFlagAt := none }
  population := []
  archive := some (Archive.ofEpsilons ⟨[1.0], by decide, by decide⟩)
  script := [{ offers := [Solution.ofEvaluation [1.0] ⟨[1.0], []⟩] }, {}]
  archivesReplacements := true

/-- A check behind each step, and populations of one random member. -/
def checkingAlways : ContinuationConfig where
  window := 1
  maxWindow := 2
  injectionRate := 1.0
  minimumPopulation := 1
  maximumPopulation := 1

open Rehearsal in
/-- At the first check the archive has grown, at the second one it has not. -/
theorem Run.checks_obey_of_stalled : ∃ (c₀ c : Continuation (Scripted ChaCha Stage (List Float))
    ChaCha Stage (List Float)) (log : List (Check (Scripted ChaCha Stage (List Float)))),
    ofConfig 0 findingOnce checkingAlways (shift 1 [1.0]) = .ok c₀ ∧ Run c₀ log c ∧
    log.length = 2 ∧ c.progress.resizes.length = 1 ∧
    (∀ before k behind, log = before ++ k :: behind →
      k.Obeys checkingAlways.maxWindow (archiveSize findingOnce) before) := by
  let c₀ : Continuation (Scripted ChaCha Stage (List Float)) ChaCha Stage (List Float) :=
    { inner := findingOnce, config := checkingAlways, perturbation := shift 1 [1.0]
      generator := Seedable.ofOption 0 none, progress := {} }
  have hc₀ : ofConfig 0 findingOnce checkingAlways (shift 1 [1.0]) = .ok c₀ :=
    ofConfig_eq_ok.2 ⟨by decide +kernel, by decide, _, rfl, rfl⟩
  have hends : (match Search.stepMany 2 (c₀, {}) with
    | .ok _ s => s.1.progress.checks == 2 && s.1.progress.resizes.length == 1
    | .error _ _ => false) = true := by decide +kernel
  cases hsteps : Search.stepMany 2 (c₀, {}) with
  | error e s => simp [hsteps] at hends
  | ok _ s =>
    simp only [hsteps, Bool.and_eq_true, beq_iff_eq] at hends
    obtain ⟨log, hrun⟩ : ∃ log, Run c₀ log s.1 := Trail.exists_stepMany hsteps
    obtain ⟨hchecks, hobey, -⟩ := Run.checks_obey hc₀ hrun
    exact ⟨c₀, s.1, log, hc₀, hrun, hchecks.symm.trans hends.1, hends.2, hobey⟩

end ParetoSearch.Continuation
