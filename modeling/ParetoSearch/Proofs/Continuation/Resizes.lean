import ParetoSearch.Proofs.Binary64.Counts
import ParetoSearch.Proofs.Continuation.Passages
import ParetoSearch.Proofs.Search.Loop
import ParetoSearch.Random.ChaCha
import ParetoSearch.Rehearsal.Benchmark
import ParetoSearch.Rehearsal.Operators
import ParetoSearch.Rehearsal.Scripted

/-!
# The sizes that rebuilds record

What is recorded of a rebuild is computed from counts by way of floats: a quotient kept
between the growth bounds, a product rounded to a count and kept between the population
bounds, and a share rounded down. Every record follows from the configuration in this way,
whatever else happens in between (`Course.recorded`), and as long as floats can hold the
counts all of its sizes are within their bounds (`Course.resizes_bounded`). In particular
a rebuild of a population whose archive has not grown does not enlarge it, unless it was
below the least size, and one that only the number of checks has led to does not reduce it,
unless it was above the greatest.

Both rest on the rounding of exact results: a quotient of counts is on the same side of one
as the exact one, and a product with a factor on that side is on the same side of the
count.
-/

namespace ParetoSearch

open Binary64

variable {α ρ W D : Type}

namespace Continuation

/-! ### Growth -/

section Growth

variable {config : ContinuationConfig} {previous current old new : ℕ} {factor : Float}

/-- The growth bounds are in order, since they enclose one. -/
theorem minGrowth_le_maxGrowth (hconfig : config.validate = .ok ()) :
    config.minGrowth ≤ config.maxGrowth := by
  obtain ⟨-, -, -, hminOne, honeMax⟩ := ContinuationConfig.growthBounds_of_validate hconfig
  exact float_le_trans hminOne honeMax

/-- From an archive that was not empty, the factor to grow by is the middle one of the growth bounds
and the rounded quotient of the sizes. -/
theorem real_growth (hconfig : config.validate = .ok ()) (hzero : previous ≠ 0)
    (hprevious : previous ≤ 2 ^ 53) (hcurrent : current ≤ 2 ^ 53)
    (h : growth config previous current = .ok factor) :
    factor.isNaN = false ∧ real factor = max (real config.minGrowth)
      (min (real config.maxGrowth) (rounded ((current / previous : ℝ) : EReal))) := by
  obtain ⟨hmin, hmax, -⟩ := ContinuationConfig.growthBounds_of_validate hconfig
  obtain ⟨hnumber, hquotient⟩ := real_ofNat_div_ofNat hcurrent hprevious hzero
  have hbounds := minGrowth_le_maxGrowth hconfig
  rw [growth, if_neg hzero, clampFloat, if_pos hbounds] at h
  rw [← Except.ok.inj h, ← hquotient]
  exact real_clamp (isNaN_of_isFinite hmin) (isNaN_of_isFinite hmax) hnumber hbounds

/-- The factor to grow by lies between the growth bounds. -/
theorem growth_bounds (hconfig : config.validate = .ok ()) (hprevious : previous ≤ 2 ^ 53)
    (hcurrent : current ≤ 2 ^ 53) (h : growth config previous current = .ok factor) :
    factor.isNaN = false ∧ config.minGrowth ≤ factor ∧ factor ≤ config.maxGrowth := by
  obtain ⟨hmin, hmax, -⟩ := ContinuationConfig.growthBounds_of_validate hconfig
  have hmin' := isNaN_of_isFinite hmin
  have hmax' := isNaN_of_isFinite hmax
  have hbounds := minGrowth_le_maxGrowth hconfig
  by_cases hzero : previous = 0
  · rw [growth, if_pos hzero] at h
    cases h
    exact ⟨hmax', hbounds, float_le_refl hmax'⟩
  · obtain ⟨hnumber, hfactor⟩ := real_growth hconfig hzero hprevious hcurrent h
    rw [le_iff_real_le hmin' hmax'] at hbounds
    rw [le_iff_real_le hmin' hnumber, le_iff_real_le hnumber hmax', hfactor]
    exact ⟨hnumber, le_max_left _ _, max_le hbounds (min_le_left _ _)⟩

theorem isFinite_growth (hconfig : config.validate = .ok ()) (hprevious : previous ≤ 2 ^ 53)
    (hcurrent : current ≤ 2 ^ 53) (h : growth config previous current = .ok factor) :
    0.0 ≤ factor ∧ factor.isFinite = true := by
  obtain ⟨hmin, hmax, hpos, -⟩ := ContinuationConfig.growthBounds_of_validate hconfig
  obtain ⟨-, hlow, hhigh⟩ := growth_bounds hconfig hprevious hcurrent h
  exact ⟨float_le_trans (float_le_of_lt hpos) hlow, isFinite_of_le_of_le hmin hmax hlow hhigh⟩

/-- A population does not grow with an archive that has not grown. -/
theorem growth_le_one (hconfig : config.validate = .ok ()) (hzero : previous ≠ 0)
    (hprevious : previous ≤ 2 ^ 53) (hle : current ≤ previous)
    (h : growth config previous current = .ok factor) : real factor ≤ 1 := by
  obtain ⟨hmin, -, -, hminOne, -⟩ := ContinuationConfig.growthBounds_of_validate hconfig
  rw [le_iff_real_le (isNaN_of_isFinite hmin) (by decide), real_one] at hminOne
  rw [(real_growth hconfig hzero hprevious (hle.trans hprevious) h).2]
  refine max_le hminOne (min_le_of_right_le ?_)
  rw [← rounded_one]
  refine rounded_mono ?_
  have hquotient : (current / previous : ℝ) ≤ 1 :=
    div_le_one_of_le₀ (by exact_mod_cast hle) previous.cast_nonneg
  exact_mod_cast hquotient

/-- A population does not shrink with an archive that has grown. -/
theorem one_le_growth (hconfig : config.validate = .ok ()) (hcurrent : current ≤ 2 ^ 53)
    (hlt : previous < current) (h : growth config previous current = .ok factor) :
    1 ≤ real factor := by
  obtain ⟨-, hmax, -, -, honeMax⟩ := ContinuationConfig.growthBounds_of_validate hconfig
  rw [le_iff_real_le (by decide) (isNaN_of_isFinite hmax), real_one] at honeMax
  by_cases hzero : previous = 0
  · rw [growth, if_pos hzero] at h
    cases h
    exact honeMax
  · rw [(real_growth hconfig hzero (hlt.le.trans hcurrent) hcurrent h).2]
    refine le_max_of_le_right (le_min honeMax ?_)
    rw [← rounded_one]
    refine rounded_mono ?_
    have hpos : (0 : ℝ) < previous := by exact_mod_cast Nat.pos_of_ne_zero hzero
    have hquotient : (1 : ℝ) ≤ current / previous :=
      (one_le_div hpos).2 (by exact_mod_cast hlt.le)
    exact_mod_cast hquotient

end Growth

/-! ### New sizes -/

section Sizes

variable {config : ContinuationConfig} {old new : ℕ} {factor : Float}

theorem newSize_eq_ok : newSize config old factor = .ok new ↔
    config.minimumPopulation ≤ config.maximumPopulation ∧
      new = max config.minimumPopulation
        (min (roundCount (Float.ofNat old * factor)) config.maximumPopulation) := by
  unfold newSize clampSize
  split_ifs with hbounds <;> simp [hbounds, eq_comm]

/-- A factor of at most one makes no population larger, but brings it to the least size. -/
theorem newSize_le (hold : old ≤ 2 ^ 53) (hfinite : factor.isFinite = true)
    (hfactor : real factor ≤ 1) (h : newSize config old factor = .ok new) :
    new ≤ max old config.minimumPopulation := by
  have hproduct : roundCount (Float.ofNat old * factor) ≤ old := by
    refine roundCount_le_of_real_le ?_
    rw [← real_ofNat hold]
    exact real_mul_le (zero_le_ofNat hold) (isFinite_ofNat hold) hfinite hfactor
  obtain ⟨-, rfl⟩ := newSize_eq_ok.1 h
  omega

/-- A factor of at least one makes no population smaller, but brings it to the greatest size. -/
theorem le_newSize (hold : old ≤ 2 ^ 53) (hfinite : factor.isFinite = true)
    (hfactor : 1 ≤ real factor) (h : newSize config old factor = .ok new) :
    min old config.maximumPopulation ≤ new := by
  have hproduct : old ≤ roundCount (Float.ofNat old * factor) := by
    refine le_roundCount_of_le_real (hold.trans (by decide)) ?_
    rw [← real_ofNat hold]
    exact real_le_mul (zero_le_ofNat hold) (isFinite_ofNat hold) hfinite hfactor
  obtain ⟨-, rfl⟩ := newSize_eq_ok.1 h
  omega

theorem injectedCount_le {size : ℕ} (hconfig : config.validate = .ok ()) (h : size ≤ 2 ^ 53) :
    injectedCount config size ≤ size := by
  obtain ⟨-, -, -, -, ⟨hrate, hone⟩, -⟩ := ContinuationConfig.validate_eq_ok.1 hconfig
  have hfinite : config.injectionRate.isFinite = true :=
    isFinite_of_le_of_le (by decide) (by decide) hrate hone
  refine floorCount_le_of_real_le ?_
  rw [← real_ofNat h, float_mul_comm]
  refine real_mul_le (zero_le_ofNat h) (isFinite_ofNat h) hfinite ?_
  exact (real_le_real hone).trans_eq real_one

end Sizes

end Continuation

/-! ### Records -/

/-- What is recorded of a rebuild follows from the configuration. -/
structure Resize.Follows (config : ContinuationConfig) (r : Resize) : Prop where
  growth_eq : Continuation.growth config r.previousArchive r.archive = .ok r.growth
  newSize_eq : Continuation.newSize config r.oldPopulation r.growth = .ok r.newPopulation
  injected_eq : r.injected = Continuation.injectedCount config r.newPopulation
  forced_iff : r.forced ↔ r.previousArchive < r.archive

/-- The sizes that a rebuild records can be held by floats. -/
structure Resize.Representable (r : Resize) : Prop where
  previousArchive_le : r.previousArchive ≤ 2 ^ 53
  archive_le : r.archive ≤ 2 ^ 53
  oldPopulation_le : r.oldPopulation ≤ 2 ^ 53
  newPopulation_le : r.newPopulation ≤ 2 ^ 53

/-- What is recorded of a rebuild is within its bounds. -/
structure Resize.Bounded (config : ContinuationConfig) (r : Resize) : Prop where
  minimum_le : config.minimumPopulation ≤ r.newPopulation
  le_maximum : r.newPopulation ≤ config.maximumPopulation
  injected_le : r.injected ≤ r.newPopulation
  minGrowth_le : config.minGrowth ≤ r.growth
  le_maxGrowth : r.growth ≤ config.maxGrowth
  /-- A rebuild is forced if the archive has grown; else the search has stalled. -/
  forced_iff : r.forced ↔ r.previousArchive < r.archive
  /-- Behind a check that has left members in the archive, a population does not grow if the search
  has stalled. -/
  le_of_stalled : ¬r.forced → r.previousArchive ≠ 0 →
    r.newPopulation ≤ max r.oldPopulation config.minimumPopulation
  /-- A population does not shrink if the rebuild is forced. -/
  le_of_forced : r.forced → min r.oldPopulation config.maximumPopulation ≤ r.newPopulation

theorem Resize.Follows.bounded {config : ContinuationConfig} {r : Resize} (h : r.Follows config)
    (hconfig : config.validate = .ok ()) (hr : r.Representable) : r.Bounded config := by
  obtain ⟨hgrowth, hsize, hinjected, hforced⟩ := h
  obtain ⟨hprevious, harchive, hold, hnew⟩ := hr
  obtain ⟨hminimum, hmaximum⟩ := Continuation.newSize_bounds hsize
  obtain ⟨-, hlow, hhigh⟩ := Continuation.growth_bounds hconfig hprevious harchive hgrowth
  obtain ⟨-, hfinite⟩ := Continuation.isFinite_growth hconfig hprevious harchive hgrowth
  refine ⟨hminimum, hmaximum, ?_, hlow, hhigh, hforced, fun hstalled hzero => ?_, fun hf => ?_⟩
  · rw [hinjected]
    exact Continuation.injectedCount_le hconfig hnew
  · have hle := not_lt.1 (mt hforced.2 hstalled)
    exact Continuation.newSize_le hold hfinite
      (Continuation.growth_le_one hconfig hzero hprevious hle hgrowth) hsize
  · exact Continuation.le_newSize hold hfinite
      (Continuation.one_le_growth hconfig harchive (hforced.1 hf) hgrowth) hsize

/-! ### Runs -/

namespace Continuation

open Search (archiveSize)

section Runs

variable [Search α ρ W D] [Generator ρ] {config : ContinuationConfig}
  {c₀ c d : Continuation α ρ W D} {w w' : W} {e : Error} {r : Resize}

theorem Renews.follows {solutions : List (Solution D)} {g : ρ}
    (h : c.Renews w r solutions g w') : r.Follows c.config := by
  obtain ⟨hdue, hgrowth, hsize, -, hrecord⟩ := h
  rw [hrecord]
  refine ⟨hgrowth, hsize, rfl, ?_⟩
  show c.isForced = true ↔ c.progress.previousArchive < archiveSize c.inner
  rw [isForced, Bool.and_eq_true, Bool.not_eq_true', decide_eq_false_iff_not, decide_eq_true_iff,
    ← not_le]
  exact ⟨And.left, fun hgrown => ⟨hgrown, hdue.resolve_left hgrown⟩⟩

/-- The configuration is the given one, and every record follows from it. -/
structure Recorded (config : ContinuationConfig) (c : Continuation α ρ W D) : Prop where
  config_eq : c.config = config
  follows : ∀ r ∈ c.progress.resizes, r.Follows config

namespace Recorded

omit [Search α ρ W D] [Generator ρ] in
theorem of_eq (h : Recorded config c) (hconfig : d.config = c.config)
    (hresizes : d.progress.resizes = c.progress.resizes) : Recorded config d :=
  ⟨hconfig.trans h.config_eq, hresizes ▸ h.follows⟩

omit [Generator ρ] in
theorem arrives (h : Recorded config c) (harrives : c.Arrives w d w') : Recorded config d := by
  rw [harrives.eq_atCheck]
  exact h.of_eq rfl rfl

theorem passage (h : Recorded config c) {calls : List (Search.Call D × α × W)}
    (hpassage : Passage (c, w) calls (d, w')) : Recorded config d := by
  cases hpassage with
  | quiet => exact h.of_eq rfl rfl
  | held harrives => exact (h.arrives harrives).of_eq rfl rfl
  | rebuilt harrives hrenews =>
    have hchecked := h.arrives harrives
    refine ⟨hchecked.config_eq, List.forall_mem_append.2 ⟨hchecked.follows, ?_⟩⟩
    rw [List.forall_mem_singleton, ← hchecked.config_eq]
    exact hrenews.follows

theorem setback (h : Recorded config c) (hsetback : Setback e (c, w) (d, w')) :
    Recorded config d := by
  cases hsetback with
  | step => exact h.of_eq rfl rfl
  | replacePopulation harrives => exact (h.arrives harrives).of_eq rfl rfl

omit [Search α ρ W D] [Generator ρ] in
/-- A call that only the inner algorithm answers records nothing. -/
theorem onInner (h : Recorded config c) (x : EStateM Failure (α × W) Unit) (w : W) :
    match Continuation.onInner x (c, w) with
    | .ok _ s => Recorded config s.1
    | .error _ s => Recorded config s.1 := by
  rw [onInner_apply]
  cases x (c.inner, w) <;> exact h.of_eq rfl rfl

end Recorded

/-- Runs of calls, each of which succeeds or ends in an error. Each call may find another world. A
fault ends the run. -/
inductive Course (c₀ : Continuation α ρ W D) : Continuation α ρ W D → Prop
  | start : Course c₀ c₀
  | call {c d : Continuation α ρ W D} {w w' : W} {call : Search.Call D} (hcourse : Course c₀ c)
      (hrun : call.run (c, w) = .ok () (d, w')) : Course c₀ d
  | failedCall {c d : Continuation α ρ W D} {w w' : W} {call : Search.Call D} {e : Error}
      (hcourse : Course c₀ c) (hrun : call.run (c, w) = .error (.error e) (d, w')) : Course c₀ d

theorem Course.of_stepMany {n : ℕ} (hsteps : Search.stepMany n (c₀, w) = .ok () (c, w')) :
    Course c₀ c :=
  Search.of_stepMany (P := fun s => Course c₀ s.1)
    (fun hcourse hstep => .call hcourse (show Search.Call.step.run _ = _ from hstep)) .start hsteps

/-- Whatever calls succeed or fail, every record follows from the configuration. -/
theorem Course.recorded (h : Course c₀ c) (h₀ : Recorded config c₀) : Recorded config c := by
  induction h with
  | start => exact h₀
  | @call c d w w' call _ hrun ih =>
    cases call with
    | step =>
      obtain ⟨calls, hpassage⟩ := exists_passage_of_step hrun
      exact ih.passage hpassage
    | replacePopulation solutions =>
      have hrecorded := ih.onInner (Search.replacePopulation solutions) w
      change onInner (Search.replacePopulation solutions) (c, w) = _ at hrun
      rwa [hrun] at hrecorded
  | @failedCall c d w w' call e _ hrun ih =>
    cases call with
    | step => exact ih.setback (setback_of_step hrun)
    | replacePopulation solutions =>
      have hrecorded := ih.onInner (Search.replacePopulation solutions) w
      change onInner (Search.replacePopulation solutions) (c, w) = _ at hrun
      rwa [hrun] at hrecorded

end Runs

/-- **Every rebuild keeps to its bounds**: in every run, as long as floats can hold the sizes, the
new size lies between the population bounds and the factor between the growth bounds, and no more
members are random than there are. Where the search has stalled with members in the archive, a
population does not grow, unless to the least size, and where the rebuild is forced, it does not
shrink, unless to the greatest. -/
theorem Course.resizes_bounded [Search α ρ W D] [Seedable ρ] {entropy : UInt64} {inner : α}
    {config : ContinuationConfig} {perturbation : Variation ρ W D} {c₀ c : Continuation α ρ W D}
    {r : Resize}
    (hc₀ : ofConfig entropy inner config perturbation = .ok c₀) (h : Course c₀ c)
    (hr : r ∈ c.progress.resizes) (hsizes : r.Representable) : r.Bounded config := by
  obtain ⟨hconfig, -, A, -, rfl⟩ := ofConfig_eq_ok.1 hc₀
  exact ((h.recorded ⟨rfl, nofun⟩).follows r hr).bounded hconfig hsizes

open Rehearsal

/-- An algorithm with a population of four. Its first step finds two members for its archive, and
its second one finds a solution that is better than both. -/
def findingBetter : Scripted ChaCha Stage (List Float) where
  problem := BenchmarkProblem.toProblem
    { function := .identity 2, objectives := 2, constraints := 0, bounds := []
      decisions := [[3.5, 3.5]], raiseFlagAt := none }
  population := List.replicate 4 (Solution.ofEvaluation [3.5, 3.5] ⟨[3.5, 3.5], []⟩)
  archive := some (Archive.ofEpsilons ⟨[1.0, 1.0], by decide, by decide⟩)
  script :=
    [{ offers := [Solution.ofEvaluation [0.5, 2.5] ⟨[0.5, 2.5], []⟩,
        Solution.ofEvaluation [2.5, 0.5] ⟨[2.5, 0.5], []⟩] },
      { offers := [Solution.ofEvaluation [0.5, 0.5] ⟨[0.5, 0.5], []⟩] }]
  archivesReplacements := false

/-- A rebuild behind each step, of populations of two to six members. -/
def rebuildingAlways : ContinuationConfig where
  window := 1
  maxWindow := 1
  minimumPopulation := 2
  maximumPopulation := 6

/-- The first rebuild is forced and meets the greatest size, and behind the second step, with which
the archive has shrunk, the population is halved. -/
theorem Course.resizes_bounded_of_shrunk :
    ∃ (c₀ c : Continuation (Scripted ChaCha Stage (List Float)) ChaCha Stage (List Float))
      (first second : Resize),
    ofConfig 0 findingBetter rebuildingAlways (shift 1 [1.0]) = .ok c₀ ∧ Course c₀ c ∧
    c.progress.resizes = [first, second] ∧
    (first.forced ∧ first.oldPopulation = 4 ∧ first.newPopulation = 6) ∧
    (¬second.forced ∧ second.oldPopulation = 6 ∧ second.newPopulation = 3) ∧
    first.Bounded rebuildingAlways ∧ second.Bounded rebuildingAlways := by
  have hends : (Search.reached (ofConfig 0 findingBetter rebuildingAlways (shift 1 [1.0]))
      (Search.stepMany 2) {}).any (fun r => r.2.1.progress.resizes.map (fun r =>
        (r.forced, r.previousArchive, r.archive, r.oldPopulation, r.newPopulation)) ==
          [(true, 0, 2, 4, 6), (false, 2, 1, 6, 3)]) = true := by decide +kernel
  obtain ⟨c₀, _, s, hc₀, hsteps, hends⟩ := Search.exists_of_reached hends
  obtain ⟨first, _, hresizes, hfirst, hrest⟩ := List.map_eq_cons_iff.1 (beq_iff_eq.1 hends)
  obtain ⟨second, _, rfl, hsecond, hrest⟩ := List.map_eq_cons_iff.1 hrest
  obtain rfl := List.map_eq_nil_iff.1 hrest
  simp only [Prod.mk.injEq] at hfirst hsecond
  obtain ⟨hforced, hprevious, harchive, hold, hnew⟩ := hfirst
  obtain ⟨hstalled, hprevious', harchive', hold', hnew'⟩ := hsecond
  have hresizes : s.1.progress.resizes = [first, second] := hresizes
  have hcourse := Course.of_stepMany hsteps
  refine ⟨c₀, s.1, first, second, hc₀, hcourse, hresizes, ⟨hforced, hold, hnew⟩,
    ⟨by simp [hstalled], hold', hnew'⟩, ?_, ?_⟩
  · exact Course.resizes_bounded hc₀ hcourse (by simp [hresizes]) (by constructor <;> simp [*])
  · exact Course.resizes_bounded hc₀ hcourse (by simp [hresizes]) (by constructor <;> simp [*])

end Continuation

end ParetoSearch
