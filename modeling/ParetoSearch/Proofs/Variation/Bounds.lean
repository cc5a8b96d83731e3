import ParetoSearch.Proofs.Variation.Shares
import ParetoSearch.Random.Source

/-!
# Children within bounds

The intervals of the variables are finite, but the arithmetic on them may still overflow. Crossover
adds two values of an interval and polynomial mutation measures its width; where the doubles of the
ends, or the width, are not finite, a child's value may be no number, and clamping passes that on.
Uniform mutation draws from the interval, and there is no draw from one whose width is not finite.

`Variation.KeepsTo` says that nothing else goes wrong: whatever the generator gives, the children of
parents within the bounds are within them too, except in such intervals, and only the given faults
are raised. It is shown for one value (`always_crossValue`, `always_mutateValue`,
`meets_mutateValue`), from that for a whole decision, and then for the three operators
(`keepsTo_bounds`). With the widest interval two of them fail (`not_forall_keepsTo`); of crossover
that cannot be shown here, since too little is known of powers.
-/

namespace ParetoSearch

open Binary64

variable {ρ W : Type} {b : Interval} {bounds bs : List Interval} {xs ys : List Float}
  {eta x y : Float}

/-! ### Values and decisions within bounds -/

namespace Interval

variable {fits : Interval → Prop}

/-- The value lies in the interval; but if the interval does not fit, it may be no number. -/
def HoldsWhere (fits : Interval → Prop) (b : Interval) (x : Float) : Prop :=
  b.holds x = true ∨ ¬fits b ∧ x.isNaN = true

/-- Each value that has an interval lies in it, where the interval fits. -/
def HoldAll (fits : Interval → Prop) (bounds : List Interval) (xs : List Float) : Prop :=
  ∀ p ∈ bounds.zip xs, p.1.HoldsWhere fits p.2

theorem holdsWhere_true : b.HoldsWhere (fun _ => True) x ↔ b.holds x = true := by
  simp [HoldsWhere]

theorem holdsWhere_clamp (h : fits b → b.holds (b.clamp x) = true) :
    b.HoldsWhere fits (b.clamp x) := by
  by_cases hfits : fits b
  · exact .inl (h hfits)
  · by_cases hnan : x.isNaN = true
    · exact .inr ⟨hfits, (clamp_eq_self hnan).symm ▸ hnan⟩
    · exact .inl (holds_clamp (Bool.eq_false_iff.2 hnan))

theorem holdAll_cons : HoldAll fits (b :: bs) (x :: xs) ↔
    b.HoldsWhere fits x ∧ HoldAll fits bs xs := by
  simp only [HoldAll, List.zip_cons_cons, List.forall_mem_cons]

theorem holdAll_true : HoldAll (fun _ => True) bounds xs ↔
    ∀ p ∈ bounds.zip xs, p.1.holds p.2 = true := by
  simp only [HoldAll, holdsWhere_true]

/-- What lies in its interval whether that fits or not. -/
theorem HoldAll.of_true (h : HoldAll (fun _ => True) bounds xs) : HoldAll fits bounds xs :=
  fun p hp => .inl (holdAll_true.1 h p hp)

end Interval

/-- Whatever the generator gives, the children of parents within the bounds are within them too,
but for intervals that do not fit; and the operator raises only the given faults. -/
def Variation.KeepsTo (bounds : List Interval) (fits : Interval → Prop) (faults : Fault → Prop)
    (v : Variation ρ W (List Float)) : Prop :=
  ∀ parents : List (Solution (List Float)), v.arity ≤ parents.length →
    (∀ p ∈ parents, Interval.HoldAll (fun _ => True) bounds p.decision) →
      Meets (fun children => ∀ c ∈ children, Interval.HoldAll fits bounds c.decision) faults
        (v.evolve parents)

open ParetoSearch.Interval

variable [Generator ρ]

/-! ### Crossover -/

namespace BinaryCrossover

theorem always_crossValue (heta : 0.0 ≤ eta) (hx : b.holds x = true) (hy : b.holds y = true) :
    Always (fun p => b.HoldsWhere IsModerate p.1 ∧ b.HoldsWhere IsModerate p.2)
      (crossValue b eta x y : StateM ρ (Float × Float)) := by
  refine Always.bind_of_forall fun chosen => ?_
  split_ifs with hchosen
  · refine Draw.always_unit.bind fun u hu => Always.bind_of_forall fun exchanged => ?_
    have hfar : 1e-14 < (x - y).abs := by simpa using (Bool.and_eq_true_iff.1 hchosen).2
    have hchildren : b.HoldsWhere IsModerate (children b eta u x y).1 ∧
        b.HoldsWhere IsModerate (children b eta u x y).2 :=
      ⟨holdsWhere_clamp fun hb => (holds_children hb heta hu.1 hu.2 hx hy hfar).1,
        holdsWhere_clamp fun hb => (holds_children hb heta hu.1 hu.2 hx hy hfar).2⟩
    cases exchanged
    · exact .pure hchildren
    · exact .pure hchildren.symm
  · exact .pure ⟨.inl hx, .inl hy⟩

theorem always_crossAll (heta : 0.0 ≤ eta) (hxs : HoldAll (fun _ => True) bounds xs)
    (hys : HoldAll (fun _ => True) bounds ys) :
    Always (fun p => HoldAll IsModerate bounds p.1 ∧ HoldAll IsModerate bounds p.2)
      (crossAll eta bounds xs ys : StateM ρ (List Float × List Float)) := by
  fun_induction crossAll (ρ := ρ) eta bounds xs ys with
  | case1 b bs x xs y ys ih =>
    obtain ⟨hx, hxs⟩ := holdAll_cons.1 hxs
    obtain ⟨hy, hys⟩ := holdAll_cons.1 hys
    refine (always_crossValue heta (holdsWhere_true.1 hx) (holdsWhere_true.1 hy)).bind ?_
    rintro ⟨x, y⟩ ⟨hx, hy⟩
    refine (ih hxs hys).bind ?_
    rintro ⟨xs, ys⟩ ⟨hxs, hys⟩
    exact .pure ⟨holdAll_cons.2 ⟨hx, hxs⟩, holdAll_cons.2 ⟨hy, hys⟩⟩
  | case2 => exact .pure ⟨hxs.of_true, hys.of_true⟩

/-- **Crossover keeps to the bounds wherever the doubles of these are finite.** -/
theorem keepsTo {op : BinaryCrossover} (heta : 0.0 ≤ op.index) :
    (op.toVariation : Variation ρ W (List Float)).KeepsTo op.bounds IsModerate fun _ => False := by
  intro parents harity hparents
  refine Meets.onFirst ?_
  match parents with
  | [] | [_] => simp [toVariation] at harity
  | p :: q :: rest =>
    have hp := hparents p (by simp)
    have hq := hparents q (by simp)
    have hcross : Always (fun r => HoldAll IsModerate op.bounds r.1 ∧
        HoldAll IsModerate op.bounds r.2)
        (op.cross p.decision q.decision : StateM ρ (List Float × List Float)) := by
      refine Always.bind_of_forall fun u => ?_
      split_ifs
      · exact always_crossAll heta hp hq
      · exact .pure ⟨hp.of_true, hq.of_true⟩
    refine Meets.bind (.lift hcross) ?_
    rintro ⟨xs, ys⟩ ⟨hxs, hys⟩
    exact .pure (List.forall_mem_cons.2 ⟨hxs, List.forall_mem_singleton.2 hys⟩)

end BinaryCrossover

/-! ### Polynomial mutation -/

namespace PolynomialMutation

theorem always_mutateValue {op : PolynomialMutation} (heta : 0.0 ≤ op.index)
    (hx : b.holds x = true) :
    Always (b.HoldsWhere IsNarrow) (op.mutateValue b x : StateM ρ Float) := by
  unfold mutateValue
  split_ifs with hwidth
  · exact .pure (.inl hx)
  · refine Always.bind_of_forall fun u => ?_
    split_ifs
    · exact .pure (.inl hx)
    · refine Draw.always_unit.bind fun u hu => .pure (holdsWhere_clamp fun hb => holds_clamp ?_)
      have hu' : inUnit u = true := inUnit_iff.2 ⟨hu.1, float_le_trans hu.2 (by decide +kernel)⟩
      have hpos : 0.0 < b.width := float_lt_of_not_le (isNaN_of_isFinite hb) (by decide) hwidth
      have hx' := isFinite_of_holds hx
      exact isNaN_add (.inl hx') (isNaN_of_isFinite hx')
        (isNaN_mul (isNaN_shift heta hu' hx hb hpos) hb hpos)

theorem always_mutateAll {op : PolynomialMutation} (heta : 0.0 ≤ op.index)
    (hxs : HoldAll (fun _ => True) bounds xs) :
    Always (HoldAll IsNarrow bounds) (op.mutateAll bounds xs : StateM ρ (List Float)) := by
  fun_induction mutateAll (ρ := ρ) op bounds xs with
  | case1 b bs x xs ih =>
    obtain ⟨hx, hxs⟩ := holdAll_cons.1 hxs
    refine (always_mutateValue heta (holdsWhere_true.1 hx)).bind fun x hx => ?_
    exact (ih hxs).bind fun xs hxs => .pure (holdAll_cons.2 ⟨hx, hxs⟩)
  | case2 => exact .pure hxs.of_true

/-- **Polynomial mutation keeps to the bounds wherever their width is finite.** -/
theorem keepsTo {op : PolynomialMutation} (heta : 0.0 ≤ op.index) :
    (op.toVariation : Variation ρ W (List Float)).KeepsTo op.bounds IsNarrow fun _ => False := by
  intro parents harity hparents
  refine Meets.onFirst ?_
  match parents with
  | [] => simp [toVariation] at harity
  | p :: rest =>
    refine Meets.bind (.lift (always_mutateAll heta (hparents p (by simp)))) fun xs hxs => ?_
    exact .pure (List.forall_mem_singleton.2 hxs)

end PolynomialMutation

/-! ### Uniform mutation -/

namespace UniformMutation

/-- The fault of a draw from an interval whose width is not finite. -/
def TooWide (bounds : List Interval) (f : Fault) : Prop :=
  f = .infiniteRange ∧ ∃ b ∈ bounds, ¬b.IsNarrow

theorem meets_mutateValue {op : UniformMutation} (hb : b ∈ bounds) (hx : b.holds x = true) :
    Meets (fun y => b.holds y = true) (TooWide bounds)
      (op.mutateValue b x : EStateM Fault ρ Float) := by
  refine Meets.bind (Q := fun _ => True) (.lift fun _ => trivial) fun u _ => ?_
  split_ifs
  · refine (Draw.meets_closed b.isFinite_lower b.isFinite_upper b.lower_le_upper).mono
      (fun y hy => holds_iff.2 hy) fun f hf => ⟨hf.1, b, hb, ?_⟩
    exact Bool.eq_false_iff.1 hf.2
  · exact .pure hx

theorem meets_mutateAll {op : UniformMutation} (hbs : bs ⊆ bounds)
    (hxs : HoldAll (fun _ => True) bs xs) :
    Meets (HoldAll (fun _ => True) bs) (TooWide bounds)
      (op.mutateAll bs xs : EStateM Fault ρ (List Float)) := by
  fun_induction mutateAll (ρ := ρ) op bs xs with
  | case1 b bs x xs ih =>
    obtain ⟨hx, hxs⟩ := holdAll_cons.1 hxs
    obtain ⟨hb, hbs⟩ := List.cons_subset.1 hbs
    refine (meets_mutateValue hb (holdsWhere_true.1 hx)).bind fun x hx => ?_
    exact (ih hbs hxs).bind fun xs hxs => .pure (holdAll_cons.2 ⟨holdsWhere_true.2 hx, hxs⟩)
  | case2 => exact .pure hxs

/-- **Uniform mutation keeps to the bounds, unless it fails at one whose width is not finite.** -/
theorem keepsTo (op : UniformMutation) : (op.toVariation : Variation ρ W (List Float)).KeepsTo
    op.bounds (fun _ => True) (TooWide op.bounds) := by
  intro parents harity hparents
  refine Meets.onFirst ?_
  match parents with
  | [] => simp [toVariation] at harity
  | p :: rest =>
    refine (meets_mutateAll (List.Subset.refl _) (hparents p (by simp))).bind fun xs hxs => ?_
    exact .pure (List.forall_mem_singleton.2 hxs)

end UniformMutation

/-! ### All three -/

/-- An index that is set is a size, whatever is given for it. -/
theorem Variation.zero_le_clampIndex (eta : Float) : 0.0 ≤ Variation.clampIndex eta := by
  unfold clampIndex
  split_ifs with h
  · exact float_le_of_lt h
  · decide

/-- **The operators keep to their bounds wherever the arithmetic on these is finite.** With any
probability, any index that is a size and any generator, crossover and polynomial mutation make
children of all parents that lie within the bounds, and uniform mutation does if every width is
finite. All values of the children lie within the bounds again. Only crossover where the double of
an end is not finite, and polynomial mutation where the width is not, may leave a value that is no
number. -/
theorem keepsTo_bounds :
    (∀ op : BinaryCrossover, 0.0 ≤ op.index →
      (op.toVariation : Variation ρ W (List Float)).KeepsTo op.bounds IsModerate fun _ => False) ∧
    (∀ op : PolynomialMutation, 0.0 ≤ op.index →
      (op.toVariation : Variation ρ W (List Float)).KeepsTo op.bounds IsNarrow fun _ => False) ∧
    ∀ op : UniformMutation, (op.toVariation : Variation ρ W (List Float)).KeepsTo op.bounds
      (fun _ => True) (UniformMutation.TooWide op.bounds) :=
  ⟨fun _ => BinaryCrossover.keepsTo, fun _ => PolynomialMutation.keepsTo, UniformMutation.keepsTo⟩

/-- The interval from `-2 ^ 1023` to `2 ^ 1023`, whose width is twice as much. -/
def widest : Interval where
  lower := Float.ofBits 0xffe0000000000000
  upper := Float.ofBits 0x7fe0000000000000
  isFinite_lower := by decide
  isFinite_upper := by decide
  lower_le_upper := by decide

/-- The interval from `-1` to `1`. -/
def aroundZero : Interval where
  lower := -1.0
  upper := 1.0
  isFinite_lower := by decide
  isFinite_upper := by decide
  lower_le_upper := by decide

/-- The intervals of two variables, of which one is too wide. -/
def mixed : List Interval := [aroundZero, widest]

/-- A generator that repeats two words. -/
def twoWords : Source × Unit := (.cycle ⟨[0, 0xffffffffffffffff], []⟩, ())

/-- Beside an interval that is too wide the other one is kept to. -/
theorem keepsTo_bounds_of_mixed :
    (∃ children t, ((({ bounds := mixed : BinaryCrossover }.withProbability 0.9).withIndex 2.0
        ).toVariation : Variation Source Unit (List Float)).evolve
        [Solution.ofDecision [0.5, 0.0], Solution.ofDecision [-1.0, 1.0]] twoWords =
          .ok children t ∧ ∀ c ∈ children, HoldAll IsModerate mixed c.decision) ∧
    (∃ children t, (((PolynomialMutation.ofBounds mixed).withIndex (-1.0)).toVariation :
        Variation Source Unit (List Float)).evolve [Solution.ofDecision [0.5, 0.0]] twoWords =
          .ok children t ∧ ∀ c ∈ children, HoldAll IsNarrow mixed c.decision) ∧
    ∃ children t, ((UniformMutation.ofBounds [aroundZero] 2.0).toVariation :
        Variation Source Unit (List Float)).evolve [Solution.ofDecision [0.5]] twoWords =
          .ok children t ∧ ∀ c ∈ children, HoldAll (fun _ => True) [aroundZero] c.decision := by
  obtain ⟨hcrossover, hpolynomial, huniform⟩ := keepsTo_bounds (ρ := Source) (W := Unit)
  have hpair : ∀ p ∈ [Solution.ofDecision [0.5, 0.0], Solution.ofDecision [-1.0, 1.0]],
      HoldAll (fun _ => True) mixed p.decision := by
    simp only [holdAll_true]
    decide
  refine ⟨?_, ?_, ?_⟩
  · refine Meets.exists_eq_ok (hcrossover _ ?_ _ ?_ hpair) twoWords
    · exact Variation.zero_le_clampIndex 2.0
    · exact le_rfl
  · refine Meets.exists_eq_ok (hpolynomial _ ?_ _ ?_ ?_) twoWords
    · exact Variation.zero_le_clampIndex (-1.0)
    · exact le_rfl
    · exact List.forall_mem_singleton.2 (hpair _ List.mem_cons_self)
  · have hmeets := huniform (.ofBounds [aroundZero] 2.0) [Solution.ofDecision [0.5]] le_rfl
      (by simp only [holdAll_true]; decide)
    refine (hmeets.mono (fun _ h => h) fun f hf => ?_).exists_eq_ok twoWords
    obtain ⟨-, b, hb, hwide⟩ := hf
    obtain rfl := List.mem_singleton.1 hb
    exact hwide (by decide)

/-- Drawn at one half, a shift is zero; and zero times a width that is not finite is no number. -/
theorem isNaN_clamp_shift_of_widest : (widest.clamp
    (0.0 + PolynomialMutation.shift widest 20.0 0.5 0.0 * widest.width)).isNaN = true := by
  have hshift : PolynomialMutation.shift widest 20.0 0.5 0.0 =
      1.0 - power (1.0 + 0.0 * power 1.0 21.0) (1.0 / 21.0) := rfl
  have hone : 1.0 ≤ power 1.0 21.0 ∧ power 1.0 21.0 ≤ 1.0 :=
    power_of_one (by decide) (by decide) (by decide)
  have hfinite := isFinite_of_le_of_le (by decide) (by decide) hone.1 hone.2
  have hnumber : (0.0 * power 1.0 21.0).isNaN = false := isNaN_mul_of_isFinite (by decide) hfinite
  have hbase : (1.0 + 0.0 * power 1.0 21.0).isNaN = false :=
    isNaN_add (.inl (by decide)) (by decide) hnumber
  have hreal : real (1.0 + 0.0 * power 1.0 21.0) = real 1.0 := by
    rw [real_add hbase, real_mul hnumber, real_zero, zero_mul, rounded_zero, add_zero, rounded_real]
  have hexponent : (0.0 : Float) ≤ 1.0 / 21.0 := by decide
  have hpower := power_of_one ((le_iff_real_le (by decide) hbase).2 hreal.ge)
    ((le_iff_real_le hbase (by decide)).2 hreal.le) hexponent
  have hzero : real (PolynomialMutation.shift widest 20.0 0.5 0.0) = 0 := by
    rw [hshift, real_sub (isNaN_sub (by decide) (isNaN_of_le hpower.1).2),
      le_antisymm (real_le_real hpower.2) (real_le_real hpower.1), real_one, ← EReal.coe_one,
      ← EReal.coe_sub, sub_self, EReal.coe_zero, rounded_zero]
  have hlost := isNaN_add_right (x := 0.0) (isNaN_zero_mul hzero (y := widest.width) (by decide))
  rwa [clamp_eq_self hlost]

/-- That bounds are accepted does not suffice: polynomial mutation may leave a value that is no
number, and uniform mutation may fail. -/
theorem not_forall_keepsTo :
    (¬∀ op : PolynomialMutation, 0.0 ≤ op.index → (op.toVariation :
      Variation Source Unit (List Float)).KeepsTo op.bounds (fun _ => True) fun _ => False) ∧
    ¬∀ op : UniformMutation, (op.toVariation :
      Variation Source Unit (List Float)).KeepsTo op.bounds (fun _ => True) fun _ => False := by
  have hparent : ∀ p ∈ [Solution.ofDecision [0.0]],
      HoldAll (fun _ => True) [widest] p.decision := by
    simp only [holdAll_true]
    decide
  constructor
  · intro hall
    have hmeets := hall (.ofBounds [widest]) (by decide) [Solution.ofDecision [0.0]] le_rfl hparent
      (.cycle ⟨[0x8000000000000000], []⟩, ())
    have hchild : HoldAll (fun _ => True) [widest]
        [widest.clamp (0.0 + PolynomialMutation.shift widest 20.0 0.5 0.0 * widest.width)] :=
      hmeets _ (List.mem_singleton_self _)
    have hholds := holdsWhere_true.1 (holdAll_cons.1 hchild).1
    exact Bool.eq_false_iff.1 (isNaN_of_le (holds_iff.1 hholds).1).2 isNaN_clamp_shift_of_widest
  · intro hall
    exact hall (.ofBounds [widest] 1.0) [Solution.ofDecision [0.0]] le_rfl hparent
      (.cycle ⟨[0], []⟩, ())

end ParetoSearch
