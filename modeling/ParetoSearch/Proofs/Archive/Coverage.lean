import ParetoSearch.Proofs.Archive.Reachable

/-!
# What an archive covers

An archive covers a solution that it would refuse for a member: a better one, or the
holder of the box with the same violation and no further from the corner. What has been
offered without an error is covered from then on. The member that covers it may be
driven out later, but only by one that is better still, so some member goes on covering
it (`Sound.covers_add`). The numbers of objectives and constraints stay fixed as well
(`Sound.fixes_add`).
-/

namespace ParetoSearch.Archive

variable {D : Type} {A B : Archive D} {s t : Solution D}

/-- The solution fits, and there is a member of the same or a better standing. -/
def Covers (A : Archive D) (s : Solution D) : Prop :=
  A.Fits s ∧ ∃ p ∈ A.members, A.epsilons.standing p.2 ≤ A.epsilons.standing s

theorem Fits.ensureFits_eq_ok (hs : A.Fits s) : A.ensureFits s = .ok () := by
  obtain ⟨m, c, hm, hc, rfl, rfl, hfinite⟩ := hs
  rw [ensureFits, if_neg (by simp [hm])]
  simp only [check_bind_eq_ok, ensureLength_eq_ok, ensureFinite_eq_ok]
  exact ⟨by simp [hm], by simp [hc], hfinite⟩

theorem Covers.of_entry_eq (h : A.Covers t) (heq : Entry.ofSolution s = Entry.ofSolution t) :
    A.Covers s := by
  obtain ⟨x, objectives, constraints, _⟩ := s
  obtain ⟨y, _, _, _⟩ := t
  cases heq
  exact h

/-- A solution that is covered would be refused. -/
theorem Covers.refuses (hA : A.Sound) (h : A.Covers s) : A.Refuses s :=
  (hA.refuses_iff h.1.ensureFits_eq_ok).2 h.2

theorem Sound.covers_of_refuses (hA : A.Sound) (hs : A.ensureFits s = .ok ()) (h : A.Refuses s) :
    A.Covers s := by
  obtain ⟨p, hp, hle⟩ := (hA.refuses_iff hs).1 h
  have hfits := fits_of_ensureFits hs
  rw [(hA.fits p hp).fixDimensions_eq] at hfits
  exact ⟨hfits, p, hp, hle⟩

theorem Takes.covers_self (hB : A.Takes s B) (hs : A.ensureFits s = .ok ()) : B.Covers s := by
  obtain ⟨m, c, -, -, hfits⟩ := fits_of_ensureFits hs
  refine ⟨⟨_, _, hB.objectives_eq, hB.constraints_eq, rfl, rfl, hfits.2.2⟩, ?_⟩
  exact ⟨_, (hB.mem_iff _).2 (.inl rfl), le_rfl⟩

/-- Taking a solution keeps covered what was covered. -/
theorem Takes.covers (hB : A.Takes s B) (hA : A.Sound) (hs : A.ensureFits s = .ok ())
    (h : ¬A.Refuses s) (ht : A.Covers t) : B.Covers t := by
  obtain ⟨hfits, p, hp, hle⟩ := ht
  have hcomparable := (hA.comparable hs hp).1
  constructor
  · have hshape := ((hA.fits p hp).comparable hfits).1
    refine ⟨_, _, hB.objectives_eq, hB.constraints_eq, ?_, ?_, ?_⟩
    · exact hshape.1.symm.trans hcomparable.1.1
    · exact hshape.2.symm.trans hcomparable.1.2
    · exact ((hA.fits p hp).comparable hfits).2.2
  · rw [hB.epsilons_eq]
    by_cases hlt : A.epsilons.standing s < A.epsilons.standing p.2
    · exact ⟨_, (hB.mem_iff_standing hA hs h _).2 (.inl rfl), hlt.le.trans hle⟩
    · exact ⟨p, (hB.mem_iff_standing hA hs h p).2 (.inr ⟨hp, hlt⟩), hle⟩

/-- **What is covered stays covered**, whatever is offered. -/
theorem Sound.covers_add (hA : A.Sound) (s : Solution D) (ht : A.Covers t) :
    (leftBehind (Archive.add s A)).Covers t := by
  cases hs : A.ensureFits s with
  | error e => rwa [add_of_error hs]
  | ok =>
    by_cases h : A.Refuses s
    · rwa [hA.add_of_refuses hs h]
    · obtain ⟨B, hadd, hB⟩ := hA.add_of_not_refuses hs h
      rw [hadd]
      exact hB.covers hA hs h ht

/-- A solution that was offered without an error is covered, whether it was taken or not. -/
theorem Sound.covers_of_add_eq_ok (hA : A.Sound) {taken : Bool}
    (hadd : Archive.add s A = .ok taken B) : B.Covers s := by
  cases hs : A.ensureFits s with
  | error e => cases (add_of_error hs).symm.trans hadd
  | ok =>
    by_cases h : A.Refuses s
    · cases (hA.add_of_refuses hs h).symm.trans hadd
      exact hA.covers_of_refuses hs h
    · obtain ⟨C, hadd', hC⟩ := hA.add_of_not_refuses hs h
      cases hadd'.symm.trans hadd
      exact hC.covers_self hs

theorem Sound.covers_addAll (hA : A.Sound) (solutions : List (Solution D)) (ht : A.Covers t) :
    (leftBehind (Archive.addAll solutions A)).Covers t :=
  (leftBehind_addAll_of_add (P := fun A => A.Sound ∧ A.Covers t)
    (fun _ s h => ⟨h.1.add s, h.1.covers_add s h.2⟩) solutions ⟨hA, ht⟩).2

theorem Sound.covers_of_addAll_eq_ok {solutions : List (Solution D)} {taken : ℕ} (hA : A.Sound)
    (hall : Archive.addAll solutions A = .ok taken B) : ∀ s ∈ solutions, B.Covers s := by
  induction solutions generalizing A taken with
  | nil => simp
  | cons s rest ih =>
    obtain ⟨first, others, C, hadd, hrest, -⟩ := addAll_cons_eq_ok_iff.1 hall
    have hC : leftBehind (Archive.add s A) = C := by rw [hadd, leftBehind]
    have hB : leftBehind (Archive.addAll rest C) = B := by rw [hrest, leftBehind]
    have hsound : C.Sound := hC ▸ hA.add s
    intro t ht
    cases ht with
    | head => exact hB ▸ hsound.covers_addAll rest (hA.covers_of_add_eq_ok hadd)
    | tail _ ht => exact ih hsound hrest t ht

/-! ### Fixed numbers -/

/-- The numbers of objectives and constraints are fixed to these. -/
def Fixes (A : Archive D) (m c : ℕ) : Prop := A.objectives = some m ∧ A.constraints = some c

variable {m c : ℕ}

theorem Fits.of_fixes (hs : A.Fits s) (h : A.Fixes m c) : s.Fits m c := by
  obtain ⟨m', c', hm, hc, hs⟩ := hs
  obtain rfl := Option.some.inj (h.1.symm.trans hm)
  obtain rfl := Option.some.inj (h.2.symm.trans hc)
  exact hs

/-- Numbers that are fixed stay fixed, whatever is offered. -/
theorem Sound.fixes_add (hA : A.Sound) (s : Solution D) (h : A.Fixes m c) :
    (leftBehind (Archive.add s A)).Fixes m c := by
  cases hs : A.ensureFits s with
  | error e => rwa [add_of_error hs]
  | ok =>
    by_cases hrefuses : A.Refuses s
    · rwa [hA.add_of_refuses hs hrefuses]
    · obtain ⟨B, hadd, hB⟩ := hA.add_of_not_refuses hs hrefuses
      have hfixes : (A.fixDimensions s).Fixes m c := by
        rw [Fixes, fixDimensions, h.1, h.2]
        exact ⟨rfl, rfl⟩
      obtain ⟨rfl, rfl, -⟩ := (fits_of_ensureFits hs).of_fixes hfixes
      rw [hadd]
      exact ⟨hB.objectives_eq, hB.constraints_eq⟩

theorem Sound.fixes_addAll (hA : A.Sound) (solutions : List (Solution D)) (h : A.Fixes m c) :
    (leftBehind (Archive.addAll solutions A)).Fixes m c :=
  (leftBehind_addAll_of_add (P := fun A => A.Sound ∧ A.Fixes m c)
    (fun _ s h => ⟨h.1.add s, h.1.fixes_add s h.2⟩) solutions ⟨hA, h⟩).2

end ParetoSearch.Archive
