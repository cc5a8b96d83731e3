import ParetoSearch.Proofs.Archive.Reachable
import ParetoSearch.Proofs.Archive.Summary

/-!
# Archives from snapshots

A snapshot forgets the attributes of the members, the fixed numbers of objectives and
constraints and the counts of improvements. What it keeps are the `entries` of the
archive. Offering them to an empty archive brings all of them back: the members of a
sound archive are all chosen among themselves, so no entry is refused and none is driven
out by a later one (`Sound.chosen_members`). Where there is at least one entry it also
fixes the forgotten numbers again, and from there on nothing that is offered can tell
the two archives apart (`Alike.add`).
-/

namespace ParetoSearch

variable {D : Type}

/-! ### Lists in the order of keys -/

instance : Std.Asymm BoxKey.Before :=
  ⟨fun _ _ hab hba => BoxKey.before_irrefl _ (hab.trans hba)⟩

/-- Lists in the ascending order of their keys are the same if they have the same elements. -/
theorem Members.eq_of_mem_iff {α : Type} {xs ys : List (BoxKey × α)}
    (hx : xs.Pairwise fun p q => p.1.Before q.1) (hy : ys.Pairwise fun p q => p.1.Before q.1)
    (h : ∀ p, p ∈ xs ↔ p ∈ ys) : xs = ys :=
  List.Pairwise.eq_of_mem_iff (r := InvImage BoxKey.Before Prod.fst) hx hy h

namespace Archive

variable {A B : Archive D} {s t : Solution D}

/-! ### Entries -/

/-- The keys of the members with what a snapshot keeps of them. -/
def entries (A : Archive D) : List (BoxKey × Entry D) :=
  A.members.map fun p => (p.1, Entry.ofSolution p.2)

theorem mem_entries_iff {e : BoxKey × Entry D} :
    e ∈ A.entries ↔ ∃ p ∈ A.members, (p.1, Entry.ofSolution p.2) = e := List.mem_map

theorem Sound.pairwise_entries (hA : A.Sound) :
    A.entries.Pairwise fun p q => p.1.Before q.1 :=
  List.pairwise_map.2 hA.ascending

/-- Whether a solution is refused can be told from the entries. -/
theorem Sound.refuses_iff_entry (hA : A.Sound) (hs : A.ensureFits s = .ok ()) : A.Refuses s ↔
    ∃ e ∈ A.entries, A.epsilons.standing e.2.toSolution ≤ A.epsilons.standing s := by
  rw [hA.refuses_iff hs]
  constructor
  · rintro ⟨p, hp, hle⟩
    exact ⟨_, mem_entries_iff.2 ⟨p, hp, rfl⟩, hle⟩
  · rintro ⟨_, he, hle⟩
    obtain ⟨p, hp, rfl⟩ := mem_entries_iff.1 he
    exact ⟨p, hp, hle⟩

theorem Takes.mem_entries_iff (hB : A.Takes s B) (hA : A.Sound) (hs : A.ensureFits s = .ok ())
    (h : ¬A.Refuses s) (e : BoxKey × Entry D) : e ∈ B.entries ↔
      e = (A.boxKey s.objectives, Entry.ofSolution s) ∨
        e ∈ A.entries ∧ ¬A.epsilons.standing s < A.epsilons.standing e.2.toSolution := by
  simp only [Archive.mem_entries_iff, hB.mem_iff_standing hA hs h]
  constructor
  · rintro ⟨p, rfl | ⟨hp, hstays⟩, rfl⟩
    · exact .inl rfl
    · exact .inr ⟨⟨p, hp, rfl⟩, hstays⟩
  · rintro (rfl | ⟨⟨p, hp, rfl⟩, hstays⟩)
    · exact ⟨_, .inl rfl, rfl⟩
    · exact ⟨p, .inr ⟨hp, hstays⟩, rfl⟩

/-! ### Archives that look alike -/

/-- The archives agree in all that decides what becomes of an offer. -/
structure Alike (A B : Archive D) : Prop where
  epsilons_eq : A.epsilons = B.epsilons
  objectives_eq : A.objectives = B.objectives
  constraints_eq : A.constraints = B.constraints
  entries_eq : A.entries = B.entries

theorem Alike.ensureFits_eq (h : A.Alike B) (s : Solution D) : A.ensureFits s = B.ensureFits s := by
  rw [ensureFits, ensureFits, h.objectives_eq, h.constraints_eq]

theorem Alike.refuses_iff (h : A.Alike B) (hA : A.Sound) (hB : B.Sound)
    (hs : A.ensureFits s = .ok ()) : A.Refuses s ↔ B.Refuses s := by
  rw [hA.refuses_iff_entry hs, hB.refuses_iff_entry (h.ensureFits_eq s ▸ hs), h.entries_eq,
    h.epsilons_eq]

/-- Archives that look alike do so after they have taken the same solution. -/
theorem Alike.of_takes {A' B' : Archive D} (h : A.Alike B) (hA : A.Sound) (hB : B.Sound)
    (hs : A.ensureFits s = .ok ()) (hnot : ¬A.Refuses s) (hA' : A.Takes s A')
    (hB' : B.Takes s B') : A'.Alike B' := by
  have hsB : B.ensureFits s = .ok () := h.ensureFits_eq s ▸ hs
  have hnotB : ¬B.Refuses s := mt (h.refuses_iff hA hB hs).2 hnot
  constructor
  case epsilons_eq => rw [hA'.epsilons_eq, hB'.epsilons_eq, h.epsilons_eq]
  case objectives_eq => rw [hA'.objectives_eq, hB'.objectives_eq]
  case constraints_eq => rw [hA'.constraints_eq, hB'.constraints_eq]
  case entries_eq =>
    refine Members.eq_of_mem_iff (hA.of_takes hs hnot hA').pairwise_entries
      (hB.of_takes hsB hnotB hB').pairwise_entries fun e => ?_
    rw [hA'.mem_entries_iff hA hs hnot, hB'.mem_entries_iff hB hsB hnotB, h.entries_eq,
      boxKey, boxKey, h.epsilons_eq]

/-- The answer to a call, without the archive that it leaves behind. -/
def answer {α : Type} : EStateM.Result Error (Archive D) α → Except Error α
  | .ok a _ => .ok a
  | .error e _ => .error e

/-- Archives that look alike answer an offer in the same way, and look alike afterwards. -/
theorem Alike.add (h : A.Alike B) (hA : A.Sound) (hB : B.Sound) (s : Solution D) :
    answer (add s A) = answer (add s B) ∧ (leftBehind (add s A)).Alike (leftBehind (add s B)) := by
  cases hs : A.ensureFits s with
  | error e =>
    rw [add_of_error hs, add_of_error (h.ensureFits_eq s ▸ hs)]
    exact ⟨rfl, h⟩
  | ok =>
    have hsB : B.ensureFits s = .ok () := h.ensureFits_eq s ▸ hs
    by_cases hrefused : A.Refuses s
    · rw [hA.add_of_refuses hs hrefused,
        hB.add_of_refuses hsB ((h.refuses_iff hA hB hs).1 hrefused)]
      exact ⟨rfl, h⟩
    · obtain ⟨A', haddA, hA'⟩ := hA.add_of_not_refuses hs hrefused
      obtain ⟨B', haddB, hB'⟩ := hB.add_of_not_refuses hsB (mt (h.refuses_iff hA hB hs).2 hrefused)
      rw [haddA, haddB]
      exact ⟨rfl, h.of_takes hA hB hs hrefused hA' hB'⟩

/-- What is seen of an archive while solutions are offered to it one after another, also behind
offers that fail: each time the answer and the entries afterwards. -/
def offers : List (Solution D) → Archive D → List (Except Error Bool × List (BoxKey × Entry D))
  | [], _ => []
  | s :: rest, A =>
    let result := Archive.add s A
    (answer result, (leftBehind result).entries) :: offers rest (leftBehind result)

/-- Nothing that is offered tells archives apart that look alike. -/
theorem Alike.offers_eq (h : A.Alike B) (hA : A.Sound) (hB : B.Sound)
    (solutions : List (Solution D)) : offers solutions A = offers solutions B := by
  induction solutions generalizing A B with
  | nil => rfl
  | cons s rest ih =>
    obtain ⟨hanswer, halike⟩ := h.add hA hB s
    rw [offers, offers, hanswer, halike.entries_eq, ih halike (hA.add s) (hB.add s)]

/-! ### The members brought back -/

/-- The solutions that a snapshot of the archive describes. -/
def described (A : Archive D) : List (Solution D) := A.snapshot.entries.map Entry.toSolution

theorem described_eq (A : Archive D) :
    A.described = A.members.map fun p => (Entry.ofSolution p.2).toSolution := by
  simp only [described, snapshot, solutions, Members.solutions, List.map_map]
  rfl

theorem Sound.chosen_members (hA : A.Sound) {i : ℕ} (hi : A.described[i]? = some t) :
    A.epsilons.Chosen A.described i t := by
  have hmember : ∀ {j : ℕ} {q : Solution D}, A.described[j]? = some q →
      ∃ p, A.members[j]? = some p ∧ (Entry.ofSolution p.2).toSolution = q := fun hj => by
    rw [described_eq, List.getElem?_map, Option.map_eq_some_iff] at hj
    exact hj
  obtain ⟨p, hp, rfl⟩ := hmember hi
  have hsame : ∀ {j : ℕ} {q : Solution D}, A.described[j]? = some q →
      A.epsilons.standing q ≤ A.epsilons.standing p.2 → j = i := by
    intro j q hj hle
    obtain ⟨q, hq, rfl⟩ := hmember hj
    obtain rfl := hA.eq_of_standing_le (List.mem_of_getElem? hq) (List.mem_of_getElem? hp) hle
    have hnodup : A.members.Nodup := hA.ascending.imp fun h heq => h.ne (congrArg Prod.fst heq)
    obtain ⟨hlen, -⟩ := List.getElem?_eq_some_iff.1 hq
    exact (List.getElem?_inj hlen hnodup).1 (hq.trans hp.symm)
  constructor
  case getElem?_eq => exact hi
  case not_lt =>
    intro q hq hlt
    obtain ⟨j, hj⟩ := List.mem_iff_getElem?.1 hq
    obtain rfl := hsame hj hlt.le
    obtain rfl := Option.some.inj (hj.symm.trans hi)
    exact lt_irrefl _ hlt
  case not_le => exact fun j q hji hj hle => hji.ne (hsame hj hle)

/-- The entries of an archive that holds the chosen ones of the described solutions. -/
theorem Sound.entries_eq_of_summarizes (hA : A.Sound) (hB : B.Sound)
    (hε : B.epsilons = A.epsilons) (h : B.Summarizes A.described) : B.entries = A.entries := by
  have hkeys : ∀ objectives, B.boxKey objectives = A.boxKey objectives :=
    boxKey_eq_of_epsilons_eq hε
  refine Members.eq_of_mem_iff hB.pairwise_entries hA.pairwise_entries fun e => ?_
  simp only [mem_entries_iff]
  constructor
  · rintro ⟨⟨k, t⟩, hmem, rfl⟩
    obtain ⟨hkey, i, hi⟩ := (h (k, t)).1 hmem
    have hdescribed := hi.mem
    rw [described_eq] at hdescribed
    obtain ⟨p, hp, rfl⟩ := List.mem_map.1 hdescribed
    exact ⟨p, hp, Prod.ext ((hA.key_eq p hp).trans (hkey.trans (hkeys _)).symm) rfl⟩
  · rintro ⟨p, hp, rfl⟩
    have hmem : (Entry.ofSolution p.2).toSolution ∈ A.described := by
      rw [described_eq]
      exact List.mem_map_of_mem hp
    obtain ⟨i, hi⟩ := List.mem_iff_getElem?.1 hmem
    have hchosen := hA.chosen_members hi
    refine ⟨(p.1, (Entry.ofSolution p.2).toSolution), (h _).2 ⟨?_, i, hε ▸ hchosen⟩, rfl⟩
    exact (hA.key_eq p hp).trans (hkeys _).symm

/-! ### Snapshots of reachable archives -/

theorem ne_nil_of_ensureFits (hA : A.objectives ≠ some 0) (hs : A.ensureFits s = .ok ()) :
    s.objectives ≠ [] := by
  intro hnil
  cases hm : A.objectives with
  | none => simp [ensureFits, hm, hnil] at hs
  | some m =>
    have hne : m ≠ 0 := fun h => hA (h ▸ hm)
    simp [ensureFits, hm, hnil, hne] at hs

theorem Reachable.objectives_ne_zero (hA : A.Reachable) : A.objectives ≠ some 0 := by
  refine (hA.of_add (P := fun A => A.Sound ∧ A.objectives ≠ some 0) ?_ ?_ ?_ ?_).2
  · exact fun ε => ⟨sound_of_members_eq_nil rfl, by simp [Archive.ofEpsilons]⟩
  · intro ε m c A h
    refine ⟨sound_of_members_eq_nil (members_eq_nil_of_withDimensions h), ?_⟩
    unfold Archive.withDimensions at h
    split_ifs at h with hm
    rw [← Except.ok.inj h]
    simpa using hm
  · rintro A s ⟨hA, hm⟩
    refine ⟨hA.add s, ?_⟩
    cases hs : A.ensureFits s with
    | error e => rwa [add_of_error hs]
    | ok =>
      by_cases hrefused : A.Refuses s
      · rwa [hA.add_of_refuses hs hrefused]
      · obtain ⟨B, hadd, hB⟩ := hA.add_of_not_refuses hs hrefused
        rw [hadd]
        show B.objectives ≠ some 0
        rw [hB.objectives_eq]
        simpa using ne_nil_of_ensureFits hm hs
  · exact fun A hA => ⟨sound_of_members_eq_nil rfl, hA.2⟩

theorem Reachable.exists_fits_described (hA : A.Reachable) :
    ∃ m c, 0 < m ∧ ∀ s ∈ A.described, s.Fits m c := by
  cases hm : A.members with
  | nil => exact ⟨1, 0, Nat.one_pos, by simp [described_eq, hm]⟩
  | cons p rest =>
    obtain ⟨m, c, hobjectives, hconstraints, -⟩ := hA.sound.fits p (by simp [hm])
    have hpos : 0 < m := Nat.pos_of_ne_zero fun h => hA.objectives_ne_zero (h ▸ hobjectives)
    refine ⟨m, c, hpos, fun s hs => ?_⟩
    rw [described_eq] at hs
    obtain ⟨q, hq, rfl⟩ := List.mem_map.1 hs
    obtain ⟨m', c', hm', hc', hfits⟩ := hA.sound.fits q hq
    obtain rfl := Option.some.inj (hobjectives.symm.trans hm')
    obtain rfl := Option.some.inj (hconstraints.symm.trans hc')
    exact hfits

/-- Sound archives with the same widths and entries look alike if there is an entry. -/
theorem Sound.alike (hA : A.Sound) (hB : B.Sound) (hε : A.epsilons = B.epsilons)
    (h : A.entries = B.entries) (hne : A.members ≠ []) : A.Alike B := by
  obtain ⟨p, hp⟩ := List.exists_mem_of_ne_nil _ hne
  have he : (p.1, Entry.ofSolution p.2) ∈ B.entries := h ▸ mem_entries_iff.2 ⟨p, hp, rfl⟩
  obtain ⟨q, hq, heq⟩ := mem_entries_iff.1 he
  have hentry : Entry.ofSolution q.2 = Entry.ofSolution p.2 := congrArg Prod.snd heq
  obtain ⟨_, _, hmA, hcA, hfitsA⟩ := hA.fits p hp
  obtain ⟨_, _, hmB, hcB, hfitsB⟩ := hB.fits q hq
  constructor
  case epsilons_eq => exact hε
  case objectives_eq =>
    rw [hmA, hmB, ← hfitsA.1, ← hfitsB.1]
    exact congrArg (fun e => some e.objectives.length) hentry.symm
  case constraints_eq =>
    rw [hcA, hcB, ← hfitsA.2.1, ← hfitsB.2.1]
    exact congrArg (fun e => some e.constraints.length) hentry.symm
  case entries_eq => exact h

/-- An archive is made from a snapshot if its widths make sense and its entries can be offered. -/
theorem ofSnapshot_eq_ok {snapshot : Snapshot D} {ε : Epsilons} {taken : ℕ}
    (hε : Epsilons.ofList snapshot.epsilons = .ok ε)
    (hall : addAll (snapshot.entries.map Entry.toSolution) (ofEpsilons ε) = .ok taken A) :
    Archive.ofSnapshot snapshot = .ok A := by
  refine bind_eq_ok.2 ⟨ofEpsilons ε, ?_, ?_⟩
  · rw [Archive.ofWidths, hε]
    rfl
  · rw [hall]
    rfl

/-- **A snapshot brings an archive back**: from the snapshot of a reachable archive an archive is
made that has the same widths and, in the same order, the same keys with the same decisions,
objectives and constraints. If there is a member, then whatever is offered to both of them one after
another, they give the same answers and have the same entries after each offer. -/
theorem Reachable.exists_ofSnapshot_snapshot (hA : A.Reachable) :
    ∃ B, Archive.ofSnapshot A.snapshot = .ok B ∧ B.epsilons = A.epsilons ∧ B.entries = A.entries ∧
      (A.members ≠ [] → ∀ solutions, offers solutions B = offers solutions A) := by
  obtain ⟨m, c, hm, hfits⟩ := hA.exists_fits_described
  obtain ⟨taken, B, hall, hε, hB, hsum⟩ :=
    (summarizes_nil (A := Archive.ofEpsilons A.epsilons) rfl).exists_addAll_eq_ok
      (sound_of_members_eq_nil rfl) ⟨hm, .inl rfl, .inl rfl⟩ hfits
  have hmade : Archive.ofSnapshot A.snapshot = .ok B :=
    ofSnapshot_eq_ok (Epsilons.ofList_eq_ok.2 rfl) hall
  have hentries := hA.sound.entries_eq_of_summarizes hB hε hsum
  refine ⟨B, hmade, hε, hentries, fun hne solutions => ?_⟩
  exact ((hA.sound.alike hB hε.symm hentries.symm hne).offers_eq hA.sound hB solutions).symm

/-- Two ranked members come back, and without their ranks they take the same offers. -/
theorem Reachable.exists_ofSnapshot_snapshot_of_two : ∃ A B : Archive Unit, A.members.length = 2 ∧
    Archive.ofSnapshot A.snapshot = .ok B ∧ B.entries = A.entries ∧
      ∀ solutions, offers solutions B = offers solutions A := by
  have hA : ((Operation.addAll [(Solution.ofEvaluation () ⟨[0.5, 2.5], []⟩).setRank 0,
      (Solution.ofEvaluation () ⟨[2.5, 0.5], []⟩).setRank 0]).run
        (Archive.ofEpsilons ⟨[1.0], by decide, by decide⟩)).Reachable := .run (.ofEpsilons _) _
  have hlength : ((Operation.addAll [(Solution.ofEvaluation () ⟨[0.5, 2.5], []⟩).setRank 0,
      (Solution.ofEvaluation () ⟨[2.5, 0.5], []⟩).setRank 0]).run
        (Archive.ofEpsilons ⟨[1.0], by decide, by decide⟩)).members.length = 2 := by decide +kernel
  obtain ⟨B, hB, -, hentries, hoffers⟩ := Reachable.exists_ofSnapshot_snapshot hA
  exact ⟨_, B, hlength, hB, hentries, hoffers (by rintro hnil; simp [hnil] at hlength)⟩

end Archive

end ParetoSearch
