import ParetoSearch.Proofs.Binary64.Monotone
import ParetoSearch.Random.Source
import ParetoSearch.Selection

/-!
# Who wins a tournament

A tournament keeps the best of the members drawn so far, which every further draw may
challenge, and never looks back. This finds the best of all draws, because whoever has
been beaten is also beaten by every later winner: the crowded order compares grades, a
rank and behind it a distance (`Solution.outdoes_iff`). Missing ranks and distances have
their place behind all others. A distance that is no number has none; it ties with every
other distance, and being tied would not be transitive.

A challenger must be better, not as good, so the best so far is the earliest of those with
the least grade, and one more draw keeps it so (`FirstLeast.concat`). From this follows
what a contest comes to, by induction on its rounds (`exists_contest`).
-/

namespace ParetoSearch

open Binary64

variable {D ρ ι β : Type}

/-! ### The crowded order -/

namespace Solution

variable {a b : Solution D}

/-- The crowded order: the solution has the smaller rank, or the same rank and the greater crowding
distance. Without a rank it is behind all ranks, without a distance behind all distances. -/
def Outdoes (a b : Solution D) : Prop :=
  a.rank.getD maxCount < b.rank.getD maxCount ∨
    a.rank.getD maxCount = b.rank.getD maxCount ∧
      b.crowding.getD (-infinity) < a.crowding.getD (-infinity)

instance (a b : Solution D) : Decidable (a.Outdoes b) :=
  inferInstanceAs (Decidable (_ ∨ _ ∧ _))

theorem crowdedBetter_iff : a.crowdedBetter b = true ↔ a.Outdoes b := by
  unfold crowdedBetter Outdoes
  dsimp only
  split_ifs with hrank
  · simp [hrank]
  · rw [not_not] at hrank
    simp [hrank]

/-- Any rank is better than none. -/
example : ((ofDecision ()).setRank 3).crowdedBetter (ofDecision ()) = true :=
  crowdedBetter_iff.2 (by decide)

/-- The crowding distance, if there is one, is a number. -/
def DistanceIsNumber (s : Solution D) : Prop := ∀ distance ∈ s.crowding, distance.isNaN = false

instance (s : Solution D) : Decidable s.DistanceIsNumber :=
  inferInstanceAs (Decidable (∀ distance ∈ s.crowding, distance.isNaN = false))

/-- The rank and behind it the crowding distance, the greater one first. -/
noncomputable def crowdedGrade (s : Solution D) : ℕ ×ₗ ERealᵒᵈ :=
  toLex (s.rank.getD maxCount, OrderDual.toDual (real (s.crowding.getD (-infinity))))

theorem DistanceIsNumber.isNaN_getD (h : a.DistanceIsNumber) :
    (a.crowding.getD (-infinity)).isNaN = false := by
  unfold DistanceIsNumber at h
  cases hc : a.crowding with
  | none => decide
  | some distance => exact h distance hc

/-- Among solutions whose distances are numbers the crowded order is that of their grades. -/
theorem outdoes_iff (ha : a.DistanceIsNumber) (hb : b.DistanceIsNumber) :
    a.Outdoes b ↔ a.crowdedGrade < b.crowdedGrade := by
  rw [Outdoes, lt_iff_real_lt hb.isNaN_getD ha.isNaN_getD, crowdedGrade, crowdedGrade,
    Prod.Lex.toLex_lt_toLex]
  rfl

end Solution

/-- The grade of the member with an index. -/
noncomputable def Selection.gradeAt (members : Population D) (i : Fin members.length) :
    ℕ ×ₗ ERealᵒᵈ :=
  (members.get i).crowdedGrade

/-! ### The earliest of the least -/

/-- The item is the earliest of those in the list that have the least key. -/
def FirstLeast [LinearOrder β] (key : ι → β) (xs : List ι) (x : ι) : Prop :=
  (∀ y ∈ xs, key x ≤ key y) ∧
    ∃ before after, xs = before ++ x :: after ∧ ∀ y ∈ before, key x < key y

namespace FirstLeast

variable [LinearOrder β] {key : ι → β} {xs : List ι} {x : ι}

theorem singleton (key : ι → β) (x : ι) : FirstLeast key [x] x :=
  ⟨List.forall_mem_singleton.2 le_rfl, [], [], rfl, List.forall_mem_nil _⟩

theorem concat (h : FirstLeast key xs x) (y : ι) :
    FirstLeast key (xs ++ [y]) (if key y < key x then y else x) := by
  obtain ⟨hleast, before, after, rfl, hbefore⟩ := h
  split_ifs with hlt
  · have hall : ∀ z ∈ before ++ x :: after, key y < key z := fun z hz => hlt.trans_le (hleast z hz)
    refine ⟨?_, _, [], rfl, hall⟩
    exact List.forall_mem_append.2 ⟨fun z hz => (hall z hz).le, List.forall_mem_singleton.2 le_rfl⟩
  · refine ⟨?_, before, after ++ [y], ?_, hbefore⟩
    · exact List.forall_mem_append.2 ⟨hleast, List.forall_mem_singleton.2 (not_lt.1 hlt)⟩
    · rw [List.append_assoc, List.cons_append]

end FirstLeast

/-! ### Rounds of a tournament -/

variable [Generator ρ]

/-- Several indices, drawn one after another. -/
def Draw.several (n : ℕ) (h : 0 < n) : ℕ → StateM ρ (List (Fin n))
  | 0 => return []
  | count + 1 => do
    let first ← Draw.below n h
    return first :: (← several n h count)

namespace Selection

theorem crowdedBetter_iff_gradeAt {members : Population D}
    (hmembers : ∀ s ∈ members, s.DistanceIsNumber) (i j : Fin members.length) :
    (members.get i).crowdedBetter (members.get j) = true ↔ gradeAt members i < gradeAt members j :=
  Solution.crowdedBetter_iff.trans (Solution.outdoes_iff
    (hmembers _ (List.get_mem members i)) (hmembers _ (List.get_mem members j)))

/-- **A contest ends with the earliest of the best**: if it starts with that of the draws that have
been seen, then it ends with that of these and the further draws, of which each round takes one. -/
theorem exists_contest {members : Population D} (h : 0 < members.length)
    (hmembers : ∀ s ∈ members, s.DistanceIsNumber) {seen : List (Fin members.length)}
    {best : Fin members.length} (hbest : FirstLeast (gradeAt members) seen best) (rounds : ℕ)
    (g : ρ) :
    ∃ drawn winner g', Draw.several members.length h rounds g = (drawn, g') ∧
      drawn.length = rounds ∧ contest members h rounds best g = (winner, g') ∧
        FirstLeast (gradeAt members) (seen ++ drawn) winner := by
  induction rounds generalizing seen best g with
  | zero => exact ⟨[], best, g, rfl, rfl, rfl, by rwa [List.append_nil]⟩
  | succ rounds ih =>
    cases hdraw : (Draw.below members.length h : StateM ρ _) g with
    | mk challenger g₁ =>
      have hnext := hbest.concat challenger
      simp only [← crowdedBetter_iff_gradeAt hmembers] at hnext
      obtain ⟨drawn, winner, g', hdrawn, hlength, hcontest, hwinner⟩ := ih hnext g₁
      refine ⟨challenger :: drawn, winner, g', ?_, by rw [List.length_cons, hlength], ?_, ?_⟩
      · simp only [Draw.several, bind, StateT.bind, hdraw, hdrawn]
        rfl
      · simp only [contest, bind, StateT.bind, hdraw]
        exact hcontest
      · rwa [List.append_assoc] at hwinner

/-- **The winner of a tournament is the earliest of the best that are drawn**: where all distances
are numbers, a tournament draws as many members as its size says, at least one. None of them
outdoes the winner, and the winner outdoes all that were drawn before it. -/
theorem exists_select_tournament (members : Population D) (h : 0 < members.length)
    (hmembers : ∀ s ∈ members, s.DistanceIsNumber) (size : ℕ) (g : ρ) :
    ∃ drawn winner g', Draw.several members.length h (max size 1) g = (drawn, g') ∧
      drawn.length = max size 1 ∧
      (select (.tournament size) members : EStateM Fault ρ (Fin members.length)) g = .ok winner g' ∧
      (∀ i ∈ drawn, ¬(members.get i).Outdoes (members.get winner)) ∧
      ∃ before after, drawn = before ++ winner :: after ∧
        ∀ i ∈ before, (members.get winner).Outdoes (members.get i) := by
  have hat : ∀ i, (members.get i).DistanceIsNumber := fun i => hmembers _ (List.get_mem members i)
  have hrounds : max size 1 = size - 1 + 1 := by omega
  cases hdraw : (Draw.below members.length h : StateM ρ _) g with
  | mk first g₁ =>
    obtain ⟨drawn, winner, g', hdrawn, hlength, hcontest, hleast, before, after, hsplit, hbefore⟩ :=
      exists_contest h hmembers (FirstLeast.singleton (gradeAt members) first) (size - 1) g₁
    refine ⟨first :: drawn, winner, g', ?_, ?_, ?_, ?_, before, after, hsplit, ?_⟩
    · simp only [hrounds, Draw.several, bind, StateT.bind, hdraw, hdrawn]
      rfl
    · rw [hrounds, List.length_cons, hlength]
    · simp only [select, dif_pos h, hold, EStateM.fromStateM, bind, StateT.bind, StateT.run, hdraw,
        hcontest]
    · intro i hi hbetter
      exact (hleast i hi).not_gt ((Solution.outdoes_iff (hat i) (hat winner)).1 hbetter)
    · intro i hi
      exact (Solution.outdoes_iff (hat winner) (hat i)).2 (hbefore i hi)

/-- Four members, the second and the third of which are tied and outdo the others: the first has no
rank, and the last no distance. -/
def fourMembers : Population Unit :=
  [.ofDecision (), ((Solution.ofDecision ()).setRank 1).setCrowding 1.0,
    ((Solution.ofDecision ()).setRank 1).setCrowding 1.0, (Solution.ofDecision ()).setRank 1]

/-- Words that draw all four members, the third before the second. -/
def fourWords : Source := .cycle ⟨[0xC0000000, 0x80000000, 0, 0x40000000], []⟩

/-- Of the two that are tied the one that was drawn first wins. -/
theorem exists_select_tournament_of_tie : (∀ s ∈ fourMembers, s.DistanceIsNumber) ∧
    ∃ drawn winner g', Draw.several fourMembers.length (by decide) 4 fourWords = (drawn, g') ∧
      (select (.tournament 4) fourMembers : EStateM Fault Source _) fourWords = .ok winner g' ∧
      drawn.map Fin.val = [3, 2, 0, 1] ∧ winner.val = 2 ∧
      ∀ i ∈ drawn, ¬(fourMembers.get i).Outdoes (fourMembers.get winner) := by
  have hmembers : ∀ s ∈ fourMembers, s.DistanceIsNumber := by decide +kernel
  obtain ⟨drawn, winner, g', hdrawn, -, hselect, hleast, -⟩ :=
    exists_select_tournament fourMembers (by decide) hmembers 4 fourWords
  have hindices : (Draw.several fourMembers.length (by decide) 4 fourWords).1.map Fin.val =
      [3, 2, 0, 1] := by decide +kernel
  have hwinner : (match (select (.tournament 4) fourMembers : EStateM Fault Source _) fourWords with
    | .ok winner _ => winner.val
    | .error _ _ => fourMembers.length) = 2 := by decide +kernel
  rw [hselect] at hwinner
  rw [show Draw.several _ _ 4 fourWords = (drawn, g') from hdrawn] at hindices
  exact ⟨hmembers, drawn, winner, g', hdrawn, hselect, hindices, hwinner, hleast⟩

end Selection

end ParetoSearch
