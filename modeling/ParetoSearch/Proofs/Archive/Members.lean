import ParetoSearch.Archive.Members
import Mathlib.Data.List.Sort

/-!
# Members in the order of their keys

While the keys ascend strictly, a key finds exactly the member that stands under it
(`Ascending.find?_eq_some_iff`), and putting a solution into a box exchanges what
stands under its key and nothing else (`Ascending.mem_place_iff`). If every comparison
with a member succeeds, the two searches through the members are a filter and a test.
-/

namespace ParetoSearch

variable {D : Type}

instance : Std.TransOrd BoxKey := inferInstanceAs (Std.TransCmp (compareOn BoxKey.coordinates))

instance : Std.LawfulEqOrd BoxKey where
  eq_of_compare {a b} h := by
    obtain ⟨a⟩ := a
    obtain ⟨b⟩ := b
    exact congrArg BoxKey.mk (Std.LawfulEqCmp.eq_of_compare h)

/-- The order of the keys. -/
def BoxKey.Before (a b : BoxKey) : Prop := compare a b = .lt

namespace BoxKey

theorem before_irrefl (a : BoxKey) : ¬a.Before a := by
  simp [Before, Std.ReflCmp.compare_self]

theorem Before.trans {a b c : BoxKey} (hab : a.Before b) (hbc : b.Before c) : a.Before c :=
  Std.TransCmp.lt_trans hab hbc

theorem Before.ne {a b : BoxKey} (h : a.Before b) : a ≠ b := by
  rintro rfl
  exact before_irrefl a h

instance : Std.Irrefl Before := ⟨before_irrefl⟩

instance : Std.Antisymm Before := ⟨fun _ _ hab hba => absurd (hab.trans hba) (before_irrefl _)⟩

end BoxKey

namespace Members

variable {key : BoxKey} {s : Solution D} {members : Members D} {p : BoxKey × Solution D}

/-- The keys ascend strictly, so there is one member under each. -/
def Ascending (members : Members D) : Prop := members.Pairwise fun p q => p.1.Before q.1

/-! ### Places -/

theorem find?_eq_none_iff : members.find? key = none ↔ ∀ p ∈ members, p.1 ≠ key := by
  simp only [find?, List.lookup_eq_none_iff, bne_iff_ne, ne_comm]

/-- Members under one key are one member. -/
theorem Ascending.eq_of_key_eq (h : members.Ascending) {q : BoxKey × Solution D} (hp : p ∈ members)
    (hq : q ∈ members) (hkey : p.1 = q.1) : p = q :=
  List.inj_on_of_nodup_map (List.pairwise_map.2 (h.imp BoxKey.Before.ne)) hp hq hkey

theorem Ascending.find?_eq_some_iff (h : members.Ascending) :
    members.find? key = some s ↔ (key, s) ∈ members := by
  have hmem : ∀ {m}, members.find? key = some m → (key, m) ∈ members := fun hm => by
    obtain ⟨before, behind, rfl, -⟩ := List.lookup_eq_some_iff.1 hm
    simp
  refine ⟨hmem, fun hs => ?_⟩
  cases hm : members.find? key with
  | none => exact absurd rfl (find?_eq_none_iff.1 hm _ hs)
  | some m => rw [(Prod.mk.inj (h.eq_of_key_eq (hmem hm) hs rfl)).2]

/-- Putting a solution into a box exchanges what is in it. -/
theorem Ascending.mem_place_iff (h : members.Ascending) :
    p ∈ place key s members ↔ p = (key, s) ∨ p ∈ members ∧ p.1 ≠ key := by
  fun_induction place key s members with
  | case1 => simp
  | case2 k m rest hlt =>
    have hne : ∀ q ∈ (k, m) :: rest, q.1 ≠ key := by
      rintro q (_ | ⟨_, hq⟩)
      · exact (BoxKey.Before.ne hlt).symm
      · exact ((BoxKey.Before.trans hlt ((List.pairwise_cons.1 h).1 q hq)).ne).symm
    rw [List.mem_cons, and_iff_left_of_imp (hne p)]
  | case3 k m rest heq =>
    obtain rfl : key = k := Std.LawfulEqCmp.eq_of_compare heq
    have hne : p ∈ rest → p.1 ≠ key := fun hp => ((List.pairwise_cons.1 h).1 p hp).ne.symm
    simp only [List.mem_cons]
    constructor
    · rintro (hp | hp)
      · exact .inl hp
      · exact .inr ⟨.inr hp, hne hp⟩
    · rintro (hp | ⟨rfl | hp, hkey⟩)
      · exact .inl hp
      · exact absurd rfl hkey
      · exact .inr hp
  | case4 k m rest hgt ih =>
    have hk : k.Before key := Std.OrientedCmp.lt_of_gt hgt
    rw [List.mem_cons, ih (List.pairwise_cons.1 h).2, List.mem_cons]
    constructor
    · rintro (rfl | hp | hp)
      · exact .inr ⟨.inl rfl, hk.ne⟩
      · exact .inl hp
      · exact .inr ⟨.inr hp.1, hp.2⟩
    · rintro (hp | ⟨hp | hp, hkey⟩)
      · exact .inr (.inl hp)
      · exact .inl hp
      · exact .inr (.inr ⟨hp, hkey⟩)

theorem ascending_place (h : members.Ascending) : (place key s members).Ascending := by
  fun_induction place key s members with
  | case1 => exact List.pairwise_singleton _ _
  | case2 k m rest hlt =>
    refine List.pairwise_cons.2 ⟨?_, h⟩
    rintro q (_ | ⟨_, hq⟩)
    · exact hlt
    · exact BoxKey.Before.trans hlt ((List.pairwise_cons.1 h).1 q hq)
  | case3 k m rest heq =>
    obtain rfl : key = k := Std.LawfulEqCmp.eq_of_compare heq
    exact List.pairwise_cons.2 (List.pairwise_cons.1 h)
  | case4 k m rest hgt ih =>
    obtain ⟨hk, hrest⟩ := List.pairwise_cons.1 h
    refine List.pairwise_cons.2 ⟨fun q hq => ?_, ih hrest⟩
    rcases (Ascending.mem_place_iff hrest).1 hq with rfl | ⟨hq, -⟩
    · exact Std.OrientedCmp.lt_of_gt hgt
    · exact hk q hq

/-- Two collections with the same keys list them in the same order. -/
theorem Ascending.map_key_eq {members' : Members D} (h : members.Ascending)
    (h' : members'.Ascending) (hkeys : ∀ k, k ∈ members.map (·.1) ↔ k ∈ members'.map (·.1)) :
    members.map (·.1) = members'.map (·.1) :=
  (List.pairwise_map.2 h : (members.map (·.1)).Pairwise BoxKey.Before).eq_of_mem_iff
    (List.pairwise_map.2 h') hkeys

/-! ### Searches -/

variable {compare : Comparison D} (verdict : Solution D → Dominance)

/-- The members that are kept are those without a verdict against them, and the one spared. -/
theorem notDominatedBy_eq_ok (spared : Option BoxKey)
    (h : ∀ p ∈ members, compare s p.2 = .ok (verdict p.2)) :
    members.notDominatedBy compare s spared =
      .ok (members.filter fun p => spared = some p.1 ∨ verdict p.2 ≠ .left) := by
  induction members with
  | nil => rfl
  | cons p rest ih =>
    obtain ⟨k, m⟩ := p
    have hm := h (k, m) (by simp)
    have hrest := ih fun q hq => h q (by simp [hq])
    rw [notDominatedBy, hrest, List.filter_cons, Comparison.dominates, hm]
    by_cases hspared : spared = some k
    · simp [hspared]
    · by_cases hleft : verdict m = .left
      · simp [hspared, hleft]
      · simp [hspared, hleft, beq_eq_false_iff_ne.2 hleft]

/-- A member is better exactly if there is a verdict for it. -/
theorem anyDominates_eq_ok (h : ∀ p ∈ members, compare p.2 s = .ok (verdict p.2)) :
    members.anyDominates compare s = .ok (members.any fun p => verdict p.2 = .left) := by
  induction members with
  | nil => rfl
  | cons p rest ih =>
    have hrest : rest.anyM (fun q => compare.dominates q.2 s) = _ :=
      ih fun q hq => h q (by simp [hq])
    rw [anyDominates, List.anyM_cons, Comparison.dominates, h p (by simp)]
    by_cases hleft : verdict p.2 = .left
    · simp [hleft]
      rfl
    · simpa [hleft, beq_eq_false_iff_ne.2 hleft] using hrest

end Members

end ParetoSearch
