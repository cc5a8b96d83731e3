import Mathlib.Data.Set.Card
import Mathlib.Logic.Relation
import Mathlib.Order.Bounds.Basic
import Mathlib.Order.Defs.Unbundled

/-!
# Chains of dominators

A chain of length `k` that ends at an item is a succession of `k` dominators, each
of the one behind it. An item has depth `k` when its longest chain has this length.
An item of depth `k + 1` is dominated by one of depth `k`, and by none deeper
(`HasDepth.exists_dominator`, `HasDepth.lt_of_dominates`). On a cycle, or behind one,
chains have no longest; all other items have a depth, as long as there are finitely many
(`exists_hasDepth_iff`). A strict order has no cycles (`exists_hasDepth`). Depths stay what
they are in a part of the items that keeps of each item a dominator one less deep
(`HasDepth.of_part`).
-/

namespace ParetoSearch.Ranking

variable {ι : Type} {dominates : ι → ι → Prop} {i j : ι} {k l : ℕ}

/-- A chain of `k` successive dominators ends at the item. -/
def Chain (dominates : ι → ι → Prop) : ℕ → ι → Prop
  | 0, _ => True
  | k + 1, i => ∃ j, dominates j i ∧ Chain dominates k j

/-- The longest chain that ends at the item has length `k`. -/
def HasDepth (dominates : ι → ι → Prop) (k : ℕ) (i : ι) : Prop :=
  Chain dominates k i ∧ ¬Chain dominates (k + 1) i

/-- A chain may be cut off at the front. -/
theorem Chain.of_succ : ∀ {k : ℕ} {i : ι}, Chain dominates (k + 1) i → Chain dominates k i
  | 0, _, _ => trivial
  | _ + 1, _, ⟨j, hj, h⟩ => ⟨j, hj, h.of_succ⟩

theorem Chain.of_le (h : Chain dominates l i) (hkl : k ≤ l) : Chain dominates k i := by
  induction hkl with
  | refl => exact h
  | step _ ih => exact ih h.of_succ

theorem HasDepth.chain_iff (h : HasDepth dominates k i) : Chain dominates l i ↔ l ≤ k := by
  constructor
  · intro hl
    by_contra hlt
    exact h.2 (hl.of_le (by omega))
  · exact h.1.of_le

/-- The depth is the length of the longest chain. -/
theorem HasDepth.isGreatest (h : HasDepth dominates k i) :
    IsGreatest {l | Chain dominates l i} k :=
  ⟨h.1, fun _ hl => h.chain_iff.1 hl⟩

theorem HasDepth.unique (hk : HasDepth dominates k i) (hl : HasDepth dominates l i) : k = l :=
  le_antisymm (hl.chain_iff.1 hk.1) (hk.chain_iff.1 hl.1)

theorem hasDepth_zero_iff : HasDepth dominates 0 i ↔ ∀ j, ¬dominates j i := by
  simp [HasDepth, Chain]

/-- An item that is not undominated has a dominator one less deep. -/
theorem HasDepth.exists_dominator (h : HasDepth dominates (k + 1) i) :
    ∃ j, dominates j i ∧ HasDepth dominates k j := by
  obtain ⟨⟨j, hj, hc⟩, hno⟩ := h
  exact ⟨j, hj, hc, fun hc' => hno ⟨j, hj, hc'⟩⟩

theorem HasDepth.lt_of_dominates (h : HasDepth dominates k i) (hj : HasDepth dominates l j)
    (hd : dominates j i) : l < k :=
  h.chain_iff.1 ⟨j, hd, hj.1⟩

/-! ### Parts -/

section Parts

variable {κ : Type} {part : κ → ι} {within : κ → κ → Prop} {a : κ}

theorem Chain.of_part (hpart : ∀ a b, within a b → dominates (part a) (part b)) :
    ∀ {k : ℕ} {a : κ}, Chain within k a → Chain dominates k (part a)
  | 0, _, _ => trivial
  | _ + 1, _, ⟨b, hb, h⟩ => ⟨part b, hpart b _ hb, h.of_part hpart⟩

/-- **Depths in a part**: if each of its items that is not undominated has a dominator in the part
that is one less deep, the items have the depths that they have in the whole. -/
theorem HasDepth.of_part (hpart : ∀ a b, within a b ↔ dominates (part a) (part b))
    (hkept : ∀ a k, HasDepth dominates (k + 1) (part a) →
      ∃ b, dominates (part b) (part a) ∧ HasDepth dominates k (part b))
    (h : HasDepth dominates k (part a)) : HasDepth within k a := by
  refine ⟨?_, fun hlonger => h.2 (hlonger.of_part fun a b => (hpart a b).1)⟩
  induction k generalizing a with
  | zero => trivial
  | succ k ih =>
    obtain ⟨b, hdominates, hb⟩ := hkept a k h
    exact ⟨b, (hpart b a).2 hdominates, ih hb⟩

end Parts

/-! ### Cycles -/

/-- The item is on a cycle of dominance or behind one. -/
def BehindCycle (dominates : ι → ι → Prop) (i : ι) : Prop :=
  ∃ c, Relation.TransGen dominates c c ∧ Relation.ReflTransGen dominates c i

/-- What an item behind a cycle dominates is behind the cycle, too. -/
theorem BehindCycle.of_dominates (hj : BehindCycle dominates j) (hd : dominates j i) :
    BehindCycle dominates i := by
  obtain ⟨c, hcycle, hreach⟩ := hj
  exact ⟨c, hcycle, hreach.tail hd⟩

/-- Some dominator of an item behind a cycle is behind the cycle, too. -/
theorem BehindCycle.exists_dominator (h : BehindCycle dominates i) :
    ∃ j, dominates j i ∧ BehindCycle dominates j := by
  obtain ⟨c, hcycle, hreach⟩ := h
  -- Once round the cycle and then on to the item: a way that takes a step, even from `c` to `c`.
  obtain ⟨j, hj, hd⟩ := Relation.TransGen.tail'_iff.1 (hcycle.trans_left hreach)
  exact ⟨j, hd, c, hcycle, hj⟩

/-- Behind a cycle chains of every length end. -/
theorem BehindCycle.chain : ∀ {k : ℕ} {i : ι}, BehindCycle dominates i → Chain dominates k i
  | 0, _, _ => trivial
  | _ + 1, _, h =>
    have ⟨j, hd, hj⟩ := h.exists_dominator
    ⟨j, hd, hj.chain⟩

/-- Elsewhere the dominators along a chain are different items: fewer items lead to a dominator than
to the item, as no dominator leads to itself. -/
theorem Chain.le_ncard [Finite ι] : ∀ {k : ℕ} {i : ι}, Chain dominates k i →
    ¬BehindCycle dominates i → k ≤ {j | Relation.TransGen dominates j i}.ncard
  | 0, _, _, _ => Nat.zero_le _
  | k + 1, i, ⟨j, hd, h⟩, hi => by
    have hj : ¬BehindCycle dominates j := fun hj => hi (hj.of_dominates hd)
    have hless : {l | Relation.TransGen dominates l j} ⊂ {l | Relation.TransGen dominates l i} := by
      refine Set.ssubset_iff_of_subset (fun l hl => hl.tail hd) |>.2 ⟨j, .single hd, ?_⟩
      exact fun hcycle => hj ⟨j, hcycle, .refl⟩
    exact Nat.succ_le_of_lt ((h.le_ncard hj).trans_lt (Set.ncard_lt_ncard hless))

/-- **Among finitely many items those have a depth that are not behind a cycle.** -/
theorem exists_hasDepth_iff [Finite ι] :
    (∃ k, HasDepth dominates k i) ↔ ¬BehindCycle dominates i := by
  classical
  constructor
  · rintro ⟨k, hk⟩ h
    exact hk.2 h.chain
  · intro h
    have hbound : ∃ l, ¬Chain dominates l i :=
      ⟨_, fun hchain => absurd (hchain.le_ncard h) (Nat.not_succ_le_self _)⟩
    obtain ⟨k, hk⟩ : ∃ k, Nat.find hbound = k + 1 :=
      Nat.exists_eq_succ_of_ne_zero fun h0 => Nat.find_spec hbound (h0 ▸ trivial)
    exact ⟨k, not_not.1 (Nat.find_min hbound (hk ▸ Nat.lt_succ_self k)),
      hk ▸ Nat.find_spec hbound⟩

theorem exists_hasDepth [Finite ι] (dominates : ι → ι → Prop) (hirrefl : ∀ i, ¬dominates i i)
    (htrans : ∀ i j k, dominates i j → dominates j k → dominates i k) (i : ι) :
    ∃ k, HasDepth dominates k i := by
  have : IsTrans ι dominates := ⟨htrans⟩
  refine exists_hasDepth_iff.2 ?_
  rintro ⟨c, hcycle, -⟩
  rw [Relation.transGen_eq_self] at hcycle
  exact hirrefl c hcycle

end ParetoSearch.Ranking
