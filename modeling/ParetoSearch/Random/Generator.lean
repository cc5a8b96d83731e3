import ParetoSearch.Failure

/-!
# Draws

A generator gives words of 32 and of 64 bits; everything random is made of them. A number in
`[0, 1)` is the upper 52 bits of a word as a fraction, and a number in a range is that fraction of
the range's width above its lower end. An index below `n` is the upper half of the product of a word
and `n`; a second word settles the cases in which the lower half could have carried.
-/

namespace ParetoSearch

open Binary64

/-- A source of random words. -/
class Generator (ρ : Type) where
  /-- The next word of 32 bits. -/
  next32 : StateM ρ UInt32
  /-- The next word of 64 bits. -/
  next64 : StateM ρ UInt64

export Generator (next32 next64)

/-- A generator that a number starts. -/
class Seedable (ρ : Type) extends Generator ρ where
  /-- The generator that the number starts. -/
  ofSeed : UInt64 → ρ

/-- The generator for a configured seed; `entropy` starts it where none is configured. -/
def Seedable.ofOption {ρ : Type} [Seedable ρ] (entropy : UInt64) (seed : Option UInt64) : ρ :=
  ofSeed (seed.getD entropy)

namespace Draw

variable {ρ : Type} [Generator ρ]

/-! ### Numbers -/

/-- The upper 52 bits of a word, as a number in `[0, 1)`. -/
def fraction (word : UInt64) : Float :=
  Float.ofBits ((word >>> 12) ||| 0x3ff0000000000000) - 1.0

/-- A number in `[0, 1)`. -/
def unit : StateM ρ Float := return fraction (← next64)

/-- A number between two ends whose difference is finite. -/
def between (low high : Float) : EStateM Fault ρ Float := do
  let width := high - low
  if width.isFinite then
    let word ← (next64 : StateM ρ UInt64)
    return fraction word * width + low
  else throw .infiniteRange

/-- A number from `low` up to but without `high`. -/
def halfOpen (low high : Float) : EStateM Fault ρ Float :=
  if low < high then between low high else throw .emptyRange

/-- A number from `low` up to `high`. -/
def closed (low high : Float) : EStateM Fault ρ Float :=
  if low ≤ high then between low high else throw .emptyRange

/-! ### Truth values -/

/-- True or false with equal chances. -/
def coin : StateM ρ Bool := return (← next64) < 0x8000000000000000

/-- True with the given probability; certainty takes no word. -/
def chance (p : Float) : EStateM Fault ρ Bool :=
  if p == 1.0 then return true
  else if 0.0 ≤ p && p < 1.0 then do
    let word ← (next64 : StateM ρ UInt64)
    return word.toNat < floorCount (p * 18446744073709551616.0)
  else throw .probabilityOutside

/-! ### Indices -/

/-- The upper half of the product of a word and `n`. -/
def upper (word : UInt32) (n : Nat) : Nat := word.toNat * n / 0x100000000

/-- The lower half of the product of a word and `n`. -/
def lower (word : UInt32) (n : Nat) : Nat := word.toNat * n % 0x100000000

theorem upper_lt {word : UInt32} {n : Nat} (h : 0 < n) : upper word n < n := by
  have hw : word.toNat ≤ 0xffffffff := by have := word.toNat_lt; omega
  have := Nat.mul_le_mul_right n hw
  unfold upper
  omega

/-- Where a carry is possible there is room for it. -/
theorem upper_succ_lt {word : UInt32} {n : Nat} (h : 0x100000000 - n < lower word n) :
    upper word n + 1 < n := by
  have hw : word.toNat ≤ 0xffffffff := by have := word.toNat_lt; omega
  have := Nat.mul_le_mul_right n hw
  unfold lower at h
  unfold upper
  omega

/-- An index below `n`, for `n` up to `2 ^ 32`. -/
def below (n : Nat) (h : 0 < n) : StateM ρ (Fin n) := do
  let first ← next32
  if carry : 0x100000000 - n < lower first n then
    let second ← next32
    if 0x100000000 ≤ lower first n + upper second n then
      return ⟨upper first n + 1, upper_succ_lt carry⟩
    else return ⟨upper first n, upper_lt h⟩
  else return ⟨upper first n, upper_lt h⟩

/-- An index below `n`, where there is one. -/
def index (n : Nat) : EStateM Fault ρ Nat :=
  if h : 0 < n then do
    let i ← (below n h : StateM ρ (Fin n))
    return i
  else throw .emptyRange

end Draw

end ParetoSearch
