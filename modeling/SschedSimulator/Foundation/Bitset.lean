import Mathlib.Data.BitVec

namespace SschedSimulator.Foundation

/-!
# Fixed-width bit sets

`Bitset N` is a set of positions below `N`, kept in a bit vector.  `test` reads a position,
`set` and `reset` write one; the lemmas state each operation through `test`, so that no proof
looks at the vector itself.
-/

/-- A set of bit positions below `N`. -/
abbrev Bitset (N : ℕ) := BitVec N

namespace Bitset

variable {N : ℕ}

/-- Whether the bit at `pos` is set; positions from `N` on never are. -/
def test (b : Bitset N) (pos : ℕ) : Bool := b.getLsbD pos

/-- Set the bit at `pos`. -/
def set (b : Bitset N) (pos : ℕ) : Bitset N := b ||| BitVec.twoPow N pos

/-- Clear the bit at `pos`. -/
def reset (b : Bitset N) (pos : ℕ) : Bitset N := b &&& ~~~ BitVec.twoPow N pos

/-- No bit is set at first. -/
@[simp] theorem test_zero (pos : ℕ) : test (0#N) pos = false := by
  simp [test]

/-- The bits of a union. -/
@[simp] theorem test_or (b c : Bitset N) (pos : ℕ) :
    test (b ||| c) pos = (test b pos || test c pos) := by
  simp [test]

/-- The bits of an intersection. -/
@[simp] theorem test_and (b c : Bitset N) (pos : ℕ) :
    test (b &&& c) pos = (test b pos && test c pos) := by
  simp [test]

/-- Every position of the set has its bit. -/
@[simp] theorem test_allOnes (pos : ℕ) : test (BitVec.allOnes N) pos = decide (pos < N) := by
  simp [test]

/-- Nothing past the width is a member. -/
theorem test_of_le (b : Bitset N) {pos : ℕ} (h : N ≤ pos) : test b pos = false :=
  BitVec.getLsbD_of_ge b pos h

/-- `set` adds one position and leaves the others. -/
theorem test_set (b : Bitset N) {pos : ℕ} (h : pos < N) (q : ℕ) :
    test (set b pos) q = (decide (q = pos) || test b q) := by
  by_cases hq : q = pos
  · subst hq
    simp [test, set, h]
  · have hq' : pos ≠ q := fun he => hq he.symm
    simp [test, set, hq, hq']

/-- `reset` takes one position out and leaves the others. -/
theorem test_reset (b : Bitset N) (pos q : ℕ) :
    test (reset b pos) q = (test b q && !decide (q = pos)) := by
  by_cases hN : q < N
  · by_cases hq : q = pos
    · subst hq
      simp [test, reset, hN]
    · simp [test, reset, hN, hq]
  · rw [test_of_le _ (not_lt.mp hN), test_of_le _ (not_lt.mp hN), Bool.false_and]

end Bitset

end SschedSimulator.Foundation
