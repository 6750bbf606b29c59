import SschedSimulator.Foundation.Table
import SschedSimulator.Scheduler.Proposals

namespace SschedSimulator

open Foundation

/-!
# Sampling an output in the tree of an input

QPS and the SB-QPS schedulers keep the VOQ lengths of each input in the leaves of a sum tree.

* `Mirrors b len` — the tree `b` holds the lengths `len`, and `Mirrors.update_eq_ok` — it still
  does after an update of a leaf;
* `sampleOutput` — the output that contains a drawn offset, and `Mirrors.drawnSample_eq_some` —
  a draw from a tree that holds a packet names a VOQ with a packet.

The choices of a round are a shuffle and, for each input, a function from its tree to the sampled
output, of which `drawnSample` is the one that a draw of the random engine amounts to.
-/

variable {m n : ℕ}

/-- `_left_start`, `bstLeftStart`: the first leaf of the sampling trees. -/
def leftStart (m : ℕ) : ℕ := BST.nearestPowerOfTwo m

theorem lt_leftStart (o : Fin m) : (o : ℕ) < leftStart m :=
  lt_of_lt_of_le o.isLt (BST.le_nearestPowerOfTwo m)

theorem one_le_leftStart (m : ℕ) : 1 ≤ leftStart m := BST.one_le_nearestPowerOfTwo m

/-- A sum tree whose leaves are the given lengths; the leaves beyond the last output are zero. -/
structure Mirrors (b : Bst) (len : Fin m → ℤ) : Prop where
  tree : IsSumTree (leftStart m) b
  leaf : ∀ o : Fin m, b (o + leftStart m) = len o
  padding : ∀ d, m ≤ d → d < leftStart m → b (d + leftStart m) = 0

theorem mirrors_zero : Mirrors (fun _ => 0) (fun _ : Fin m => 0) where
  tree := isSumTree_zero _
  leaf := fun _ => rfl
  padding := fun _ _ _ => rfl

namespace Mirrors

variable {b : Bst} {len : Fin m → ℤ}

theorem nonneg (h : Mirrors b len) (o : Fin m) : 0 ≤ len o := by
  have ho := lt_leftStart o
  rw [← h.leaf]
  exact h.tree.nonneg _ (by omega) (by omega)

/-- The root is zero exactly when all lengths are. -/
theorem root_eq_zero_iff (h : Mirrors b len) : b 1 = 0 ↔ ∀ o, len o = 0 := by
  rw [h.tree.root_eq_zero_iff (one_le_leftStart m)]
  constructor
  · intro hall o
    rw [← h.leaf, add_comm]
    exact hall o (lt_leftStart o)
  · intro hall d hd
    rw [add_comm]
    by_cases hm : d < m
    · rw [h.leaf ⟨d, hm⟩, hall]
    · exact h.padding d (not_lt.mp hm) hd

/-- An update that leaves the length non-negative succeeds and changes this length only. -/
theorem update_eq_ok (h : Mirrors b len) (o : Fin m) {delta : ℤ} (hd : 0 ≤ len o + delta) :
    ∃ b', BST.update b (o + leftStart m) delta = .ok b' ∧
      Mirrors b' (Function.update len o (len o + delta)) := by
  have ho := lt_leftStart o
  obtain ⟨b', hrun, htree, hleaves⟩ := BST.update_eq_ok h.tree
    (by omega : 1 ≤ (o : ℕ) + leftStart m) (by omega) (by omega) (by rw [h.leaf]; exact hd)
  refine ⟨b', hrun, htree, fun o' => ?_, fun d hm hd' => ?_⟩
  · rw [hleaves _ (by omega)]
    by_cases hoo : o' = o
    · subst hoo
      rw [if_pos rfl, Function.update_self, h.leaf]
    · have hne : ¬ (o' : ℕ) + leftStart m = o + leftStart m := by
        intro he
        exact hoo (Fin.ext (by omega))
      rw [if_neg hne, Function.update_of_ne hoo, h.leaf]
  · -- A padding leaf is no output's leaf.
    rw [hleaves _ (by omega), if_neg (by omega)]
    exact h.padding d hm hd'

/-- An update of an empty VOQ downwards stops at the leaf. -/
theorem update_eq_error (h : Mirrors b len) (o : Fin m) {delta : ℤ} (hd : len o + delta < 0) :
    BST.update b (o + leftStart m) delta = .error .negativeNode :=
  BST.update_eq_error (by have := one_le_leftStart m; omega) (by rw [h.leaf]; exact hd)

/-- The lengths determine the tree. -/
theorem ext {b' : Bst} (h : Mirrors b len) (h' : Mirrors b' len) : b = b' := by
  apply h.tree.ext h'.tree
  intro d hd
  rw [add_comm]
  by_cases hm : d < m
  · rw [h.leaf ⟨d, hm⟩, h'.leaf ⟨d, hm⟩]
  · rw [h.padding d (not_lt.mp hm) hd, h'.padding d (not_lt.mp hm) hd]

end Mirrors

/-! ### The trees of all inputs -/

/-- Update the leaf of `(i, o)`. -/
def updateLeaf (bst : Fin n → Bst) (i : Fin n) (o : Fin m) (delta : ℤ) :
    Except Fault (Fin n → Bst) := do
  let b ← BST.update (bst i) (o + leftStart m) delta
  .ok (Function.update bst i b)

/-- An update that leaves the length non-negative succeeds and changes this length only. -/
theorem updateLeaf_eq_ok {bst : Fin n → Bst} {len : Fin n → Fin m → ℤ}
    (h : ∀ i, Mirrors (bst i) (len i)) (i : Fin n) (o : Fin m) {delta : ℤ}
    (hd : 0 ≤ len i o + delta) :
    ∃ bst', updateLeaf bst i o delta = .ok bst' ∧
      ∀ i', Mirrors (bst' i') (update₂ len i o (len i o + delta) i') := by
  obtain ⟨b, hrun, hb⟩ := (h i).update_eq_ok o hd
  refine ⟨Function.update bst i b, by rw [updateLeaf, hrun, ok_bind], fun i' => ?_⟩
  by_cases hi : i' = i
  · subst hi
    simpa [update₂] using hb
  · rw [Function.update_of_ne hi, update₂_row_of_ne _ hi]
    exact h i'

/-! ### Drawing an output -/

/-- The random choices of a round: the shuffled inputs and the output each samples in its
    tree. -/
structure TreeDraws (n m : ℕ) where
  shuffle : Shuffle n
  sample : Fin n → Bst → Option (Fin m)

/-- `sampling`, `sampleOutputForInput`: the output of the leaf that contains the offset `r`; none
    if the range assertion fails. -/
def sampleOutput (m : ℕ) (b : Bst) (r : ℚ) : Option (Fin m) :=
  match BST.upperBound (leftStart m) b r with
  | none => none
  | some leaf =>
    if h : leftStart m ≤ leaf ∧ leaf - leftStart m < m then some ⟨leaf - leftStart m, h.2⟩
    else none

/-- The sample that a draw `u` from `[0, 1)` amounts to: the offset is uniform below the total. -/
def drawnSample (u : ℚ) (b : Bst) : Option (Fin m) := sampleOutput m b (u * b 1)

/-- What each input samples in its own tree. -/
def TreeDraws.outputs (draws : TreeDraws n m) (bst : Fin n → Bst) (i : Fin n) : Option (Fin m) :=
  draws.sample i (bst i)

/-- The inputs with a packet in `len` sample outputs for which they have one. -/
def TreeDraws.Good (draws : TreeDraws n m) (bst : Fin n → Bst) (len : Fin n → Fin m → ℤ) : Prop :=
  GoodSample (fun i => bst i 1) len (draws.outputs bst)

instance (draws : TreeDraws n m) (bst : Fin n → Bst) (len : Fin n → Fin m → ℤ) :
    Decidable (draws.Good bst len) :=
  inferInstanceAs (Decidable (∀ i, _ → ∃ o, draws.outputs bst i = some o ∧ 0 < len i o))

/-- The input with the longest VOQ of those that propose to `o`; of several, the one that comes
    first in the shuffled order. -/
def TreeDraws.longestProposer (draws : TreeDraws n m) (bst : Fin n → Bst)
    (len : Fin n → Fin m → ℤ) (o : Fin m) : Option (Fin n) :=
  (proposers (fun i => bst i 1) (draws.outputs bst) draws.shuffle.val o).foldl
    (challenge (fun i j => decide (len i o > len j o))) none

/-- Every input with a packet samples an output for which it has one. -/
def TreeDraws.Valid (draws : TreeDraws n m) : Prop :=
  ∀ i (b : Bst) (len : Fin m → ℤ), Mirrors b len → b 1 ≠ 0 →
    ∃ o, draws.sample i b = some o ∧ 0 < len o

/-- A draw from a tree that holds a packet names a VOQ with a packet. -/
theorem Mirrors.drawnSample_eq_some {b : Bst} {len : Fin m → ℤ} (h : Mirrors b len) {u : ℚ}
    (h0 : 0 ≤ u) (h1 : u < 1) (hroot : b 1 ≠ 0) :
    ∃ o : Fin m, drawnSample u b = some o ∧ 0 < len o := by
  have hpos : (0 : ℚ) < b 1 := by
    have hge := h.tree.nonneg 1 (le_refl 1) (by have := one_le_leftStart m; omega)
    exact_mod_cast lt_of_le_of_ne hge (Ne.symm hroot)
  obtain ⟨leaf, hbound, hl, hr, hleaf⟩ := BST.upperBound_eq_some h.tree (one_le_leftStart m)
    (mul_nonneg h0 hpos.le) (mul_lt_of_lt_one_left hpos h1)
  -- A leaf of positive weight is the leaf of an output.
  have hm : leaf - leftStart m < m := by
    by_contra hge
    have hzero := h.padding (leaf - leftStart m) (not_lt.mp hge) (by omega)
    rw [Nat.sub_add_cancel hl] at hzero
    omega
  refine ⟨⟨leaf - leftStart m, hm⟩, ?_, ?_⟩
  · simp only [drawnSample, sampleOutput, hbound]
    exact dif_pos ⟨hl, hm⟩
  · rw [← h.leaf]
    show 0 < b (leaf - leftStart m + leftStart m)
    rwa [Nat.sub_add_cancel hl]

theorem TreeDraws.Valid.good {draws : TreeDraws n m} (h : draws.Valid) {bst : Fin n → Bst}
    {len : Fin n → Fin m → ℤ} (hb : ∀ i, Mirrors (bst i) (len i)) : draws.Good bst len :=
  fun i hi => h i _ _ (hb i) hi

/-- The longest proposer has a packet in its tree and sampled the output. -/
theorem TreeDraws.longestProposer_eq_some {draws : TreeDraws n m} {bst : Fin n → Bst}
    {len : Fin n → Fin m → ℤ} {o : Fin m} {i : Fin n}
    (h : draws.longestProposer bst len o = some i) :
    bst i 1 ≠ 0 ∧ draws.outputs bst i = some o := by
  rcases mem_of_foldl_challenge _ h with hmem | hnone
  · exact (mem_proposers.mp hmem).2
  · cases hnone

/-- The draws of the random engine are valid samples. -/
theorem valid_drawnSample (shuffle : Shuffle n) {u : Fin n → ℚ} (h0 : ∀ i, 0 ≤ u i)
    (h1 : ∀ i, u i < 1) : (⟨shuffle, fun i => drawnSample (u i)⟩ : TreeDraws n m).Valid :=
  fun i _ _ hb hroot => hb.drawnSample_eq_some (h0 i) (h1 i) hroot

/-- The inputs in order, each with its offset at the fraction `u` of the total. -/
def inOrderDraws (n m : ℕ) (u : ℚ) : TreeDraws n m :=
  ⟨Shuffle.inOrder n, fun _ => drawnSample u⟩

theorem valid_inOrderDraws (n m : ℕ) {u : ℚ} (h0 : 0 ≤ u) (h1 : u < 1) :
    (inOrderDraws n m u).Valid :=
  valid_drawnSample _ (fun _ => h0) (fun _ => h1)

end SschedSimulator
