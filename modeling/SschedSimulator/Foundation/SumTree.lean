import Mathlib.Algebra.BigOperators.Group.Finset.Basic
import Mathlib.Algebra.Order.Ring.Rat
import Mathlib.Data.Rat.Cast.Order
import Mathlib.Tactic.Linarith
import Mathlib.Tactic.Positivity
import Mathlib.Tactic.Ring

namespace SschedSimulator.Foundation

/-!
# Sum trees in heap order

A complete binary tree over `L` leaves kept in an array: node `1` is the root, the children of
`j` are `2 * j` and `2 * j + 1`, and the leaves are the nodes from `L` to `2 * L - 1`.  In a
sum tree every inner node is the sum of its two children.

* `IsSumTree.ext` — a sum tree is determined by its leaves;
* `Deficit L t i δ` — the state in the middle of an update that climbs from a leaf: every
  equation holds except the one at `i`, which still lacks `δ`.  `Deficit.climb` moves the
  missing amount one level up and `Deficit.finish` closes the update at the root;
* `descend` — the search for the leaf that contains a given offset, and
  `descend_spec` — it ends in a leaf of positive weight;
* `cumulative` — the weight of the first leaves, and `descend_eq_iff` — in a tree whose number of
  leaves is a power of two, the offsets that lead to a leaf are those of its range.
-/

/-- Every inner node is the sum of its children, no node is negative and the positions that are
    not nodes hold zero. -/
structure IsSumTree (L : ℕ) (t : ℕ → ℤ) : Prop where
  sum : ∀ j, 1 ≤ j → j < L → t j = t (2 * j) + t (2 * j + 1)
  nonneg : ∀ j, 1 ≤ j → j < 2 * L → 0 ≤ t j
  outside : ∀ j, j = 0 ∨ 2 * L ≤ j → t j = 0

theorem isSumTree_zero (L : ℕ) : IsSumTree L (fun _ => 0) :=
  ⟨fun _ _ _ => rfl, fun _ _ _ => le_refl 0, fun _ _ => rfl⟩

section

variable {L : ℕ} {t : ℕ → ℤ}

/-- No node exceeds the root. -/
theorem IsSumTree.le_root (h : IsSumTree L t) (i : ℕ) (h1 : 1 ≤ i) (hi : i < 2 * L) :
    t i ≤ t 1 := by
  -- A node is at most its parent `i / 2`, since its sibling is not negative.
  induction i using Nat.strong_induction_on with
  | _ i ih =>
    rcases Nat.lt_or_ge 1 i with hlt | hge
    · have hsum := h.sum (i / 2) (by omega) (by omega)
      have hup := ih (i / 2) (by omega) (by omega) (by omega)
      have hl := h.nonneg (2 * (i / 2)) (by omega) (by omega)
      have hr := h.nonneg (2 * (i / 2) + 1) (by omega) (by omega)
      rcases (by omega : i = 2 * (i / 2) ∨ i = 2 * (i / 2) + 1) with he | he <;>
        (rw [he]; omega)
    · have : i = 1 := by omega
      rw [this]

/-- Two sum trees with the same leaves are equal. -/
theorem IsSumTree.ext {t' : ℕ → ℤ} (h : IsSumTree L t) (h' : IsSumTree L t')
    (hleaf : ∀ d, d < L → t (L + d) = t' (L + d)) : t = t' := by
  -- Induction from the leaves down to the root.
  have hall : ∀ k i, 2 * L ≤ i + k → 1 ≤ i → i < 2 * L → t i = t' i := by
    intro k
    induction k with
    | zero => intro i hk _ hi; omega
    | succ k ih =>
      intro i hk h1 hi
      rcases Nat.lt_or_ge i L with hlt | hge
      · rw [h.sum i h1 hlt, h'.sum i h1 hlt, ih (2 * i) (by omega) (by omega) (by omega),
          ih (2 * i + 1) (by omega) (by omega) (by omega)]
      · have hl := hleaf (i - L) (by omega)
        rwa [Nat.add_sub_cancel' hge] at hl
  ext i
  by_cases hi : i = 0 ∨ 2 * L ≤ i
  · rw [h.outside i hi, h'.outside i hi]
  · exact hall (2 * L) i (by omega) (by omega) (by omega)

/-- The root is zero exactly when every leaf is. -/
theorem IsSumTree.root_eq_zero_iff (h : IsSumTree L t) (hL : 1 ≤ L) :
    t 1 = 0 ↔ ∀ d, d < L → t (L + d) = 0 := by
  constructor
  · intro hroot d hd
    have hle := h.le_root (L + d) (by omega) (by omega)
    have hge := h.nonneg (L + d) (by omega) (by omega)
    omega
  · intro hleaf
    rw [h.ext (isSumTree_zero L) hleaf]

/-- The root is the sum of the leaves. -/
theorem IsSumTree.root_eq_sum (h : IsSumTree L t) (hL : 1 ≤ L) :
    t 1 = ∑ d ∈ Finset.range L, t (L + d) := by
  -- The nodes from `i` to `2 * i - 1` have the same sum for every `i` up to `L`: passing to `i + 1`
  -- replaces node `i` by its two children.
  have hall : ∀ k, k + 1 ≤ L → ∑ d ∈ Finset.range (k + 1), t (k + 1 + d) = t 1 := by
    intro k
    induction k with
    | zero => intro _; simp
    | succ k ih =>
      intro hk
      have hnode := h.sum (k + 1) (by omega) (by omega)
      have hold := ih (by omega)
      rw [Finset.sum_range_succ', add_zero] at hold
      rw [Finset.sum_range_succ, Finset.sum_range_succ]
      have hsame : ∑ d ∈ Finset.range k, t (k + 1 + 1 + d)
          = ∑ d ∈ Finset.range k, t (k + 1 + (d + 1)) :=
        Finset.sum_congr rfl (fun d _ => by rw [show k + 1 + 1 + d = k + 1 + (d + 1) by omega])
      rw [hsame, show k + 1 + 1 + k = 2 * (k + 1) by omega,
        show k + 1 + 1 + (k + 1) = 2 * (k + 1) + 1 by omega]
      omega
  obtain ⟨k, rfl⟩ := Nat.exists_eq_add_of_le' hL
  exact (hall k (le_refl _)).symm

/-! ### Climbing updates -/

/-- Every equation holds except the one at `i`, which is short of `δ`. -/
structure Deficit (L : ℕ) (t : ℕ → ℤ) (i : ℕ) (δ : ℤ) : Prop where
  sum : ∀ j, 1 ≤ j → j < L → j ≠ i → t j = t (2 * j) + t (2 * j + 1)
  short : i < L → t i + δ = t (2 * i) + t (2 * i + 1)
  nonneg : ∀ j, 1 ≤ j → j < 2 * L → 0 ≤ t j
  outside : ∀ j, j = 0 ∨ 2 * L ≤ j → t j = 0
  grown : 0 ≤ t i + δ

/-- A sum tree lacks `δ` at a leaf that is about to receive it. -/
theorem IsSumTree.deficit (h : IsSumTree L t) {i : ℕ} {δ : ℤ} (hi : L ≤ i)
    (hδ : 0 ≤ t i + δ) : Deficit L t i δ where
  sum := fun j h1 hj _ => h.sum j h1 hj
  short := fun hlt => absurd hlt (not_lt.mpr hi)
  nonneg := h.nonneg
  outside := h.outside
  grown := hδ

theorem Deficit.nonneg_update {i : ℕ} {δ : ℤ} (h : Deficit L t i δ) (j : ℕ) (h1 : 1 ≤ j)
    (hj : j < 2 * L) : 0 ≤ Function.update t i (t i + δ) j := by
  rw [Function.update_apply]
  split
  · exact h.grown
  · exact h.nonneg j h1 hj

theorem Deficit.outside_update {i : ℕ} {δ : ℤ} (h : Deficit L t i δ) (h1 : 1 ≤ i)
    (hi : i < 2 * L) (j : ℕ) (hj : j = 0 ∨ 2 * L ≤ j) :
    Function.update t i (t i + δ) j = 0 := by
  rw [Function.update_of_ne (by omega), h.outside j hj]

/-- Adding the missing amount at `i` moves the deficit to the parent. -/
theorem Deficit.climb {i : ℕ} {δ : ℤ} (h : Deficit L t i δ) (hi : 2 ≤ i) (hi' : i < 2 * L) :
    Deficit L (Function.update t i (t i + δ)) (i / 2) δ := by
  have hparent : Function.update t i (t i + δ) (i / 2) + δ
      = Function.update t i (t i + δ) (2 * (i / 2))
        + Function.update t i (t i + δ) (2 * (i / 2) + 1) := by
    have hs := h.sum (i / 2) (by omega) (by omega) (by omega)
    simp only [Function.update_apply]
    rw [if_neg (by omega : ¬ i / 2 = i)]
    rcases (by omega : i = 2 * (i / 2) ∨ i = 2 * (i / 2) + 1) with he | he
    · rw [if_pos he.symm, if_neg (by omega), hs]
      rw [show t i = t (2 * (i / 2)) from congrArg t he]
      omega
    · rw [if_neg (by omega), if_pos he.symm, hs]
      rw [show t i = t (2 * (i / 2) + 1) from congrArg t he]
      omega
  refine ⟨fun j h1 hj hne => ?_, fun _ => hparent, h.nonneg_update,
    h.outside_update (by omega) hi', ?_⟩
  · -- `i` is a child of its parent only, so the equation at any other node reads old values;
    -- the one at `i` itself is now met.
    have hl : 2 * j ≠ i := by omega
    have hr : 2 * j + 1 ≠ i := by omega
    rw [Function.update_of_ne hl, Function.update_of_ne hr, Function.update_apply]
    split
    · rename_i hji
      subst hji
      exact h.short hj
    · rename_i hji
      exact h.sum j h1 hj hji
  · -- The parent receives the sum of its two children, neither of which is negative.
    rw [hparent]
    have := h.nonneg_update (2 * (i / 2)) (by omega) (by omega)
    have := h.nonneg_update (2 * (i / 2) + 1) (by omega) (by omega)
    omega

/-- Adding the missing amount at the root completes the update. -/
theorem Deficit.finish {δ : ℤ} (h : Deficit L t 1 δ) (hL : 1 ≤ L) :
    IsSumTree L (Function.update t 1 (t 1 + δ)) where
  sum := by
    intro j h1 hj
    rw [Function.update_of_ne (by omega : 2 * j ≠ 1),
      Function.update_of_ne (by omega : 2 * j + 1 ≠ 1), Function.update_apply]
    split
    · rename_i hj1
      subst hj1
      exact h.short hj
    · rename_i hj1
      exact h.sum j h1 hj hj1
  nonneg := h.nonneg_update
  outside := h.outside_update (le_refl 1) (by omega)

/-! ### Searching for an offset -/

/-- Descend from `cur` to the leaf whose range contains `bound`; the fuel bounds the number of
    levels. -/
def descend (L : ℕ) (t : ℕ → ℤ) : ℕ → ℕ → ℚ → ℕ
  | 0, cur, _ => cur
  | fuel + 1, cur, bound =>
    if 2 * L ≤ 2 * cur then cur
    else if bound < t (2 * cur) then descend L t fuel (2 * cur) bound
    else descend L t fuel (2 * cur + 1) (bound - t (2 * cur))

/-- An offset below the weight of the start node leads to a leaf of positive weight. -/
theorem descend_spec (h : IsSumTree L t) (fuel cur : ℕ) (bound : ℚ) (h1 : 1 ≤ cur)
    (hcur : cur < 2 * L) (hfuel : L ≤ cur + fuel) (h0 : 0 ≤ bound) (hlt : bound < t cur) :
    L ≤ descend L t fuel cur bound ∧ descend L t fuel cur bound < 2 * L ∧
      0 < t (descend L t fuel cur bound) := by
  have hpos : ∀ {b : ℚ} {c : ℕ}, 0 ≤ b → b < t c → 0 < t c := fun hb hc => by
    exact_mod_cast lt_of_le_of_lt hb hc
  -- Along the descent `0 ≤ bound < t cur`: a right turn takes the left subtree's weight off both.
  induction fuel generalizing cur bound with
  | zero => exact ⟨by simpa [descend] using hfuel, hcur, hpos h0 hlt⟩
  | succ fuel ih =>
    unfold descend
    split
    · exact ⟨by omega, hcur, hpos h0 hlt⟩
    · rename_i hleaf
      have hsum : (t cur : ℚ) = t (2 * cur) + t (2 * cur + 1) := by
        exact_mod_cast h.sum cur h1 (by omega)
      split
      · rename_i hleft
        exact ih (2 * cur) bound (by omega) (by omega) (by omega) h0 hleft
      · rename_i hright
        exact ih (2 * cur + 1) (bound - t (2 * cur)) (by omega) (by omega) (by omega)
          (by linarith) (by linarith)

/-- A descent reads no position that is not a node. -/
theorem descend_congr {t' : ℕ → ℤ} (h : ∀ j, 1 ≤ j → j < 2 * L → t j = t' j) (fuel cur : ℕ)
    (bound : ℚ) (h1 : 1 ≤ cur) : descend L t fuel cur bound = descend L t' fuel cur bound := by
  induction fuel generalizing cur bound with
  | zero => rfl
  | succ fuel ih =>
    unfold descend
    split
    · rfl
    · rename_i hinner
      rw [h (2 * cur) (by omega) (by omega), ih _ _ (by omega), ih _ _ (by omega)]

/-! ### The ranges of the leaves -/

/-- The weight of the first `d` leaves. -/
def cumulative (L : ℕ) (t : ℕ → ℤ) (d : ℕ) : ℤ := ∑ k ∈ Finset.range d, t (L + k)

theorem cumulative_succ (L : ℕ) (t : ℕ → ℤ) (d : ℕ) :
    cumulative L t (d + 1) = cumulative L t d + t (L + d) := Finset.sum_range_succ ..

theorem IsSumTree.cumulative_mono (h : IsSumTree L t) {d e : ℕ} (hde : d ≤ e) (he : e ≤ L) :
    cumulative L t d ≤ cumulative L t e := by
  refine Finset.sum_le_sum_of_subset_of_nonneg (Finset.range_subset_range.mpr hde)
    (fun k hk _ => ?_)
  rw [Finset.mem_range] at hk
  exact h.nonneg (L + k) (by omega) (by omega)

/-- The range of one leaf at most contains an offset. -/
theorem IsSumTree.range_unique (h : IsSumTree L t) {b : ℚ} {d e : ℕ} (hd : d < L) (he : e < L)
    (hdb : (cumulative L t d : ℚ) ≤ b) (hbd : b < cumulative L t (d + 1))
    (heb : (cumulative L t e : ℚ) ≤ b) (hbe : b < cumulative L t (e + 1)) : d = e := by
  have hnot : ∀ {d e : ℕ}, e < L → (cumulative L t e : ℚ) ≤ b → b < cumulative L t (d + 1) →
      ¬ d < e := by
    intro d e he heb hbd hlt
    have hmono : (cumulative L t (d + 1) : ℚ) ≤ cumulative L t e := by
      exact_mod_cast h.cumulative_mono (by omega) he.le
    linarith
  have hde := hnot he heb hbd
  have hed := hnot hd hdb hbe
  omega

/-- The leaves below node `cur`, which stands `height` levels above them, are those from
    `cur * 2 ^ height` to the one before `(cur + 1) * 2 ^ height`. -/
structure Spans (L height cur : ℕ) : Prop where
  first : L ≤ cur * 2 ^ height
  last : (cur + 1) * 2 ^ height ≤ 2 * L

theorem spans_root (k : ℕ) : Spans (2 ^ k) k 1 := ⟨by omega, by omega⟩

/-- A node above the leaves, and its two children. -/
theorem Spans.children (hL : 1 ≤ L) {height cur : ℕ} (h : Spans L (height + 1) cur) :
    (1 ≤ cur ∧ cur < L) ∧
      (Spans L height (2 * cur) ∧ 2 * cur * 2 ^ height = cur * 2 ^ (height + 1)) ∧
      Spans L height (2 * cur + 1) ∧
        (2 * cur + 1 + 1) * 2 ^ height = (cur + 1) * 2 ^ (height + 1) := by
  obtain ⟨hfirst, hlast⟩ := h
  have hw : 1 ≤ 2 ^ height := Nat.one_le_two_pow
  have hleft : 2 * cur * 2 ^ height = cur * 2 ^ (height + 1) := by ring
  have hmid : (2 * cur + 1) * 2 ^ height = cur * 2 ^ (height + 1) + 2 ^ height := by ring
  have hright : (2 * cur + 1 + 1) * 2 ^ height = (cur + 1) * 2 ^ (height + 1) := by ring
  have hnext : (cur + 1) * 2 ^ (height + 1) = cur * 2 ^ (height + 1) + 2 * 2 ^ height := by ring
  have hwide : (cur + 1) * 2 ^ (height + 1) = 2 * ((cur + 1) * 2 ^ height) := by ring
  have hcur : cur + 1 ≤ (cur + 1) * 2 ^ height := Nat.le_mul_of_pos_right _ hw
  have hpos : 1 ≤ cur := by
    by_contra hzero
    rw [show cur = 0 by omega, zero_mul] at hfirst
    omega
  exact ⟨⟨hpos, by omega⟩, ⟨⟨by omega, by omega⟩, hleft⟩, ⟨by omega, by omega⟩, hright⟩

/-- A node weighs as much as the leaves below it. -/
theorem IsSumTree.cumulative_node (h : IsSumTree L t) (hL : 1 ≤ L) {height cur : ℕ}
    (hcur : Spans L height cur) : cumulative L t ((cur + 1) * 2 ^ height - L)
      = cumulative L t (cur * 2 ^ height - L) + t cur := by
  induction height generalizing cur with
  | zero =>
    obtain ⟨hfirst, -⟩ := hcur
    rw [pow_zero, mul_one] at hfirst ⊢
    rw [mul_one, show cur + 1 - L = cur - L + 1 by omega, cumulative_succ,
      show L + (cur - L) = cur by omega]
  | succ height ih =>
    obtain ⟨⟨h1, hlt⟩, ⟨hspan, hstart⟩, hspan', hend⟩ := hcur.children hL
    rw [← hend, ih hspan', ih hspan, hstart, h.sum cur h1 hlt]
    exact add_assoc ..

/-- Counted from the first leaf, the offset of a descent is in the range of the leaf where it
    ends. -/
theorem descend_range (h : IsSumTree L t) (hL : 1 ≤ L) (fuel : ℕ) {height cur : ℕ} (bound : ℚ)
    (hfuel : height ≤ fuel) (hcur : Spans L height cur) (h0 : 0 ≤ bound) (hlt : bound < t cur) :
    (cumulative L t (descend L t fuel cur bound - L) : ℚ)
        ≤ cumulative L t (cur * 2 ^ height - L) + bound ∧
      (cumulative L t (cur * 2 ^ height - L) : ℚ) + bound
        < cumulative L t (descend L t fuel cur bound - L + 1) := by
  -- A right turn moves the weight of the left child from the offset to where the node starts.
  induction height generalizing fuel cur bound with
  | zero =>
    have hfirst := hcur.first
    rw [pow_zero, mul_one] at hfirst ⊢
    have hself : descend L t fuel cur bound = cur := by
      cases fuel with
      | zero => rfl
      | succ fuel => exact if_pos (by omega)
    rw [hself, cumulative_succ, show L + (cur - L) = cur by omega]
    push_cast
    exact ⟨by linarith, by linarith⟩
  | succ height ih =>
    obtain ⟨fuel, rfl⟩ : ∃ f, fuel = f + 1 := Nat.exists_eq_succ_of_ne_zero (by omega)
    obtain ⟨⟨h1, hinner⟩, ⟨hspan, hstart⟩, hspan', -⟩ := hcur.children hL
    have hsum : (t cur : ℚ) = t (2 * cur) + t (2 * cur + 1) := by
      exact_mod_cast h.sum cur h1 hinner
    unfold descend
    rw [if_neg (by omega), ← hstart]
    split
    · rename_i hturn
      exact ih fuel bound (by omega) hspan h0 hturn
    · rename_i hturn
      have hrec := ih fuel (bound - t (2 * cur)) (by omega) hspan' (by linarith) (by linarith)
      rw [h.cumulative_node hL hspan] at hrec
      push_cast at hrec
      exact ⟨by linarith, by linarith⟩

/-- A descent from the root ends at the leaf whose range contains the offset. -/
theorem descend_eq_iff {k : ℕ} (h : IsSumTree (2 ^ k) t) {bound : ℚ} (h0 : 0 ≤ bound)
    (hlt : bound < t 1) {d : ℕ} (hd : d < 2 ^ k) :
    descend (2 ^ k) t (2 * 2 ^ k) 1 bound = 2 ^ k + d ↔
      (cumulative (2 ^ k) t d : ℚ) ≤ bound ∧ bound < cumulative (2 ^ k) t (d + 1) := by
  have hL : 1 ≤ 2 ^ k := Nat.one_le_two_pow
  have hk : k ≤ 2 * 2 ^ k := Nat.lt_two_pow_self.le.trans (by omega)
  obtain ⟨hge, hlt', -⟩ := descend_spec h (2 * 2 ^ k) 1 bound (le_refl 1) (by omega) (by omega) h0
    hlt
  obtain ⟨hle, hbelow⟩ := descend_range h hL (2 * 2 ^ k) bound hk (spans_root k) h0 hlt
  have hstart : cumulative (2 ^ k) t (1 * 2 ^ k - 2 ^ k) = 0 := by
    rw [one_mul, Nat.sub_self]
    rfl
  rw [hstart, Int.cast_zero, zero_add] at hle hbelow
  constructor
  · intro hleaf
    rw [hleaf, Nat.add_sub_cancel_left] at hle hbelow
    exact ⟨hle, hbelow⟩
  · rintro ⟨hle', hbelow'⟩
    have hsame := h.range_unique (by omega) hd hle hbelow hle' hbelow'
    omega

end

end SschedSimulator.Foundation
