import Mathlib.Data.Int.Order.Basic
import Mathlib.Order.Lattice
import Mathlib.Tactic.Linarith
import Mathlib.Tactic.Ring

namespace SschedSimulator.Foundation

/-!
# Maximum trees in heap order

A complete binary tree over `L` leaves kept in an array, in the layout of the sum trees.  In a
maximum tree every inner node is the larger of its two children.

* `Under i j` — node `j` is in the subtree of node `i`;
* `build`, `build_spec` — a pass over the subtrees makes an array a maximum tree;
* `StaleAt L t i` — the state in the middle of an update that climbs from a leaf: every equation
  holds except the one at `i`.  `climb_isMaxTree` closes it;
* `descendMax`, `descendMax_spec` — the way down to a leaf with the value of the root;
* `descendMax_first` — in a tree of full levels it is the first such leaf.
-/

variable {K : Type*} [LinearOrder K] {L : ℕ} {t : ℕ → K}

/-- Every inner node is the larger of its children. -/
def IsMaxTree (L : ℕ) (t : ℕ → K) : Prop :=
  ∀ j, 1 ≤ j → j < L → t j = max (t (2 * j)) (t (2 * j + 1))

/-! ### Subtrees -/

/-- Node `j` is in the subtree of node `i`. -/
def Under (i j : ℕ) : Prop := ∃ k, j / 2 ^ k = i

theorem under_self (i : ℕ) : Under i i := ⟨0, by simp⟩

theorem Under.le {i j : ℕ} (h : Under i j) : i ≤ j := by
  obtain ⟨k, rfl⟩ := h
  exact Nat.div_le_self _ _

/-- A subtree is its root and the subtrees of the two children. -/
theorem under_iff {i j : ℕ} : Under i j ↔ j = i ∨ Under (2 * i) j ∨ Under (2 * i + 1) j := by
  constructor
  · rintro ⟨k, hk⟩
    cases k with
    | zero => exact .inl (by simpa using hk)
    | succ k =>
      rw [pow_succ, ← Nat.div_div_eq_div_mul] at hk
      rcases (by omega : j / 2 ^ k = 2 * i ∨ j / 2 ^ k = 2 * i + 1) with he | he
      · exact .inr (.inl ⟨k, he⟩)
      · exact .inr (.inr ⟨k, he⟩)
  · rintro (rfl | ⟨k, hk⟩ | ⟨k, hk⟩)
    · exact under_self j
    · exact ⟨k + 1, by rw [pow_succ, ← Nat.div_div_eq_div_mul, hk]; omega⟩
    · exact ⟨k + 1, by rw [pow_succ, ← Nat.div_div_eq_div_mul, hk]; omega⟩

/-- The children of a node are in the same subtrees. -/
theorem Under.child {i j c : ℕ} (h : Under i j) (hc : c / 2 = j) : Under i c := by
  obtain ⟨k, hk⟩ := h
  exact ⟨k + 1, by rw [pow_succ', ← Nat.div_div_eq_div_mul, hc, hk]⟩

/-- Every node is in the subtree of the root. -/
theorem under_one {j : ℕ} (hj : 1 ≤ j) : Under 1 j := by
  induction j using Nat.strong_induction_on with
  | _ j ih =>
    rcases Nat.lt_or_ge 1 j with hlt | hge
    · exact (ih (j / 2) (by omega) (by omega)).child rfl
    · obtain rfl : j = 1 := by omega
      exact under_self 1

/-- No node exceeds the root of a subtree it is in. -/
theorem IsMaxTree.le_of_under (h : IsMaxTree L t) {i j : ℕ} (h1 : 1 ≤ i) (hij : Under i j)
    (hj : j < 2 * L) : t j ≤ t i := by
  obtain ⟨k, rfl⟩ := hij
  induction k with
  | zero => simp
  | succ k ih =>
    rw [pow_succ, ← Nat.div_div_eq_div_mul] at h1 ⊢
    have hle : j / 2 ^ k ≤ j := Nat.div_le_self _ _
    refine (ih (by omega)).trans ?_
    -- The node one level down is a child.
    rw [h (j / 2 ^ k / 2) h1 (by omega)]
    rcases (by omega : j / 2 ^ k = 2 * (j / 2 ^ k / 2) ∨
      j / 2 ^ k = 2 * (j / 2 ^ k / 2) + 1) with he | he
    · exact (congrArg t he).le.trans (le_max_left _ _)
    · exact (congrArg t he).le.trans (le_max_right _ _)

theorem IsMaxTree.le_root (h : IsMaxTree L t) (i : ℕ) (h1 : 1 ≤ i) (hi : i < 2 * L) :
    t i ≤ t 1 :=
  h.le_of_under (le_refl 1) (under_one h1) hi

/-- The subtrees of the children have no node in common. -/
theorem Under.disjoint {i j : ℕ} (h1 : 1 ≤ i) (hl : Under (2 * i) j) : ¬ Under (2 * i + 1) j := by
  obtain ⟨a, ha⟩ := hl
  rintro ⟨b, hb⟩
  rcases Nat.lt_trichotomy a b with hlt | heq | hgt
  · obtain ⟨c, rfl⟩ := Nat.exists_eq_add_of_lt hlt
    rw [Nat.add_assoc, pow_add, ← Nat.div_div_eq_div_mul, ha] at hb
    have := Nat.div_le_self (2 * i) (2 ^ (c + 1))
    omega
  · rw [heq] at ha
    omega
  · obtain ⟨c, rfl⟩ := Nat.exists_eq_add_of_lt hgt
    rw [Nat.add_assoc, pow_add, ← Nat.div_div_eq_div_mul, hb, pow_succ', ←
      Nat.div_div_eq_div_mul] at ha
    have := Nat.div_le_self ((2 * i + 1) / 2) (2 ^ c)
    omega

/-! ### Building a tree -/

/-- Make the subtree of node `i` a maximum tree: its maximum and the array; the fuel bounds the
    levels. -/
def build (L : ℕ) : ℕ → ℕ → (ℕ → K) → K × (ℕ → K)
  | 0, i, t => (t i, t)
  | fuel + 1, i, t =>
    if L ≤ i then (t i, t)
    else
      let left := build L fuel (2 * i) t
      let right := build L fuel (2 * i + 1) left.2
      (max left.1 right.1, Function.update right.2 i (max left.1 right.1))

/-- What building the subtree of `i` does: the leaves and all nodes outside stay, and the equations
    inside hold. -/
structure Rebuilt (L i : ℕ) (t : ℕ → K) (r : K × (ℕ → K)) : Prop where
  value : r.1 = r.2 i
  leaf : ∀ j, L ≤ j → r.2 j = t j
  outside : ∀ j, ¬ Under i j → r.2 j = t j
  inside : ∀ j, j < L → Under i j → r.2 j = max (r.2 (2 * j)) (r.2 (2 * j + 1))

theorem rebuilt_leaf {i : ℕ} (hi : L ≤ i) (t : ℕ → K) : Rebuilt L i t (t i, t) where
  value := rfl
  leaf := fun _ _ => rfl
  outside := fun _ _ => rfl
  inside := fun j hj hij => absurd (hi.trans hij.le) (by omega)

theorem build_spec (fuel i : ℕ) (h1 : 1 ≤ i) (hfuel : L ≤ i + fuel) (t : ℕ → K) :
    Rebuilt L i t (build L fuel i t) := by
  induction fuel generalizing i t with
  | zero => exact rebuilt_leaf (by omega) t
  | succ fuel ih =>
    unfold build
    split
    · exact rebuilt_leaf ‹_› t
    · have hleft := ih (2 * i) (by omega) (by omega) t
      generalize build L fuel (2 * i) t = left at hleft ⊢
      have hright := ih (2 * i + 1) (by omega) (by omega) left.2
      dsimp only
      generalize build L fuel (2 * i + 1) left.2 = right at hright ⊢
      -- The right pass leaves the left subtree alone.
      have hkept : ∀ j, Under (2 * i) j → right.2 j = left.2 j :=
        fun j hj => hright.outside j (hj.disjoint h1)
      refine ⟨?_, fun j hj => ?_, fun j hj => ?_, fun j hj hij => ?_⟩
      · show _ = Function.update right.2 i _ i
        rw [Function.update_self]
      · show Function.update right.2 i _ j = t j
        rw [Function.update_of_ne (by omega), hright.leaf j hj, hleft.leaf j hj]
      · rw [under_iff, not_or, not_or] at hj
        show Function.update right.2 i _ j = t j
        rw [Function.update_of_ne hj.1, hright.outside j hj.2.2, hleft.outside j hj.2.1]
      · show Function.update right.2 i _ j
          = max (Function.update right.2 i _ (2 * j)) (Function.update right.2 i _ (2 * j + 1))
        have hle := hij.le
        rw [Function.update_of_ne (by omega : 2 * j ≠ i),
          Function.update_of_ne (by omega : 2 * j + 1 ≠ i)]
        rcases under_iff.mp hij with rfl | hl | hr
        · rw [Function.update_self, hkept _ (under_self _), ← hleft.value, ← hright.value]
        · have hgt := hl.le
          rw [Function.update_of_ne (by omega), hkept j hl, hkept _ (hl.child (by omega)),
            hkept _ (hl.child (by omega))]
          exact hleft.inside j hj hl
        · have hgt := hr.le
          rw [Function.update_of_ne (by omega)]
          exact hright.inside j hj hr

/-- Building from the root makes the array a maximum tree over the same leaves. -/
theorem build_isMaxTree (L : ℕ) (t : ℕ → K) :
    IsMaxTree L (build L L 1 t).2 ∧ (∀ j, L ≤ j → (build L L 1 t).2 j = t j) ∧
      (build L L 1 t).2 0 = t 0 := by
  have h := build_spec L 1 (le_refl 1) (Nat.le_add_left L 1) t
  refine ⟨fun j h1 hj => h.inside j hj (under_one h1), h.leaf, h.outside 0 (fun h0 => ?_)⟩
  exact absurd h0.le (by omega)

/-! ### Climbing updates -/

/-- Every equation holds except perhaps the one at `i`. -/
def StaleAt (L : ℕ) (t : ℕ → K) (i : ℕ) : Prop :=
  ∀ j, 1 ≤ j → j < L → j ≠ i → t j = max (t (2 * j)) (t (2 * j + 1))

/-- Writing a leaf spoils the equation of its parent only. -/
theorem IsMaxTree.staleAt (h : IsMaxTree L t) {l : ℕ} (hl : L ≤ l) (v : K) :
    StaleAt L (Function.update t l v) (l / 2) := by
  intro j h1 hj hne
  rw [Function.update_of_ne (by omega), Function.update_of_ne (by omega),
    Function.update_of_ne (by omega)]
  exact h j h1 hj

/-- Recompute node `i` and its ancestors; the fuel bounds the levels. -/
def climb : ℕ → ℕ → (ℕ → K) → ℕ → K
  | 0, _, t => t
  | fuel + 1, i, t =>
    if 0 < i then climb fuel (i / 2) (Function.update t i (max (t (2 * i)) (t (2 * i + 1)))) else t

/-- A climb that starts above the leaves changes no leaf. -/
theorem climb_leaf (fuel : ℕ) {i : ℕ} (hi : i < L) (t : ℕ → K) {l : ℕ} (hl : L ≤ l) :
    climb fuel i t l = t l := by
  induction fuel generalizing i t with
  | zero => rfl
  | succ fuel ih =>
    unfold climb
    split
    · rw [ih (by omega), Function.update_of_ne (by omega)]
    · rfl

/-- Position `0` is not a node. -/
theorem climb_zero (fuel i : ℕ) (t : ℕ → K) : climb fuel i t 0 = t 0 := by
  induction fuel generalizing i t with
  | zero => rfl
  | succ fuel ih =>
    unfold climb
    split
    · rw [ih, Function.update_of_ne (by omega)]
    · rfl

/-- The climb repairs the tree. -/
theorem climb_isMaxTree {fuel i : ℕ} (hfuel : i ≤ fuel) (h : StaleAt L t i) :
    IsMaxTree L (climb fuel i t) := by
  induction fuel generalizing i t with
  | zero =>
    obtain rfl : i = 0 := by omega
    exact fun j h1 hj => h j h1 hj (by omega)
  | succ fuel ih =>
    unfold climb
    split
    · refine ih (by omega) (fun j h1 hj hne => ?_)
      rw [Function.update_of_ne (by omega : 2 * j ≠ i),
        Function.update_of_ne (by omega : 2 * j + 1 ≠ i)]
      by_cases hji : j = i
      · rw [hji, Function.update_self]
      · rw [Function.update_of_ne hji]
        exact h j h1 hj hji
    · exact fun j h1 hj => h j h1 hj (by omega)

/-! ### Searching for the maximum -/

/-- Descend from `cur` to a leaf, to the left as long as the left child is not smaller; the fuel
    bounds the levels. -/
def descendMax (L : ℕ) (t : ℕ → K) : ℕ → ℕ → ℕ
  | 0, cur => cur
  | fuel + 1, cur =>
    if 2 * L ≤ 2 * cur then cur
    else if t (2 * cur + 1) ≤ t (2 * cur) then descendMax L t fuel (2 * cur)
    else descendMax L t fuel (2 * cur + 1)

/-- The way down ends in a leaf with the value of the start. -/
theorem descendMax_spec (h : IsMaxTree L t) (fuel cur : ℕ) (h1 : 1 ≤ cur) (hcur : cur < 2 * L)
    (hfuel : L ≤ cur + fuel) :
    L ≤ descendMax L t fuel cur ∧ descendMax L t fuel cur < 2 * L ∧
      t (descendMax L t fuel cur) = t cur := by
  induction fuel generalizing cur with
  | zero => exact ⟨by simpa [descendMax] using hfuel, hcur, rfl⟩
  | succ fuel ih =>
    unfold descendMax
    split
    · exact ⟨by omega, hcur, rfl⟩
    · have hmax := h cur h1 (by omega)
      split
      · rename_i hle
        obtain ⟨hl, hlt, heq⟩ := ih (2 * cur) (by omega) (by omega) (by omega)
        exact ⟨hl, hlt, by rw [heq, hmax, max_eq_left hle]⟩
      · rename_i hle
        obtain ⟨hl, hlt, heq⟩ := ih (2 * cur + 1) (by omega) (by omega) (by omega)
        exact ⟨hl, hlt, by rw [heq, hmax, max_eq_right (le_of_not_ge hle)]⟩

/-- In a tree whose leaves are all `k` levels below the nodes `D, …, 2 * D - 1`, the way down ends
    in the first leaf below its start that has the value of the start. -/
theorem descendMax_first (h : IsMaxTree L t) {k D cur fuel : ℕ} (hD : 1 ≤ D)
    (hL : L = D * 2 ^ k) (hlo : D ≤ cur) (hhi : cur < 2 * D) (hfuel : k ≤ fuel) :
    descendMax L t fuel cur / 2 ^ k = cur ∧
      ∀ l, l / 2 ^ k = cur → l < descendMax L t fuel cur → t l < t cur := by
  induction k generalizing D cur fuel with
  | zero =>
    -- The start is a leaf.
    obtain rfl : L = D := by simpa using hL
    have hstay : descendMax L t fuel cur = cur := by
      cases fuel with
      | zero => rfl
      | succ fuel => rw [descendMax, if_pos (by omega)]
    rw [hstay, pow_zero, Nat.div_one]
    refine ⟨rfl, fun l hl hlt => ?_⟩
    rw [Nat.div_one] at hl
    omega
  | succ k ih =>
    obtain ⟨fuel, rfl⟩ := Nat.exists_eq_add_one_of_ne_zero (by omega : fuel ≠ 0)
    have hL' : L = 2 * D * 2 ^ k := by rw [hL, pow_succ]; ring
    have hinner : cur < L := by
      have hone : 1 ≤ 2 ^ k := Nat.one_le_two_pow
      have hmul : 2 * D * 1 ≤ 2 * D * 2 ^ k := Nat.mul_le_mul_left _ hone
      omega
    have hmax := h cur (by omega) hinner
    simp only [pow_succ, ← Nat.div_div_eq_div_mul, descendMax,
      if_neg (by omega : ¬ 2 * L ≤ 2 * cur)]
    split
    · rename_i hle
      obtain ⟨hend, hfirst⟩ := @ih (2 * D) (2 * cur) fuel (by omega) hL' (by omega) (by omega)
        (by omega)
      refine ⟨by omega, fun l hl hlt => ?_⟩
      rw [hmax, max_eq_left hle]
      refine hfirst l ?_ hlt
      -- A leaf before one of the left subtree is not in the right subtree.
      have hmono := Nat.div_le_div_right (c := 2 ^ k) hlt.le
      omega
    · rename_i hgt
      obtain ⟨hend, hfirst⟩ := @ih (2 * D) (2 * cur + 1) fuel (by omega) hL' (by omega)
        (by omega) (by omega)
      refine ⟨by omega, fun l hl hlt => ?_⟩
      have hlt' := not_le.mp hgt
      rw [hmax, max_eq_right hlt'.le]
      rcases (by omega : l / 2 ^ k = 2 * cur ∨ l / 2 ^ k = 2 * cur + 1) with hleft | hright
      · -- All leaves of the left subtree are smaller.
        have hbound : l < 2 * L := by
          have hlt4 : l < 4 * D * 2 ^ k :=
            (Nat.div_lt_iff_lt_mul (Nat.two_pow_pos k)).mp (by omega)
          rw [hL']
          linarith
        exact (h.le_of_under (by omega) ⟨k, hleft⟩ hbound).trans_lt hlt'
      · exact hfirst l hright hlt

/-- From the root the way down ends in the first leaf that has the value of the root. -/
theorem lt_root_of_lt_descendMax (h : IsMaxTree L t) {k fuel : ℕ} (hL : L = 2 ^ k)
    (hfuel : k ≤ fuel) {l : ℕ} (hl : L ≤ l) (hlt : l < descendMax L t fuel 1) : t l < t 1 := by
  obtain ⟨hend, hfirst⟩ := descendMax_first h (D := 1) (le_refl 1) (by rw [hL, one_mul])
    (le_refl 1) (by omega) hfuel
  refine hfirst l ?_ hlt
  have hup := Nat.div_le_div_right (c := 2 ^ k) hlt.le
  have hlow : 1 ≤ l / 2 ^ k := (Nat.one_le_div_iff (Nat.two_pow_pos k)).mpr (hL ▸ hl)
  omega

end SschedSimulator.Foundation
