import Mathlib.Algebra.BigOperators.Group.Finset.Basic
import Mathlib.Algebra.Order.BigOperators.Group.Finset
import Mathlib.Dynamics.PeriodicPts.Lemmas
import Mathlib.GroupTheory.Perm.Cycle.Basic
import Mathlib.Tactic.Abel

namespace SschedSimulator.Foundation.Alternation

/-!
# The union of two perfect matchings

Two perfect matchings `p` and `q` between the same ports split these into cycles: from a left port,
`p` leads to a right port and `q` back to the next left port.  On each cycle both matchings use the
same right ports, so that one of the two may be chosen cycle by cycle:

* `choose_bijective` — the choice is a perfect matching;
* `sum_choose` — its weight is the sum of the sides chosen;
* `sum_heavier`, `le_sum_heavier` — with the heavier side of every cycle, it is the sum of the
  maxima, and at least the weight of either matching.

A cycle is walked from any of its ports: `cycleOf_eq_iff_iterate` and `sum_cycle`.  On the way the walk
may add up how much heavier `p` is than `q`; `walksFit_of_weight_le` bounds the sums that it forms by
the weights of the two matchings.
-/

open Function Equiv

variable {I O R : Type*}

/-- The left port reached by `p` and back by `q`. -/
def next (p q : I ≃ O) : Perm I := p.trans q.symm

/-- The cycles of the two matchings. -/
abbrev Cycle (p q : I ≃ O) : Type _ := Quotient (Perm.SameCycle.setoid (next p q))

/-- The cycle of a left port. -/
def cycleOf (p q : I ≃ O) (i : I) : Cycle p q := Quotient.mk _ i

theorem cycleOf_eq_iff {p q : I ≃ O} {i j : I} :
    cycleOf p q i = cycleOf p q j ↔ (next p q).SameCycle i j := Quotient.eq

@[simp] theorem apply_next (p q : I ≃ O) (i : I) : q (next p q i) = p i := by
  rw [next, trans_apply, apply_symm_apply]

theorem cycleOf_next (p q : I ≃ O) (i : I) : cycleOf p q (next p q i) = cycleOf p q i :=
  cycleOf_eq_iff.mpr (Perm.sameCycle_apply_left.mpr (Perm.SameCycle.refl _ i))

/-! ### Choosing a side of each cycle -/

/-- `p` on the cycles chosen by `side`, `q` on the others. -/
def choose (p q : I ≃ O) (side : Cycle p q → Bool) (i : I) : O :=
  if side (cycleOf p q i) then p i else q i

theorem choose_injective (p q : I ≃ O) (side : Cycle p q → Bool) : Injective (choose p q side) := by
  -- Ports that share a right port across the two matchings follow each other on a cycle.
  have hshare : ∀ i j, p i = q j → cycleOf p q i = cycleOf p q j := by
    intro i j hij
    have hnext : next p q i = j := q.injective (by rw [apply_next, hij])
    rw [← hnext, cycleOf_next]
  intro i j hij
  unfold choose at hij
  split at hij
  · rename_i hi
    split at hij
    · exact p.injective hij
    · rename_i hj
      exact absurd (hshare i j hij ▸ hi) hj
  · rename_i hi
    split at hij
    · rename_i hj
      exact absurd (hshare j i hij.symm ▸ hj) hi
    · exact q.injective hij

section

variable [Fintype I]

theorem choose_bijective (p q : I ≃ O) (side : Cycle p q → Bool) :
    Bijective (choose p q side) := by
  have hcard : Finite O := Finite.of_equiv I p
  have hbij : Bijective (p.symm ∘ choose p q side) :=
    Finite.injective_iff_bijective.mp (p.symm.injective.comp (choose_injective p q side))
  exact (Bijective.of_comp_iff' p.symm.bijective _).mp hbij

/-- The choice as a perfect matching. -/
noncomputable def chosen (p q : I ≃ O) (side : Cycle p q → Bool) : I ≃ O :=
  Equiv.ofBijective (choose p q side) (choose_bijective p q side)

@[simp] theorem chosen_apply (p q : I ≃ O) (side : Cycle p q → Bool) (i : I) :
    chosen p q side i = choose p q side i := rfl

/-! ### Weights -/

open scoped Classical in
noncomputable instance (p q : I ≃ O) : Fintype (Cycle p q) := Quotient.fintype _

open scoped Classical in
/-- The ports of a cycle. -/
noncomputable def ports {p q : I ≃ O} (c : Cycle p q) : Finset I :=
  Finset.univ.filter (fun i => cycleOf p q i = c)

theorem mem_ports {p q : I ≃ O} {c : Cycle p q} {i : I} : i ∈ ports c ↔ cycleOf p q i = c := by
  simp only [ports, Finset.mem_filter, Finset.mem_univ, true_and]

variable [AddCommGroup R]

/-- The weight of a matching. -/
def weight (value : I → O → R) (m : I → O) : R := ∑ i, value i (m i)

/-- The weight of a matching on one cycle. -/
noncomputable def weightOn (value : I → O → R) (m : I → O) {p q : I ≃ O} (c : Cycle p q) : R :=
  ∑ i ∈ ports c, value i (m i)

/-- A matching weighs what it does on the cycles together. -/
theorem weight_eq_sum (value : I → O → R) (m : I → O) (p q : I ≃ O) :
    weight value m = ∑ c : Cycle p q, weightOn value m c := by
  classical
  exact (Finset.sum_fiberwise Finset.univ (cycleOf p q) (fun i => value i (m i))).symm

/-- On each cycle a choice weighs what its side does. -/
theorem weightOn_choose (value : I → O → R) (p q : I ≃ O) (side : Cycle p q → Bool)
    (c : Cycle p q) : weightOn value (choose p q side) c
      = if side c then weightOn value p c else weightOn value q c := by
  have heq : ∀ i ∈ ports c, choose p q side i = if side c then p i else q i := by
    intro i hi
    rw [choose, mem_ports.mp hi]
  split
  · rename_i hc
    refine Finset.sum_congr rfl (fun i hi => ?_)
    rw [heq i hi, if_pos hc]
  · rename_i hc
    refine Finset.sum_congr rfl (fun i hi => ?_)
    rw [heq i hi, if_neg hc]

theorem sum_choose (value : I → O → R) (p q : I ≃ O) (side : Cycle p q → Bool) :
    weight value (choose p q side)
      = ∑ c, if side c then weightOn value p c else weightOn value q c := by
  rw [weight_eq_sum value _ p q]
  exact Finset.sum_congr rfl (fun c _ => weightOn_choose value p q side c)

variable [LinearOrder R]

/-- The heavier side of each cycle, `p` on ties. -/
noncomputable def heavierSide (value : I → O → R) (p q : I ≃ O) (c : Cycle p q) : Bool :=
  decide (weightOn value q c ≤ weightOn value p c)

/-- The perfect matching that takes the heavier side of each cycle. -/
noncomputable def heavier (value : I → O → R) (p q : I ≃ O) : I ≃ O :=
  chosen p q (heavierSide value p q)

theorem heavier_of_le {value : I → O → R} {p q : I ≃ O} {i : I}
    (h : weightOn value q (cycleOf p q i) ≤ weightOn value p (cycleOf p q i)) :
    heavier value p q i = p i :=
  if_pos (decide_eq_true h)

theorem heavier_of_lt {value : I → O → R} {p q : I ≃ O} {i : I}
    (h : weightOn value p (cycleOf p q i) < weightOn value q (cycleOf p q i)) :
    heavier value p q i = q i :=
  if_neg (fun hc => absurd (of_decide_eq_true hc) (not_le.mpr h))

theorem sum_heavier (value : I → O → R) (p q : I ≃ O) :
    weight value (heavier value p q)
      = ∑ c : Cycle p q, max (weightOn value p c) (weightOn value q c) := by
  refine (sum_choose value p q (heavierSide value p q)).trans (Finset.sum_congr rfl (fun c _ => ?_))
  unfold heavierSide
  by_cases hc : weightOn value q c ≤ weightOn value p c
  · rw [if_pos (decide_eq_true hc), max_eq_left hc]
  · rw [if_neg (fun hd => hc (of_decide_eq_true hd)), max_eq_right (le_of_not_ge hc)]

theorem le_sum_heavier [IsOrderedAddMonoid R] (value : I → O → R) (p q : I ≃ O) :
    max (weight value p) (weight value q) ≤ weight value (heavier value p q) := by
  rw [sum_heavier, weight_eq_sum value p p q, weight_eq_sum value q p q]
  apply max_le
  · exact Finset.sum_le_sum (fun c _ => le_max_left _ _)
  · exact Finset.sum_le_sum (fun c _ => le_max_right _ _)

end

/-! ### Walking a cycle -/

/-- The number of left ports on the cycle of `i`. -/
noncomputable def period (p q : I ≃ O) (i : I) : ℕ := minimalPeriod (next p q) i

theorem iterate_period (p q : I ≃ O) (i : I) : (next p q)^[period p q i] i = i :=
  iterate_minimalPeriod

/-- The walk meets no port twice before it is back. -/
theorem iterate_inj {p q : I ≃ O} {i : I} {s t : ℕ} (hs : s < period p q i) (ht : t < period p q i)
    (h : (next p q)^[s] i = (next p q)^[t] i) : s = t :=
  iterate_injOn_Iio_minimalPeriod hs ht h

/-- How much heavier `p` is than `q` on the walk from `i`, before the `t`th step back over `q`. -/
def walkOut [AddCommGroup R] (value : I → O → R) (p q : I ≃ O) (i : I) (t : ℕ) : R :=
  ∑ k ∈ Finset.range (t + 1), value ((next p q)^[k] i) (p ((next p q)^[k] i))
    - ∑ k ∈ Finset.range t, value ((next p q)^[k + 1] i) (q ((next p q)^[k + 1] i))

/-- The same after that step. -/
def walkBack [AddCommGroup R] (value : I → O → R) (p q : I ≃ O) (i : I) (t : ℕ) : R :=
  walkOut value p q i t - value ((next p q)^[t + 1] i) (q ((next p q)^[t + 1] i))

theorem walkOut_succ [AddCommGroup R] (value : I → O → R) (p q : I ≃ O) (i : I) (t : ℕ) :
    walkOut value p q i (t + 1) = walkBack value p q i t
      + value ((next p q)^[t + 1] i) (p ((next p q)^[t + 1] i)) := by
  rw [walkBack, walkOut, walkOut, Finset.sum_range_succ _ (t + 1), Finset.sum_range_succ
    (fun k => value ((next p q)^[k + 1] i) (q ((next p q)^[k + 1] i))) t]
  abel

/-- Every sum that is formed on the walk from `i` fits. -/
def WalkFits [AddCommGroup R] (fits : R → Prop) (value : I → O → R) (p q : I ≃ O) (i : I) : Prop :=
  ∀ t < period p q i, fits (walkBack value p q i t) ∧
    (t + 1 < period p q i → fits (walkOut value p q i (t + 1)))

/-- Every sum fits that is formed when each cycle is walked from the first of its ports. -/
def WalksFit [LE I] [AddCommGroup R] (fits : R → Prop) (value : I → O → R) (p q : I ≃ O) : Prop :=
  ∀ i, (∀ j, cycleOf p q j = cycleOf p q i → i ≤ j) → WalkFits fits value p q i

section

variable [Fintype I] {p q : I ≃ O}

theorem period_pos (p q : I ≃ O) (i : I) : 0 < period p q i :=
  minimalPeriod_pos_of_mem_periodicPts ((next p q).injective.mem_periodicPts i)

theorem period_le_card (p q : I ≃ O) (i : I) : period p q i ≤ Fintype.card I :=
  minimalPeriod_le_card

/-- The walk from `i` meets the ports of its cycle. -/
theorem cycleOf_eq_iff_iterate {i j : I} :
    cycleOf p q i = cycleOf p q j ↔ ∃ t < period p q i, (next p q)^[t] i = j := by
  rw [cycleOf_eq_iff]
  constructor
  · intro h
    obtain ⟨t, rfl⟩ := h.exists_nat_pow_eq
    refine ⟨t % period p q i, Nat.mod_lt _ (period_pos p q i), ?_⟩
    rw [Perm.coe_pow]
    exact iterate_mod_minimalPeriod_eq
  · rintro ⟨t, -, rfl⟩
    rw [← Perm.coe_pow]
    exact Perm.sameCycle_pow_right.mpr (Perm.SameCycle.refl _ i)

/-- A sum over a cycle, in the order of the walk. -/
theorem sum_cycle [AddCommGroup R] (f : I → R) (i : I) :
    ∑ j ∈ ports (cycleOf p q i), f j = ∑ t ∈ Finset.range (period p q i), f ((next p q)^[t] i) := by
  symm
  refine Finset.sum_bij (fun t _ => (next p q)^[t] i) (fun t ht => ?_) (fun s hs t ht h => ?_)
    (fun j hj => ?_) (fun _ _ => rfl)
  · rw [mem_ports, eq_comm]
    exact cycleOf_eq_iff_iterate.mpr ⟨t, Finset.mem_range.mp ht, rfl⟩
  · exact iterate_inj (Finset.mem_range.mp hs) (Finset.mem_range.mp ht) h
  · obtain ⟨t, ht, h⟩ := cycleOf_eq_iff_iterate.mp (mem_ports.mp hj).symm
    exact ⟨t, Finset.mem_range.mpr ht, h⟩

/-- The ports that `q` leads back to are those of the cycle once more. -/
theorem sum_cycle_next [AddCommGroup R] (f : I → R) (i : I) :
    ∑ t ∈ Finset.range (period p q i), f ((next p q)^[t + 1] i)
      = ∑ j ∈ ports (cycleOf p q i), f j := by
  have hshift := Finset.sum_range_succ' (fun t => f ((next p q)^[t] i)) (period p q i)
  rw [Finset.sum_range_succ, iterate_period] at hshift
  rw [sum_cycle]
  exact (add_right_cancel hshift).symm

theorem card_ports (i : I) : (ports (cycleOf p q i)).card = period p q i := by
  have hsum := sum_cycle (p := p) (q := q) (fun _ => (1 : ℤ)) i
  simpa using hsum

/-! ### The sums that a walk meets -/

section

variable [AddCommGroup R] {value : I → O → R}

/-- At the end the walk has added up its cycle. -/
theorem walkBack_period (value : I → O → R) {i : I} {t : ℕ} (ht : t + 1 = period p q i) :
    walkBack value p q i t
      = weightOn value p (cycleOf p q i) - weightOn value q (cycleOf p q i) := by
  rw [walkBack, walkOut, sub_sub, ← Finset.sum_range_succ (fun k =>
    value ((next p q)^[k + 1] i) (q ((next p q)^[k + 1] i))), ht, weightOn, weightOn, sum_cycle,
    ← sum_cycle_next]

variable [LinearOrder R] [IsOrderedAddMonoid R] {m : I → O} {i : I} {t : ℕ} {bound : R}

theorem weightOn_le_weight (hvalue : ∀ i o, 0 ≤ value i o) (c : Cycle p q) :
    weightOn value m c ≤ weight value m :=
  Finset.sum_le_sum_of_subset_of_nonneg (Finset.subset_univ _) (fun _ _ _ => hvalue _ _)

/-- The ports met so far weigh no more than the whole matching... -/
theorem sum_walk_le (hvalue : ∀ i o, 0 ≤ value i o) (ht : t ≤ period p q i) :
    ∑ k ∈ Finset.range t, value ((next p q)^[k] i) (m ((next p q)^[k] i)) ≤ weight value m := by
  refine le_trans (Finset.sum_le_sum_of_subset_of_nonneg (Finset.range_subset_range.mpr ht)
    (fun _ _ _ => hvalue _ _)) ?_
  rw [← sum_cycle (fun j => value j (m j))]
  exact weightOn_le_weight hvalue _

/-- ...also when the port where the walk began is counted last. -/
theorem sum_walk_next_le (hvalue : ∀ i o, 0 ≤ value i o) (ht : t ≤ period p q i) :
    ∑ k ∈ Finset.range t, value ((next p q)^[k + 1] i) (m ((next p q)^[k + 1] i))
      ≤ weight value m := by
  refine le_trans (Finset.sum_le_sum_of_subset_of_nonneg (Finset.range_subset_range.mpr ht)
    (fun _ _ _ => hvalue _ _)) ?_
  rw [sum_cycle_next (fun j => value j (m j))]
  exact weightOn_le_weight hvalue _

/-- Where no weight is negative, the walk stays between the weights of the two matchings. -/
theorem walksFit_of_weight_le [LE I] {fits : R → Prop} (hvalue : ∀ i o, 0 ≤ value i o)
    (hfits : ∀ x, |x| ≤ bound → fits x) (hp : weight value p ≤ bound)
    (hq : weight value q ≤ bound) : WalksFit fits value p q := by
  intro i _ t ht
  have hsum : ∀ (m : I → O) (x : ℕ → I) (s : ℕ), 0 ≤ ∑ k ∈ Finset.range s, value (x k) (m (x k)) :=
    fun m x s => Finset.sum_nonneg (fun _ _ => hvalue _ _)
  constructor
  · rw [walkBack, walkOut, sub_sub, ← Finset.sum_range_succ (fun k =>
      value ((next p q)^[k + 1] i) (q ((next p q)^[k + 1] i)))]
    exact hfits _ (abs_sub_le_of_nonneg_of_le (hsum p _ (t + 1)) ((sum_walk_le hvalue ht).trans hp)
      (hsum q _ (t + 1)) ((sum_walk_next_le hvalue ht).trans hq))
  · intro ht'
    exact hfits _ (abs_sub_le_of_nonneg_of_le (hsum p _ (t + 2)) ((sum_walk_le hvalue ht').trans hp)
      (hsum q _ (t + 1)) ((sum_walk_next_le hvalue ht).trans hq))

end

end

end SschedSimulator.Foundation.Alternation
