import Mathlib.Analysis.Convex.Birkhoff
import SschedSimulator.Foundation.PartialMatching
import SschedSimulator.Foundation.QuadraticDrift

namespace SschedSimulator.Foundation

open Finset Matrix

/-!
# Crossbars whose queues stay bounded

A crossbar has a queue for every pair of a left and a right port, and serves a matching of the ports
in every slot.  Two kinds of matchings keep the queues bounded, and empty them when nothing arrives
any more (`drained`):

* `bounded_of_heaviest` — heaviest matchings, if less arrives for every port than a port can serve;
* `bounded_of_maximal` — maximal matchings of the queues that are not empty, if less arrives for any
  two ports together than one port can serve.

The first rests on `sum_mul_le_heaviest`: a matrix whose lines sum up to `r` at most is below a sum
of `r` matchings on average, by the theorem of Birkhoff.
-/

variable {I O : Type*} [Fintype I] [Fintype O]

/-- The sum of the entries that a row matches. -/
def pairWeight (x : I × O → ℕ) (row : I → Option O) : ℕ := ∑ i, (row i).elim 0 (fun o => x (i, o))

variable [DecidableEq I] [DecidableEq O]

omit [DecidableEq I] in
/-- The weight as a sum over all pairs. -/
theorem pairWeight_eq_sum (x : I × O → ℕ) (row : I → Option O) :
    pairWeight x row = ∑ p, if row p.1 = some p.2 then x p else 0 := by
  rw [pairWeight, Fintype.sum_prod_type]
  refine sum_congr rfl (fun i _ => ?_)
  cases hi : row i with
  | none => simp [hi]
  | some o => simp [hi]

/-- The weight of a heaviest matching. -/
def heaviest (x : I × O → ℕ) : ℕ :=
  (univ.filter (fun row : I → Option O => IsMatching row)).sup (pairWeight x)

/-- No matching is heavier than the heaviest. -/
theorem pairWeight_le_heaviest (x : I × O → ℕ) {row : I → Option O} (h : IsMatching row) :
    pairWeight x row ≤ heaviest x :=
  le_sup (f := pairWeight x) (mem_filter.mpr ⟨mem_univ row, h⟩)

/-- A bound on all matchings bounds the heaviest. -/
theorem heaviest_le {x : I × O → ℕ} {w : ℕ}
    (h : ∀ row : I → Option O, IsMatching row → pairWeight x row ≤ w) : heaviest x ≤ w :=
  Finset.sup_le (fun row hrow => h row (mem_filter.mp hrow).2)

/-! ### Matrices with bounded lines -/

/-- No line of the matrix sums up to more than `r`. -/
structure LinesLe (A : I × O → ℕ) (r : ℕ) : Prop where
  left : ∀ i, ∑ o, A (i, o) ≤ r
  right : ∀ o, ∑ i, A (i, o) ≤ r

/-- The matrix `A / r`, completed by what its lines lack. -/
def complete (A : I × O → ℕ) (r : ℕ) : Matrix (I ⊕ O) (I ⊕ O) ℚ :=
  fromBlocks (diagonal (fun i => ((r : ℚ) - ∑ o, (A (i, o) : ℚ)) / r))
    (of fun i o => (A (i, o) : ℚ) / r) (of fun o i => (A (i, o) : ℚ) / r)
    (diagonal (fun o => ((r : ℚ) - ∑ i, (A (i, o) : ℚ)) / r))

/-- Every line of the completed matrix sums to 1. -/
theorem complete_stochastic {A : I × O → ℕ} {r : ℕ} (h : LinesLe A r) (hr : 0 < r) :
    (∀ a b, 0 ≤ complete A r a b) ∧ (∀ a, ∑ b, complete A r a b = 1) ∧
      ∀ b, ∑ a, complete A r a b = 1 := by
  have hr' : (r : ℚ) ≠ 0 := by exact_mod_cast hr.ne'
  -- The completed matrix is symmetric, so that its rows are enough.
  have hsymm : (complete A r).IsSymm :=
    .fromBlocks (isSymm_diagonal _) rfl (isSymm_diagonal _)
  have hrow : ∀ a, ∑ b, complete A r a b = 1 := by
    rintro (i | o)
    · simp only [complete, Fintype.sum_sum_type, fromBlocks_apply₁₁, fromBlocks_apply₁₂,
        diagonal_apply, of_apply, sum_ite_eq, mem_univ, if_true]
      rw [← Finset.sum_div, ← add_div, sub_add_cancel, div_self hr']
    · simp only [complete, Fintype.sum_sum_type, fromBlocks_apply₂₁, fromBlocks_apply₂₂,
        diagonal_apply, of_apply, sum_ite_eq, mem_univ, if_true]
      rw [← Finset.sum_div, ← add_div, add_sub_cancel, div_self hr']
  refine ⟨?_, hrow, fun b => ?_⟩
  · have hleft : ∀ i, (0 : ℚ) ≤ (r : ℚ) - ∑ o, (A (i, o) : ℚ) := fun i =>
      sub_nonneg.mpr (by exact_mod_cast h.left i)
    have hright : ∀ o, (0 : ℚ) ≤ (r : ℚ) - ∑ i, (A (i, o) : ℚ) := fun o =>
      sub_nonneg.mpr (by exact_mod_cast h.right o)
    rintro (i | o) (i' | o')
    · rw [complete, fromBlocks_apply₁₁, diagonal_apply]
      split
      · exact div_nonneg (hleft i) (Nat.cast_nonneg r)
      · exact le_refl 0
    · exact div_nonneg (Nat.cast_nonneg _) (Nat.cast_nonneg r)
    · exact div_nonneg (Nat.cast_nonneg _) (Nat.cast_nonneg r)
    · rw [complete, fromBlocks_apply₂₂, diagonal_apply]
      split
      · exact div_nonneg (hright o) (Nat.cast_nonneg r)
      · exact le_refl 0
  · rw [← hrow b]
    exact sum_congr rfl (fun a _ => hsymm.apply b a)

/-- The pairs of a permutation of all ports that lead from left to right. -/
def rowOf (σ : Equiv.Perm (I ⊕ O)) (i : I) : Option O := (σ (.inl i)).getRight?

omit [Fintype I] [Fintype O] [DecidableEq I] [DecidableEq O] in
theorem rowOf_eq_some {σ : Equiv.Perm (I ⊕ O)} {i : I} {o : O} :
    rowOf σ i = some o ↔ σ (.inl i) = .inr o := Sum.getRight?_eq_some_iff

omit [Fintype I] [Fintype O] [DecidableEq I] [DecidableEq O] in
/-- The row of a permutation is a matching. -/
theorem isMatching_rowOf (σ : Equiv.Perm (I ⊕ O)) : IsMatching (rowOf σ) := by
  intro i i' o hi hi'
  exact Sum.inl_injective (σ.injective
    ((rowOf_eq_some.mp hi).trans (rowOf_eq_some.mp hi').symm))

/-- On average a matrix with lines up to `r` is worth no more than `r` heaviest matchings. -/
theorem sum_mul_le_heaviest {A : I × O → ℕ} {r : ℕ} (h : LinesLe A r) (x : I × O → ℕ) :
    ∑ p, x p * A p ≤ r * heaviest x := by
  rcases Nat.eq_zero_or_pos r with rfl | hr
  · have hzero : ∀ p, A p = 0 := fun p =>
      (Finset.sum_eq_zero_iff.mp (Nat.le_zero.mp (h.left p.1))) p.2 (mem_univ _)
    simp [hzero]
  · -- completed to a doubly stochastic matrix, it is an average of permutations (Birkhoff)
    obtain ⟨w, hw, hone, hsum⟩ := exists_eq_sum_perm_of_mem_doublyStochastic
      (mem_doublyStochastic_iff_sum.mpr (complete_stochastic h hr))
    have hr' : (r : ℚ) ≠ 0 := by exact_mod_cast hr.ne'
    have hcell : ∀ p : I × O, (A p : ℚ)
        = r * ∑ σ, w σ * (if rowOf σ p.1 = some p.2 then 1 else 0) := by
      intro p
      have hentry : (A p : ℚ) / r = complete A r (.inl p.1) (.inr p.2) := rfl
      rw [← hsum, Matrix.sum_apply] at hentry
      rw [← mul_div_cancel₀ (A p : ℚ) hr', hentry]
      congr 1
      refine sum_congr rfl (fun σ _ => ?_)
      simp only [Matrix.smul_apply, smul_eq_mul, PEquiv.toMatrix_apply, Equiv.toPEquiv_apply,
        Option.mem_some_iff, rowOf_eq_some]
    have hrat : ((∑ p, x p * A p : ℕ) : ℚ) ≤ ((r * heaviest x : ℕ) : ℚ) := by
      push_cast
      calc ∑ p, (x p : ℚ) * A p
          = ∑ p, ∑ σ, r * (w σ * (if rowOf σ p.1 = some p.2 then (x p : ℚ) else 0)) := by
            refine sum_congr rfl (fun p _ => ?_)
            rw [hcell p, ← Finset.mul_sum, mul_left_comm, Finset.mul_sum]
            congr 1
            refine sum_congr rfl (fun σ _ => ?_)
            split <;> ring
        _ = r * ∑ σ, w σ * (pairWeight x (rowOf σ) : ℕ) := by
            rw [sum_comm, Finset.mul_sum]
            refine sum_congr rfl (fun σ _ => ?_)
            rw [← Finset.mul_sum, ← Finset.mul_sum, pairWeight_eq_sum]
            push_cast
            rfl
        _ ≤ r * ∑ σ, w σ * (heaviest x : ℕ) :=
            mul_le_mul_of_nonneg_left (sum_le_sum (fun σ _ => mul_le_mul_of_nonneg_left
              (by exact_mod_cast pairWeight_le_heaviest x (isMatching_rowOf σ)) (hw σ)))
              (Nat.cast_nonneg r)
        _ = r * (heaviest x : ℕ) := by rw [← Finset.sum_mul, hone, one_mul]
    exact_mod_cast hrat

/-! ### What a matching serves -/

/-- A matched queue is served unless it is empty. -/
def servedOf (x : I × O → ℕ) (row : I → Option O) : I × O → ℕ :=
  fun p => if row p.1 = some p.2 ∧ 0 < x p then 1 else 0

omit [Fintype I] [Fintype O] [DecidableEq I] in
/-- A queue is served once at most. -/
theorem servedOf_le_one (x : I × O → ℕ) (row : I → Option O) (p : I × O) :
    servedOf x row p ≤ 1 := by
  unfold servedOf
  split
  · exact le_refl 1
  · exact Nat.zero_le 1

omit [DecidableEq I] in
/-- The weight of a row counts the queues that it serves. -/
theorem sum_mul_servedOf (x : I × O → ℕ) (row : I → Option O) :
    ∑ p, x p * servedOf x row p = pairWeight x row := by
  rw [pairWeight_eq_sum]
  refine sum_congr rfl (fun p _ => ?_)
  unfold servedOf
  by_cases hp : row p.1 = some p.2
  · rcases Nat.eq_zero_or_pos (x p) with hx | hx
    · simp [hx]
    · simp [hp, hx]
  · simp [hp]

/-- A heaviest matching is worth its weight. -/
theorem gain_heaviest : Gain (heaviest (I := I) (O := O)) (Fintype.card I) where
  le_add := by
    intro x y c hle
    refine heaviest_le (fun row hrow => ?_)
    calc pairWeight x row ≤ pairWeight y row + c * Fintype.card I := by
          rw [pairWeight, pairWeight, Nat.mul_comm, ← Finset.card_univ, ← smul_eq_mul,
            ← Finset.sum_const, ← sum_add_distrib]
          refine sum_le_sum (fun i _ => ?_)
          cases row i with
          | none => exact Nat.zero_le _
          | some o => exact hle (i, o)
      _ ≤ heaviest y + c * Fintype.card I :=
          Nat.add_le_add_right (pairWeight_le_heaviest y hrow) _
  covers := by
    intro x p
    have hone : IsMatching (Function.update (fun _ : I => none) p.1 (some p.2)) :=
      isMatching_none.update (fun _ => nofun)
    refine le_trans ?_ (pairWeight_le_heaviest x hone)
    calc x p = (Function.update (fun _ : I => none) p.1 (some p.2) p.1).elim 0
          (fun o => x (p.1, o)) := by rw [Function.update_self, Option.elim_some]
      _ ≤ pairWeight x (Function.update (fun _ : I => none) p.1 (some p.2)) :=
        Finset.single_le_sum (f := fun i => (Function.update (fun _ : I => none) p.1
          (some p.2) i).elim 0 (fun o => x (i, o))) (fun _ _ => Nat.zero_le _) (mem_univ p.1)

/-- Heaviest matchings keep the queues bounded: in every window of `W` slots at most `r < W` packets
    arrive for each port. -/
theorem bounded_of_heaviest {len arr : ℕ → I × O → ℕ} {row : ℕ → I → Option O}
    (h : Evolves len arr (fun t => servedOf (len t + arr t) (row t)))
    (hrow : ∀ t, heaviest (len t + arr t) ≤ pairWeight (len t + arr t) (row t)) {W r : ℕ}
    (hr : r < W) (hload : ∀ k, LinesLe (batch arr (k * W) W) r) (t : ℕ) (p : I × O) :
    len t p ≤ ceiling 1 (Fintype.card I) W r (len 0) := by
  have hform : ∀ x y : I × O → ℕ, form 1 x y = ∑ p, x p * y p := fun x y => by
    rw [form, one_mulVec]
    rfl
  refine h.bounded isSymm_one (fun p => by rw [one_apply_eq]) gain_heaviest (fun t => ?_) hr
    (fun k p => ?_) (fun k x => ?_) t p
  · rw [hform, sum_mul_servedOf]
    exact hrow t
  · exact (Finset.single_le_sum (f := fun o => batch arr (k * W) W (p.1, o))
      (fun _ _ => Nat.zero_le _) (mem_univ p.2)).trans ((hload k).left p.1)
  · rw [hform]
    exact sum_mul_le_heaviest (hload k) x

/-! ### Maximal matchings -/

/-- The number of lines that two pairs have in common. -/
def lines : Matrix (I × O) (I × O) ℕ :=
  of fun p q => (if p.1 = q.1 then 1 else 0) + (if p.2 = q.2 then 1 else 0)

omit [Fintype I] [Fintype O] in
theorem isSymm_lines : (lines : Matrix (I × O) (I × O) ℕ).IsSymm :=
  Matrix.IsSymm.ext (fun p q => by simp only [lines, of_apply, eq_comm])

/-- The sum of the two lines of a pair. -/
def lineSum (x : I × O → ℕ) (p : I × O) : ℕ := ∑ o, x (p.1, o) + ∑ i, x (i, p.2)

theorem form_lines (x y : I × O → ℕ) : form lines x y = ∑ p, x p * lineSum y p := by
  unfold lineSum
  rw [form_eq_sum]
  refine sum_congr rfl (fun p _ => ?_)
  rw [← Finset.mul_sum]
  congr 1
  simp only [lines, of_apply, add_mul, sum_add_distrib]
  congr 1
  · rw [Fintype.sum_prod_type, sum_eq_single p.1]
    · simp
    · intro i _ hne
      simp [hne.symm]
    · exact fun hmem => absurd (mem_univ _) hmem
  · rw [Fintype.sum_prod_type_right, sum_eq_single p.2]
    · simp
    · intro o _ hne
      simp [hne.symm]
    · exact fun hmem => absurd (mem_univ _) hmem

omit [DecidableEq I] [DecidableEq O] in
/-- All the packets together. -/
theorem gain_sum : Gain (fun x : I × O → ℕ => ∑ p, x p) (Fintype.card (I × O)) where
  le_add := by
    intro x y c hle
    calc ∑ p, x p ≤ ∑ p, (y p + c) := sum_le_sum (fun p _ => hle p)
      _ = ∑ p, y p + c * Fintype.card (I × O) := by
          rw [sum_add_distrib, sum_const, card_univ, smul_eq_mul, Nat.mul_comm]
  covers := fun x p => Finset.single_le_sum (fun _ _ => Nat.zero_le _) (mem_univ p)

omit [DecidableEq I] in
/-- A pair next to one that is matched and not empty. -/
theorem lineSum_servedOf_pos {x : I × O → ℕ} {row : I → Option O} {i : I} {o : O}
    (hio : row i = some o) (hx : 0 < x (i, o)) {p : I × O} (hline : p.1 = i ∨ p.2 = o) :
    0 < lineSum (servedOf x row) p := by
  have hone : servedOf x row (i, o) = 1 := if_pos ⟨hio, hx⟩
  unfold lineSum
  rcases hline with rfl | rfl
  · have hle := Finset.single_le_sum (f := fun o => servedOf x row (p.1, o))
      (fun _ _ => Nat.zero_le _) (mem_univ o)
    rw [hone] at hle
    omega
  · have hle := Finset.single_le_sum (f := fun i => servedOf x row (i, p.2))
      (fun _ _ => Nat.zero_le _) (mem_univ i)
    rw [hone] at hle
    omega

omit [DecidableEq I] in
/-- Next to every queue that is not empty a maximal matching serves one. -/
theorem lineSum_pos_of_maximal {x : I × O → ℕ} {row : I → Option O} {column : O → Option I}
    (h : MaximalMatching (fun i o => 0 < x (i, o)) row column) {p : I × O} (hp : 0 < x p) :
    0 < lineSum (servedOf x row) p := by
  rcases h.blocked p.1 p.2 hp with hi | ho
  · obtain ⟨o, hio⟩ := Option.ne_none_iff_exists'.mp hi
    exact lineSum_servedOf_pos hio (h.mem p.1 o hio) (.inl rfl)
  · obtain ⟨i, hoi⟩ := Option.ne_none_iff_exists'.mp ho
    have hio := (h.inverse i p.2).mpr hoi
    exact lineSum_servedOf_pos hio (h.mem i p.2 hio) (.inr rfl)

theorem sum_le_form_servedOf {x : I × O → ℕ} {row : I → Option O} {column : O → Option I}
    (h : MaximalMatching (fun i o => 0 < x (i, o)) row column) :
    ∑ p, x p ≤ form lines x (servedOf x row) := by
  rw [form_lines]
  refine sum_le_sum (fun p _ => ?_)
  rcases Nat.eq_zero_or_pos (x p) with hx | hx
  · rw [hx]
    exact Nat.zero_le _
  · exact Nat.le_mul_of_pos_right _ (lineSum_pos_of_maximal h hx)

/-- Maximal matchings keep the queues bounded: in every window of `W` slots at most `r < W` packets
    arrive for a left and a right port together, whichever these are. -/
theorem bounded_of_maximal {len arr : ℕ → I × O → ℕ} {row : ℕ → I → Option O}
    (h : Evolves len arr (fun t => servedOf (len t + arr t) (row t)))
    (hrow : ∀ t, ∃ column, MaximalMatching (fun i o => 0 < (len t + arr t) (i, o)) (row t) column)
    {W r : ℕ} (hr : r < W)
    (hload : ∀ k i o, ∑ o', batch arr (k * W) W (i, o') + ∑ i', batch arr (k * W) W (i', o) ≤ r)
    (t : ℕ) (p : I × O) :
    len t p ≤ ceiling lines (Fintype.card (I × O)) W r (len 0) := by
  refine h.bounded isSymm_lines (fun p => ?_) gain_sum (fun t => ?_) hr (fun k p => ?_)
    (fun k x => ?_) t p
  · simp [lines]
  · obtain ⟨column, hmax⟩ := hrow t
    exact sum_le_form_servedOf hmax
  · have hone : batch arr (k * W) W p ≤ ∑ o, batch arr (k * W) W (p.1, o) :=
      Finset.single_le_sum (f := fun o => batch arr (k * W) W (p.1, o)) (fun _ _ => Nat.zero_le _)
        (mem_univ p.2)
    exact hone.trans ((Nat.le_add_right _ _).trans (hload k p.1 p.2))
  · rw [form_lines, Finset.mul_sum]
    refine sum_le_sum (fun p _ => ?_)
    rw [Nat.mul_comm r]
    exact Nat.mul_le_mul_left _ (hload k p.1 p.2)

/-! ### Draining -/

/-- So does a heaviest matching: otherwise the pair could take the place of what its ports are
    matched to. -/
theorem lineSum_pos_of_heaviest {x : I × O → ℕ} {row : I → Option O} (hrow : IsMatching row)
    (h : ∀ row', IsMatching row' → pairWeight x row' ≤ pairWeight x row) {p : I × O}
    (hp : 0 < x p) : 0 < lineSum (servedOf x row) p := by
  by_contra hnone
  have hline : ∀ i o, row i = some o → p.1 = i ∨ p.2 = o → x (i, o) = 0 := by
    intro i o hio hline
    by_contra hx
    exact hnone (lineSum_servedOf_pos hio (by omega) hline)
  let row' : I → Option O := fun i => if i = p.1 then some p.2 else
    if row i = some p.2 then none else row i
  have hmatching : IsMatching row' := by
    intro i j o hi hj
    simp only [row'] at hi hj
    split_ifs at hi hj with hip hjp hjo hio hjp' hjo'
    · rw [hip, hjp]
    · cases hi
      exact absurd hj hjo
    · cases hj
      exact absurd hi hio
    · exact hrow hi hj
  -- The new pair adds its weight and what it replaces has none.
  have hle : ∀ i, (row i).elim 0 (fun o => x (i, o)) ≤ (row' i).elim 0 (fun o => x (i, o)) := by
    intro i
    cases hi : row i with
    | none => exact Nat.zero_le _
    | some o =>
      simp only [Option.elim_some, row', hi, Option.some.injEq]
      split_ifs with hip ho
      · rw [hline i o hi (.inl hip.symm)]
        exact Nat.zero_le _
      · rw [hline i o hi (.inr ho.symm)]
        exact Nat.zero_le _
      · exact le_rfl
  have hlt : (row p.1).elim 0 (fun o => x (p.1, o)) < (row' p.1).elim 0 (fun o => x (p.1, o)) := by
    have hnew : row' p.1 = some p.2 := if_pos rfl
    rw [hnew, Option.elim_some]
    cases hi : row p.1 with
    | none => exact hp
    | some o =>
      rw [Option.elim_some, hline p.1 o hi (.inl rfl)]
      exact hp
  have hweight : pairWeight x row < pairWeight x row' :=
    sum_lt_sum (fun i _ => hle i) ⟨p.1, mem_univ _, hlt⟩
  exact absurd (h row' hmatching) (Nat.not_le.mpr hweight)

omit [DecidableEq I] [DecidableEq O] in
theorem lineSum_add (x y : I × O → ℕ) (p : I × O) :
    lineSum (x + y) p = lineSum x p + lineSum y p := by
  simp only [lineSum, Pi.add_apply, sum_add_distrib]
  omega

section

variable {len arr srv : ℕ → I × O → ℕ}

omit [DecidableEq I] [DecidableEq O] in
/-- If nothing arrives and next to every queue that is not empty one is served, then a queue is
    empty after as many slots as there are packets in its two lines, less one. -/
theorem Evolves.drained (h : Evolves len arr srv) (harr : ∀ t, arr t = 0)
    (hsrv : ∀ t p, 0 < len t p → 0 < lineSum (srv t) p) {T : ℕ} {p : I × O}
    (hT : lineSum (len 0) p ≤ T + 1) : len T p = 0 := by
  by_contra hne
  have hstep : ∀ t, len (t + 1) + srv t = len t := fun t => by rw [h.step, harr, add_zero]
  -- The queue has never been empty before, so in every slot a packet has left its lines.
  have hless : ∀ t k, len (t + k) p ≤ len t p := by
    intro t k
    induction k with
    | zero => exact le_rfl
    | succ k ih =>
      have hslot : len (t + k + 1) p + srv (t + k) p = len (t + k) p := congrFun (hstep (t + k)) p
      show len (t + k + 1) p ≤ len t p
      omega
  have hpos : ∀ t ≤ T, 0 < len t p := by
    intro t ht
    have hlast := hless t (T - t)
    rw [Nat.add_sub_cancel' ht] at hlast
    omega
  have hlines : ∀ t ≤ T, lineSum (len t) p + t ≤ lineSum (len 0) p := by
    intro t ht
    induction t with
    | zero => exact le_rfl
    | succ t ih =>
      have hserved := hsrv t p (hpos t (by omega))
      have hsplit := lineSum_add (len (t + 1)) (srv t) p
      rw [hstep] at hsplit
      have hold := ih (by omega)
      omega
  have hleft := Finset.single_le_sum (f := fun o => len T (p.1, o)) (fun _ _ => Nat.zero_le _)
    (mem_univ p.2)
  have hright := Finset.single_le_sum (f := fun i => len T (i, p.2)) (fun _ _ => Nat.zero_le _)
    (mem_univ p.1)
  have hlast := hlines T le_rfl
  have hfinal := hpos T le_rfl
  have htwice : 2 * len T p ≤ lineSum (len T) p := by
    rw [two_mul]
    exact Nat.add_le_add hleft hright
  omega

omit [DecidableEq I] [DecidableEq O] in
/-- If nothing arrives and some packet leaves unless all queues are empty, then they are empty after
    as many slots as there are packets. -/
theorem Evolves.drained_of_some (h : Evolves len arr srv) (harr : ∀ t, arr t = 0)
    (hsrv : ∀ t p, 0 < len t p → 0 < ∑ q, srv t q) {T : ℕ} (hT : ∑ q, len 0 q ≤ T) :
    len T = 0 := by
  have hstep : ∀ t, ∑ q, len (t + 1) q + ∑ q, srv t q = ∑ q, len t q := fun t => by
    rw [← sum_add_distrib]
    refine sum_congr rfl (fun q _ => ?_)
    have hq : len (t + 1) q + srv t q = len t q + arr t q := congrFun (h.step t) q
    rw [harr] at hq
    exact hq
  -- Something is served in every step, until nothing is left.
  have htotal : ∀ t, ∑ q, len t q + t ≤ ∑ q, len 0 q ∨ ∑ q, len t q = 0 := by
    intro t
    induction t with
    | zero => exact .inl le_rfl
    | succ t ih =>
      have hslot := hstep t
      rcases ih with hless | hzero
      · by_cases hsome : ∃ p, 0 < len t p
        · obtain ⟨p, hp⟩ := hsome
          have hserved := hsrv t p hp
          exact .inl (by omega)
        · have hzero : ∑ q, len t q = 0 :=
            sum_eq_zero (fun q _ => Nat.eq_zero_of_not_pos (fun hq => hsome ⟨q, hq⟩))
          exact .inr (by omega)
      · exact .inr (by omega)
  have hzero : ∑ q, len T q = 0 := by
    rcases htotal T with hless | hzero
    · omega
    · exact hzero
  funext q
  exact (sum_eq_zero_iff.mp hzero) q (mem_univ q)

end

end SschedSimulator.Foundation
