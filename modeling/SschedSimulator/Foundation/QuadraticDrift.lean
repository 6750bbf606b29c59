import Mathlib.LinearAlgebra.Matrix.DotProduct
import Mathlib.LinearAlgebra.Matrix.Symmetric
import Mathlib.Tactic.Linarith

namespace SschedSimulator.Foundation

open Finset Matrix

/-!
# Stability of queues by a quadratic potential

A family of queues is served slot by slot.  The potential of their lengths `x` is `form b x x`, for
a symmetric matrix `b` of natural numbers, and the service of a slot takes at least `gain` off it.
If the arrivals of a window of `W` slots add at most `r * gain` with `r < W`, then the potential
falls over a window that starts with long queues, and all queues stay below a constant.

* `Evolves` — lengths, arrivals and services of a family of queues;
* `Evolves.slot` and `Evolves.window` — what a slot, and what a window, does to the potential;
* `Evolves.bounded` — no queue exceeds `ceiling`, whatever arrives within the limits.
-/

variable {ι : Type*}

/-- Queues of lengths `len t` at the start of slot `t`, in which `arr t` arrives before `srv t`
    leaves; a queue loses at most one in a slot. -/
structure Evolves (len arr srv : ℕ → ι → ℕ) : Prop where
  step : ∀ t, len (t + 1) + srv t = len t + arr t
  served : ∀ t p, srv t p ≤ 1

/-- The arrivals of the `W` slots from slot `T` on. -/
def batch (arr : ℕ → ι → ℕ) (T W : ℕ) : ι → ℕ := ∑ j ∈ range W, arr (T + j)

section

variable {len arr srv : ℕ → ι → ℕ}

theorem batch_apply (arr : ℕ → ι → ℕ) (T W : ℕ) (p : ι) :
    batch arr T W p = ∑ j ∈ range W, arr (T + j) p := Finset.sum_apply p _ _

theorem arr_le_batch (arr : ℕ → ι → ℕ) {T W j : ℕ} (hj : j < W) : arr (T + j) ≤ batch arr T W := by
  intro p
  rw [batch_apply]
  exact Finset.single_le_sum (f := fun j => arr (T + j) p) (fun _ _ => Nat.zero_le _)
    (mem_range.mpr hj)

/-- A queue grows by no more than what arrives. -/
theorem Evolves.le_add_batch (h : Evolves len arr srv) (T : ℕ) {j W : ℕ} (hj : j ≤ W) :
    len (T + j) ≤ len T + batch arr T W := by
  have hgrow : len (T + j) ≤ len T + batch arr T j := by
    induction j with
    | zero => exact fun p => Nat.le_add_right _ _
    | succ j ih =>
      intro p
      have hstep : len (T + j + 1) p + srv (T + j) p = len (T + j) p + arr (T + j) p :=
        congrFun (h.step (T + j)) p
      have hbatch : batch arr T (j + 1) p = batch arr T j p + arr (T + j) p := by
        rw [batch_apply, batch_apply, sum_range_succ]
      have hih : len (T + j) p ≤ len T p + batch arr T j p := ih (by omega) p
      show len (T + j + 1) p ≤ len T p + batch arr T (j + 1) p
      omega
  intro p
  have hle : batch arr T j p ≤ batch arr T W p := by
    rw [batch_apply, batch_apply]
    exact sum_le_sum_of_subset (range_subset_range.mpr hj)
  exact (hgrow p).trans (Nat.add_le_add_left hle _)

/-- A queue loses at most one in a slot. -/
theorem Evolves.le_add_slots (h : Evolves len arr srv) (T j : ℕ) (p : ι) :
    len T p ≤ len (T + j) p + j := by
  induction j with
  | zero => exact le_refl _
  | succ j ih =>
    have hstep : len (T + j + 1) p + srv (T + j) p = len (T + j) p + arr (T + j) p :=
      congrFun (h.step (T + j)) p
    have hone := h.served (T + j) p
    show len T p ≤ len (T + j + 1) p + (j + 1)
    omega

end

/-! ### The form -/

variable [Fintype ι]

/-- The bilinear form of a matrix. -/
def form (b : Matrix ι ι ℕ) (x y : ι → ℕ) : ℕ := x ⬝ᵥ b *ᵥ y

section

variable {b : Matrix ι ι ℕ}

theorem form_eq_sum (b : Matrix ι ι ℕ) (x y : ι → ℕ) :
    form b x y = ∑ p, ∑ q, x p * (b p q * y q) := by
  simp only [form, dotProduct, mulVec, Finset.mul_sum]

theorem form_add_left (x x' y : ι → ℕ) : form b (x + x') y = form b x y + form b x' y :=
  add_dotProduct x x' _

theorem form_add_right (x y y' : ι → ℕ) : form b x (y + y') = form b x y + form b x y' := by
  rw [form, mulVec_add, dotProduct_add]
  rfl

theorem form_comm (hb : b.IsSymm) (x y : ι → ℕ) : form b x y = form b y x := by
  rw [form, dotProduct_mulVec, ← mulVec_transpose, hb.eq, dotProduct_comm]
  rfl

theorem form_mono {x x' y y' : ι → ℕ} (hx : x ≤ x') (hy : y ≤ y') :
    form b x y ≤ form b x' y' := by
  rw [form_eq_sum, form_eq_sum]
  exact sum_le_sum (fun p _ => sum_le_sum (fun q _ =>
    Nat.mul_le_mul (hx p) (Nat.mul_le_mul_left _ (hy q))))

theorem form_sum_right (x : ι → ℕ) (y : ℕ → ι → ℕ) (k : ℕ) :
    form b x (∑ j ∈ range k, y j) = ∑ j ∈ range k, form b x (y j) := by
  induction k with
  | zero => rw [sum_range_zero, sum_range_zero, form, mulVec_zero, dotProduct_zero]
  | succ k ih => rw [sum_range_succ, sum_range_succ, form_add_right, ih]

/-- The sum of the entries. -/
def mass (b : Matrix ι ι ℕ) : ℕ := ∑ p, ∑ q, b p q

theorem form_le_mass {x y : ι → ℕ} {c d : ℕ} (hx : ∀ p, x p ≤ c) (hy : ∀ p, y p ≤ d) :
    form b x y ≤ c * d * mass b := by
  rw [form_eq_sum, mass, Finset.mul_sum]
  refine sum_le_sum (fun p _ => ?_)
  rw [Finset.mul_sum]
  refine sum_le_sum (fun q _ => ?_)
  calc x p * (b p q * y q) ≤ c * (b p q * d) :=
        Nat.mul_le_mul (hx p) (Nat.mul_le_mul_left _ (hy q))
    _ = c * d * b p q := by ring

/-- With a positive diagonal the potential bounds every entry. -/
theorem le_form_self (hdiag : ∀ p, 1 ≤ b p p) (x : ι → ℕ) (p : ι) : x p ≤ form b x x := by
  rw [form_eq_sum]
  calc x p ≤ x p * (b p p * x p) := by
        rcases Nat.eq_zero_or_pos (x p) with hx | hx
        · rw [hx]
          exact Nat.zero_le _
        · exact Nat.le_mul_of_pos_right _ (Nat.mul_pos (hdiag p) hx)
    _ ≤ ∑ q, x p * (b p q * x q) :=
        Finset.single_le_sum (f := fun q => x p * (b p q * x q)) (fun _ _ => Nat.zero_le _)
          (mem_univ p)
    _ ≤ ∑ p, ∑ q, x p * (b p q * x q) :=
        Finset.single_le_sum (f := fun p => ∑ q, x p * (b p q * x q)) (fun _ _ => Nat.zero_le _)
          (mem_univ p)

end

/-! ### A slot and a window -/

/-- What the service of a slot is worth: `gain x` grows with every queue, and changes by at most
    `K` for each packet that the queues differ by. -/
structure Gain (gain : (ι → ℕ) → ℕ) (K : ℕ) : Prop where
  le_add : ∀ {x y : ι → ℕ} {c : ℕ}, (∀ p, x p ≤ y p + c) → gain x ≤ gain y + c * K
  covers : ∀ x p, x p ≤ gain x

section

variable {b : Matrix ι ι ℕ} {gain : (ι → ℕ) → ℕ} {len arr srv : ℕ → ι → ℕ}

/-- One slot: the service takes twice its worth off the potential. -/
theorem Evolves.slot (h : Evolves len arr srv) (hb : b.IsSymm) (t : ℕ) :
    form b (len (t + 1)) (len (t + 1)) + 2 * form b (len t + arr t) (srv t)
      = form b (len t) (len t) + 2 * form b (len t) (arr t) + form b (arr t) (arr t)
        + form b (srv t) (srv t) := by
  have hleft : form b (len t + arr t) (len t + arr t)
      = form b (len t) (len t) + 2 * form b (len t) (arr t) + form b (arr t) (arr t) := by
    rw [form_add_left, form_add_right, form_add_right, form_comm hb (arr t) (len t)]
    ring
  have hright : form b (len t + arr t) (len t + arr t)
      = form b (len (t + 1)) (len (t + 1)) + 2 * form b (len (t + 1)) (srv t)
        + form b (srv t) (srv t) := by
    rw [← h.step t, form_add_left, form_add_right, form_add_right, form_comm hb (srv t)]
    ring
  have hworth : form b (len t + arr t) (srv t)
      = form b (len (t + 1)) (srv t) + form b (srv t) (srv t) := by
    rw [← h.step t, form_add_left]
  rw [hworth]
  linarith

/-- The first `k` slots from slot `T` on, summed up. -/
theorem Evolves.slots (h : Evolves len arr srv) (hb : b.IsSymm) (T k : ℕ) :
    form b (len (T + k)) (len (T + k))
        + 2 * ∑ j ∈ range k, form b (len (T + j) + arr (T + j)) (srv (T + j))
      = form b (len T) (len T) + 2 * ∑ j ∈ range k, form b (len (T + j)) (arr (T + j))
        + ∑ j ∈ range k, form b (arr (T + j)) (arr (T + j))
        + ∑ j ∈ range k, form b (srv (T + j)) (srv (T + j)) := by
  induction k with
  | zero => simp
  | succ k ih =>
    have hslot := h.slot hb (T + k)
    simp only [sum_range_succ]
    rw [show T + (k + 1) = T + k + 1 from rfl]
    linarith

/-- What a window may add to the potential beside the arrivals at the queues it starts with. -/
def slack (b : Matrix ι ι ℕ) (K W r : ℕ) : ℕ :=
  2 * (W * (W * K)) + 3 * (r * r * mass b) + W * mass b

/-- A window takes `W` times the gain off the potential, up to a constant. -/
theorem Evolves.window (h : Evolves len arr srv) (hb : b.IsSymm) {K : ℕ} (hgain : Gain gain K)
    (hserve : ∀ t, gain (len t + arr t) ≤ form b (len t + arr t) (srv t)) (T : ℕ) {W r : ℕ}
    (hcell : ∀ p, batch arr T W p ≤ r) :
    form b (len (T + W)) (len (T + W)) + 2 * (W * gain (len T))
      ≤ form b (len T) (len T) + 2 * form b (len T) (batch arr T W) + slack b K W r := by
  have hworth : W * gain (len T)
      ≤ ∑ j ∈ range W, form b (len (T + j) + arr (T + j)) (srv (T + j)) + W * (W * K) := by
    have hslot : ∀ j ∈ range W, gain (len T)
        ≤ form b (len (T + j) + arr (T + j)) (srv (T + j)) + W * K := by
      intro j hj
      have hle : gain (len T) ≤ gain (len (T + j) + arr (T + j)) + W * K := by
        refine hgain.le_add (fun p => ?_)
        have hloss := h.le_add_slots T j p
        have hjW := mem_range.mp hj
        show len T p ≤ len (T + j) p + arr (T + j) p + W
        omega
      exact hle.trans (Nat.add_le_add_right (hserve (T + j)) _)
    calc W * gain (len T) = ∑ _j ∈ range W, gain (len T) := by
          rw [sum_const, card_range, smul_eq_mul]
      _ ≤ ∑ j ∈ range W, (form b (len (T + j) + arr (T + j)) (srv (T + j)) + W * K) :=
          sum_le_sum hslot
      _ = _ := by rw [sum_add_distrib, sum_const, card_range, smul_eq_mul]
  have hjoin : ∑ j ∈ range W, form b (len (T + j)) (arr (T + j))
      ≤ form b (len T) (batch arr T W) + r * r * mass b := by
    -- What has arrived in the window meets the later arrivals of the window.
    calc ∑ j ∈ range W, form b (len (T + j)) (arr (T + j))
        ≤ ∑ j ∈ range W, form b (len T + batch arr T W) (arr (T + j)) :=
          sum_le_sum (fun j hj =>
            form_mono (h.le_add_batch T (mem_range.mp hj).le) (le_refl _))
      _ = form b (len T) (batch arr T W) + form b (batch arr T W) (batch arr T W) := by
          rw [← form_sum_right, form_add_left]
          rfl
      _ ≤ _ := Nat.add_le_add_left (form_le_mass hcell hcell) _
  have harr : ∑ j ∈ range W, form b (arr (T + j)) (arr (T + j)) ≤ r * r * mass b := by
    calc ∑ j ∈ range W, form b (arr (T + j)) (arr (T + j))
        ≤ ∑ j ∈ range W, form b (batch arr T W) (arr (T + j)) :=
          sum_le_sum (fun j hj => form_mono (arr_le_batch arr (mem_range.mp hj)) (le_refl _))
      _ = form b (batch arr T W) (batch arr T W) := (form_sum_right _ _ W).symm
      _ ≤ _ := form_le_mass hcell hcell
  have hsrv : ∑ j ∈ range W, form b (srv (T + j)) (srv (T + j)) ≤ W * mass b := by
    calc ∑ j ∈ range W, form b (srv (T + j)) (srv (T + j)) ≤ ∑ _j ∈ range W, 1 * 1 * mass b :=
          sum_le_sum (fun j _ => form_le_mass (h.served _) (h.served _))
      _ = W * mass b := by rw [sum_const, card_range, smul_eq_mul, one_mul, one_mul]
  have hslots := h.slots hb T W
  unfold slack
  linarith

/-! ### All slots -/

/-- What no queue exceeds, for queues that start with the lengths `x`. -/
def ceiling (b : Matrix ι ι ℕ) (K W r : ℕ) (x : ι → ℕ) : ℕ :=
  max (form b x x) (slack b K W r * slack b K W r * mass b + slack b K W r) + r

/-- At the start of every window the potential is bounded. -/
theorem Evolves.form_le (h : Evolves len arr srv) (hb : b.IsSymm) {K : ℕ} (hgain : Gain gain K)
    (hserve : ∀ t, gain (len t + arr t) ≤ form b (len t + arr t) (srv t)) {W r : ℕ} (hr : r < W)
    (hcell : ∀ k p, batch arr (k * W) W p ≤ r)
    (hload : ∀ k x, form b x (batch arr (k * W) W) ≤ r * gain x) (k : ℕ) :
    form b (len (k * W)) (len (k * W)) + r ≤ ceiling b K W r (len 0) := by
  unfold ceiling
  induction k with
  | zero =>
    rw [Nat.zero_mul]
    exact Nat.add_le_add_right (le_max_left _ _) r
  | succ k ih =>
    have hwindow := h.window hb hgain hserve (k * W) (hcell k)
    have hadmit := hload k (len (k * W))
    have hrW : (r + 1) * gain (len (k * W)) ≤ W * gain (len (k * W)) :=
      Nat.mul_le_mul_right _ hr
    rw [Nat.succ_mul]
    rw [Nat.add_mul, Nat.one_mul] at hrW
    by_cases hlong : slack b K W r ≤ gain (len (k * W))
    · -- Long queues: the potential falls.
      omega
    · -- Short queues: it starts low, and grows by the slack at most.
      have hshort : form b (len (k * W)) (len (k * W))
          ≤ slack b K W r * slack b K W r * mass b :=
        form_le_mass (fun p => (hgain.covers _ p).trans (by omega))
          (fun p => (hgain.covers _ p).trans (by omega))
      have hmax := le_max_right (form b (len 0) (len 0))
        (slack b K W r * slack b K W r * mass b + slack b K W r)
      omega

/-- No queue ever exceeds the ceiling. -/
theorem Evolves.bounded (h : Evolves len arr srv) (hb : b.IsSymm) (hdiag : ∀ p, 1 ≤ b p p) {K : ℕ}
    (hgain : Gain gain K)
    (hserve : ∀ t, gain (len t + arr t) ≤ form b (len t + arr t) (srv t)) {W r : ℕ} (hr : r < W)
    (hcell : ∀ k p, batch arr (k * W) W p ≤ r)
    (hload : ∀ k x, form b x (batch arr (k * W) W) ≤ r * gain x) (t : ℕ) (p : ι) :
    len t p ≤ ceiling b K W r (len 0) := by
  have hform := h.form_le hb hgain hserve hr hcell hload (t / W)
  have hentry := le_form_self hdiag (len (t / W * W)) p
  have hgrow : len (t / W * W + t % W) p ≤ len (t / W * W) p + batch arr (t / W * W) W p :=
    h.le_add_batch (t / W * W) (Nat.mod_lt t (by omega)).le p
  have hbatch := hcell (t / W) p
  rw [Nat.div_add_mod'] at hgrow
  omega

end

end SschedSimulator.Foundation
