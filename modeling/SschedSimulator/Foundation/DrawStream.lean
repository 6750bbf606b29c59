import Mathlib.MeasureTheory.Measure.Lebesgue.Basic
import Mathlib.Probability.ConditionalProbability
import Mathlib.Probability.Independence.InfinitePi

namespace SschedSimulator.Foundation

open MeasureTheory ProbabilityTheory
open scoped BigOperators

/-!
# Streams of independent draws

* `uniformDraw` — a number drawn uniformly from `[0, len)`;
* `drawStream` — independent draws with one law; what follows the first draw is again such a
  stream (`drawStream_head_tail`).
-/

/-! ### A uniform draw -/

/-- Uniform on `[0, len)`. -/
noncomputable def uniformDraw (len : ℝ) : Measure ℝ := cond volume (Set.Ico 0 len)

/-- A draw is from a distribution. -/
theorem isProbabilityMeasure_uniformDraw {len : ℝ} (hlen : 0 < len) :
    IsProbabilityMeasure (uniformDraw len) := by
  have hvol : volume (Set.Ico (0 : ℝ) len) = ENNReal.ofReal len := by
    rw [Real.volume_Ico, sub_zero]
  apply cond_isProbabilityMeasure_of_finite
  · rw [hvol]
    exact (ENNReal.ofReal_pos.mpr hlen).ne'
  · rw [hvol]
    exact ENNReal.ofReal_ne_top

instance : IsProbabilityMeasure (uniformDraw 1) := isProbabilityMeasure_uniformDraw one_pos

/-- A draw is in the interval. -/
theorem ae_mem_uniformDraw (len : ℝ) : ∀ᵐ c ∂uniformDraw len, c ∈ Set.Ico 0 len :=
  ae_cond_mem measurableSet_Ico

/-- The probability to stay below a threshold in the range. -/
theorem uniformDraw_real_lt {a : ℝ} (h0 : 0 ≤ a) (h1 : a ≤ 1) :
    (uniformDraw 1).real {c | c < a} = a := by
  have hinter : Set.Ico (0 : ℝ) 1 ∩ {c | c < a} = Set.Ico 0 a := by
    ext c
    simp only [Set.mem_inter_iff, Set.mem_Ico]
    constructor
    · rintro ⟨⟨hc, -⟩, hlt⟩
      exact ⟨hc, hlt⟩
    · rintro ⟨hc, hlt⟩
      exact ⟨⟨hc, hlt.trans_le h1⟩, hlt⟩
  rw [measureReal_def, uniformDraw, cond_apply measurableSet_Ico, hinter, Real.volume_Ico,
    Real.volume_Ico, sub_zero, sub_zero, ENNReal.ofReal_one, inv_one, one_mul,
    ENNReal.toReal_ofReal h0]

/-! ### Streams -/

variable {α : Type*} [MeasurableSpace α] (μ : Measure α) [IsProbabilityMeasure μ]

/-- Independent draws with the law `μ`. -/
noncomputable def drawStream : Measure (ℕ → α) := Measure.infinitePi (fun _ => μ)

instance : IsProbabilityMeasure (drawStream μ) := by
  unfold drawStream
  infer_instance

/-- The draws after the first. -/
def rest (ω : ℕ → α) : ℕ → α := fun k => ω (k + 1)

theorem measurable_rest : Measurable (rest : (ℕ → α) → ℕ → α) :=
  measurable_pi_lambda _ (fun k => measurable_pi_apply (k + 1))

theorem measurableSet_head {A : Set α} (hA : MeasurableSet A) :
    MeasurableSet {ω : ℕ → α | ω 0 ∈ A} := measurable_pi_apply 0 hA

/-- The first draw in a set and the following ones in a box. -/
theorem drawStream_box {A : Set α} (hA : MeasurableSet A) (s : Finset ℕ) {t : ℕ → Set α}
    (ht : ∀ k, MeasurableSet (t k)) :
    drawStream μ ({ω | ω 0 ∈ A} ∩ Set.preimage rest (Set.pi s t)) = μ A * ∏ k ∈ s, μ (t k) := by
  let u : ℕ → Set α := fun k => Nat.casesOn k A t
  have hu : ∀ k, MeasurableSet (u k) := by
    intro k
    cases k with
    | zero => exact hA
    | succ k => exact ht k
  have hbox : {ω : ℕ → α | ω 0 ∈ A} ∩ Set.preimage rest (Set.pi s t)
      = Set.pi (insert 0 (s.map (addRightEmbedding 1)) : Finset ℕ) u := by
    ext ω
    simp [u, rest, Set.mem_pi]
  have hzero : 0 ∉ s.map (addRightEmbedding 1) := by simp
  rw [hbox, drawStream, Measure.infinitePi_pi _ (fun k _ => hu k), Finset.prod_insert hzero,
    Finset.prod_map]
  rfl

/-- The draws after the first are a stream that does not depend on the first. -/
theorem drawStream_head_tail {A : Set α} (hA : MeasurableSet A) {E : Set (ℕ → α)}
    (hE : MeasurableSet E) :
    drawStream μ ({ω | ω 0 ∈ A} ∩ Set.preimage rest E) = μ A * drawStream μ E := by
  have hhead := measurableSet_head hA
  by_cases hzero : μ A = 0
  · -- The first draw is almost never in the set.
    have hnull : drawStream μ {ω : ℕ → α | ω 0 ∈ A} = 0 := by
      have hbox := drawStream_box μ hA ∅ (fun _ => MeasurableSet.univ)
      simpa [hzero] using hbox
    rw [hzero, zero_mul]
    exact measure_mono_null Set.inter_subset_left hnull
  · -- Conditioned on the first draw, the rest has the law of the stream on every box.
    have hfinite : μ A ≠ ⊤ := measure_ne_top μ A
    have hlaw : (μ A)⁻¹ • ((drawStream μ).restrict {ω | ω 0 ∈ A}).map rest = drawStream μ := by
      apply Measure.eq_infinitePi
      intro s t ht
      have hpi : MeasurableSet (Set.pi (s : Set ℕ) t) :=
        MeasurableSet.pi s.countable_toSet (fun k _ => ht k)
      rw [Measure.smul_apply, Measure.map_apply measurable_rest hpi,
        Measure.restrict_apply' hhead, Set.inter_comm, drawStream_box μ hA s ht, smul_eq_mul,
        ← mul_assoc, ENNReal.inv_mul_cancel hzero hfinite, one_mul]
    have hcond := congrArg (fun ν : Measure (ℕ → α) => ν E) hlaw
    simp only [Measure.smul_apply, Measure.map_apply measurable_rest hE,
      Measure.restrict_apply' hhead, smul_eq_mul] at hcond
    rw [← hcond, ← mul_assoc, ENNReal.mul_inv_cancel hzero hfinite, one_mul, Set.inter_comm]

/-- The first draw is independent of the others. -/
theorem drawStream_real_head_tail {A : Set α} (hA : MeasurableSet A) {E : Set (ℕ → α)}
    (hE : MeasurableSet E) :
    (drawStream μ).real ({ω | ω 0 ∈ A} ∩ Set.preimage rest E)
      = μ.real A * (drawStream μ).real E := by
  rw [measureReal_def, drawStream_head_tail μ hA hE, ENNReal.toReal_mul]
  rfl

/-- The first draw has the law `μ`. -/
theorem drawStream_real_head {A : Set α} (hA : MeasurableSet A) :
    (drawStream μ).real {ω | ω 0 ∈ A} = μ.real A := by
  have h := drawStream_real_head_tail μ hA MeasurableSet.univ
  rwa [Set.preimage_univ, Set.inter_univ, probReal_univ, mul_one] at h

end SschedSimulator.Foundation
