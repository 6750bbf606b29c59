import Mathlib.Analysis.Convex.DoublyStochasticMatrix
import Mathlib.MeasureTheory.Measure.Real
import Mathlib.MeasureTheory.Measure.Typeclasses.Probability

namespace SschedSimulator.Foundation

open MeasureTheory
open scoped BigOperators

/-!
# Random permutations

A random relation between the elements of a finite type that almost surely is a permutation.  The
probabilities that two elements are related form a doubly stochastic matrix
(`relationMatrix_mem_doublyStochastic`), and scaled by a load they exceed no capacity
(`sum_le_of_mem_doublyStochastic`).
-/

variable {Ω ι : Type*} [MeasurableSpace Ω] [Fintype ι]

/-- Events of which almost surely exactly one happens have total probability one. -/
theorem sum_measureReal_eq_one (μ : Measure Ω) [IsProbabilityMeasure μ] {A : ι → Set Ω}
    (hA : ∀ j, MeasurableSet (A j)) (h : ∀ᵐ ω ∂μ, ∃! j, ω ∈ A j) : ∑ j, μ.real (A j) = 1 := by
  have hdisj : (↑(Finset.univ : Finset ι) : Set ι).Pairwise
      (Function.onFun (AEDisjoint μ) A) := by
    intro j _ k _ hne
    -- Two of them happen together only where more than one does.
    refine measure_eq_zero_iff_ae_notMem.mpr (h.mono fun ω hω hjk => hne ?_)
    exact hω.unique hjk.1 hjk.2
  have hcover : ⋃ j ∈ (Finset.univ : Finset ι), A j =ᵐ[μ] Set.univ := by
    refine Filter.eventuallyEq_univ.mpr (h.mono fun ω hω => ?_)
    obtain ⟨j, hj⟩ := hω.exists
    exact Set.mem_biUnion (Finset.mem_univ j) hj
  rw [← measureReal_biUnion_finset₀ hdisj (fun j _ => (hA j).nullMeasurableSet),
    measureReal_congr hcover, probReal_univ]

/-- The probability that `i` is related to `j`. -/
noncomputable def relationMatrix (μ : Measure Ω) (R : Ω → ι → ι → Prop) : Matrix ι ι ℝ :=
  fun i j => μ.real {ω | R ω i j}

/-- The average of random permutations. -/
theorem relationMatrix_mem_doublyStochastic [DecidableEq ι] (μ : Measure Ω)
    [IsProbabilityMeasure μ] {R : Ω → ι → ι → Prop} (hR : ∀ i j, MeasurableSet {ω | R ω i j})
    (h : ∀ᵐ ω ∂μ, ∃ σ : Equiv.Perm ι, ∀ i j, R ω i j ↔ σ i = j) :
    relationMatrix μ R ∈ doublyStochastic ℝ ι := by
  rw [mem_doublyStochastic_iff_sum]
  refine ⟨fun i j => measureReal_nonneg, fun i => ?_, fun j => ?_⟩
  · apply sum_measureReal_eq_one μ (hR i)
    filter_upwards [h] with ω hω
    obtain ⟨σ, hσ⟩ := hω
    exact ⟨σ i, (hσ i _).mpr rfl, fun j hj => ((hσ i j).mp hj).symm⟩
  · apply sum_measureReal_eq_one μ (fun i => hR i j)
    filter_upwards [h] with ω hω
    obtain ⟨σ, hσ⟩ := hω
    refine ⟨σ.symm j, (hσ _ j).mpr (σ.apply_symm_apply j), fun i hi => ?_⟩
    rw [← (hσ i j).mp hi, σ.symm_apply_apply]

/-- With a load of at most one, no row and no column of the scaled matrix exceeds one. -/
theorem sum_le_of_mem_doublyStochastic [DecidableEq ι] {M : Matrix ι ι ℝ}
    (hM : M ∈ doublyStochastic ℝ ι) {load : ℝ} (hload : load ≤ 1) :
    (∀ i, ∑ j, load * M i j ≤ 1) ∧ ∀ j, ∑ i, load * M i j ≤ 1 := by
  obtain ⟨-, hrow, hcol⟩ := mem_doublyStochastic_iff_sum.mp hM
  refine ⟨fun i => ?_, fun j => ?_⟩
  · rw [← Finset.mul_sum, hrow i, mul_one]
    exact hload
  · rw [← Finset.mul_sum, hcol j, mul_one]
    exact hload

end SschedSimulator.Foundation
