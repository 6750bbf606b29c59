import Mathlib.Algebra.BigOperators.Group.List.Lemmas
import Mathlib.Algebra.Order.BigOperators.Group.List
import Mathlib.Algebra.Order.Field.Basic
import Mathlib.Algebra.Order.Field.Rat
import Mathlib.Tactic.FieldSimp
import Mathlib.Tactic.Linarith
import Mathlib.Tactic.Positivity
import Mathlib.Tactic.Ring

namespace SschedSimulator

/-!
# `stats.hpp` — the summary of a sequence of samples

Sums and extremes are kept while samples come in; the mean and the variance go through caches.  The
arithmetic is exact.  The running maximum starts at `std::numeric_limits<double>::min()`, which is
the smallest positive double and not the lowest one.

* `Summarises` — what the fields hold after a sequence of samples; every call keeps it;
* `Summarises.average_eq`, `Summarises.variance_eq`, `Summarises.isLeast_min` — the queries;
* `reportsSummary_iff` — the report is the true summary exactly if some sample is not below that
  start value.
-/

/-- `std::numeric_limits<double>::max()`. -/
def doubleMax : ℚ := (2 ^ 53 - 1) * 2 ^ 971

/-- `std::numeric_limits<double>::min()`: the smallest normal positive value. -/
def doubleMin : ℚ := 1 / 2 ^ 1022

theorem doubleMin_pos : 0 < doubleMin := one_div_pos.mpr (pow_pos two_pos 1022)

theorem doubleMin_le_one : doubleMin ≤ 1 :=
  (div_le_one (pow_pos two_pos 1022)).mpr (one_le_pow₀ one_le_two)

/-- A finite value of type `double`. -/
structure DoubleSample where
  val : ℚ
  abs_le : |val| ≤ doubleMax

/-- The conversion in `add_sample(int)`. -/
def DoubleSample.ofInt (val : ℤ) (h : |val| ≤ 2 ^ 31) : DoubleSample where
  val := val
  abs_le := by
    have hval : |(val : ℚ)| ≤ 2 ^ 31 := by exact_mod_cast h
    have hmantissa : (2 ^ 31 : ℚ) ≤ 2 ^ 53 - 1 := by norm_num
    have hexponent : (1 : ℚ) ≤ 2 ^ 971 := one_le_pow₀ one_le_two
    exact hval.trans (hmantissa.trans (le_mul_of_one_le_right (by norm_num) hexponent))

/-- The fields of `Stats` that belong to the samples; a cache holds a number of samples and the
    result for it. -/
structure Stats where
  numSamples : ℕ
  sampleSum : ℚ
  sampleSquaredSum : ℚ
  min : ℚ
  max : ℚ
  averageCache : ℕ × ℚ
  varianceCache : ℕ × ℚ

namespace Stats

/-- The initial values of the fields. -/
def construct : Stats where
  numSamples := 0
  sampleSum := 0
  sampleSquaredSum := 0
  min := doubleMax
  max := doubleMin
  averageCache := (0, 0)
  varianceCache := (0, 0)

/-- `average()`; `none` is a quiet NaN. -/
def average (st : Stats) : Option ℚ × Stats :=
  if st.numSamples = 0 then (none, st)
  else if st.averageCache.1 ≠ st.numSamples then
    -- the number of samples in the cache is not written
    (some (st.sampleSum / st.numSamples),
      { st with averageCache := (st.averageCache.1, st.sampleSum / st.numSamples) })
  else (some st.averageCache.2, st)

/-- `variance()`. -/
def variance (st : Stats) : Option ℚ × Stats :=
  if st.numSamples = 0 then (none, st)
  else if st.varianceCache.1 ≠ st.numSamples then
    match st.average with
    | (none, st) => (none, st)
    | (some avg, st) =>
      let value := st.sampleSquaredSum / st.numSamples + avg * avg
        - 2 * avg * st.sampleSum / st.numSamples
      (some value, { st with varianceCache := (st.varianceCache.1, value) })
  else (some st.varianceCache.2, st)

/-- `add_sample`. -/
def addSample (val : ℚ) (st : Stats) : Stats :=
  { st with
    numSamples := st.numSamples + 1
    sampleSum := st.sampleSum + val
    sampleSquaredSum := st.sampleSquaredSum + val * val
    max := if val > st.max then val else st.max
    min := if val < st.min then val else st.min }

/-- `reset()`. -/
def reset (st : Stats) : Stats :=
  { st with
    numSamples := 0
    sampleSum := 0
    sampleSquaredSum := 0
    averageCache := (0, 0)
    varianceCache := (0, 0)
    min := doubleMax
    max := doubleMin }

/-- The public calls. -/
inductive Call where
  | addSample (sample : DoubleSample)
  | average
  | variance
  | min
  | max
  | reset

/-- What a call leaves behind. -/
def Call.run : Call → Stats → Stats
  | .addSample sample, st => st.addSample sample.val
  | .average, st => st.average.2
  | .variance, st => st.variance.2
  | .min, st => st
  | .max, st => st
  | .reset, st => st.reset

/-- The state after the calls. -/
def run (calls : List Call) : Stats := calls.foldl (fun st call => call.run st) construct

/-! ### The summary -/

/-- The samples that a call leaves, of those since the last reset. -/
def Call.collect : Call → List DoubleSample → List DoubleSample
  | .addSample sample, s => s ++ [sample]
  | .reset, _ => []
  | _, s => s

/-- The samples since the construction or the last reset. -/
def samples (calls : List Call) : List ℚ :=
  (calls.foldl (fun s call => call.collect s) []).map DoubleSample.val

/-- The mean of the samples. -/
def mean (s : List ℚ) : ℚ := s.sum / s.length

/-- The mean squared distance from the mean. -/
def populationVariance (s : List ℚ) : ℚ := (s.map (fun v => (v - mean s) ^ 2)).sum / s.length

/-- The queries return the true summary of the samples. -/
structure ReportsSummary (st : Stats) (s : List ℚ) : Prop where
  average : st.average.1 = some (mean s)
  variance : st.variance.1 = some (populationVariance s)
  variance_nonneg : ∀ v, st.variance.1 = some v → 0 ≤ v
  min : IsLeast {v | v ∈ s} st.min
  max : IsGreatest {v | v ∈ s} st.max

/-- What the fields hold after the samples `s`: the extremes take the start values into account,
    and no cache is ever valid. -/
structure Summarises (st : Stats) (s : List ℚ) : Prop where
  numSamples : st.numSamples = s.length
  sampleSum : st.sampleSum = s.sum
  sampleSquaredSum : st.sampleSquaredSum = (s.map (fun v => v ^ 2)).sum
  min : IsLeast {v | v = doubleMax ∨ v ∈ s} st.min
  max : IsGreatest {v | v = doubleMin ∨ v ∈ s} st.max
  averageCache : st.averageCache.1 = 0
  varianceCache : st.varianceCache.1 = 0

/-! ### The calls -/

theorem summarises_construct : Summarises construct [] where
  numSamples := rfl
  sampleSum := rfl
  sampleSquaredSum := rfl
  min := by simp [construct]
  max := by simp [construct]
  averageCache := rfl
  varianceCache := rfl

/-- A reset leaves the initial values, whatever happened before. -/
theorem summarises_reset (st : Stats) : Summarises st.reset [] := summarises_construct

variable {st : Stats} {s : List ℚ}

theorem extremes_append (start val : ℚ) (s : List ℚ) :
    {v | v = start ∨ v ∈ s ++ [val]} = insert val {v | v = start ∨ v ∈ s} := by
  ext v
  simp only [List.mem_append, List.mem_singleton, Set.mem_ofPred_eq, Set.mem_insert_iff]
  tauto

/-- One more sample. -/
theorem Summarises.addSample (h : Summarises st s) (val : ℚ) :
    Summarises (st.addSample val) (s ++ [val]) where
  numSamples := by simp [Stats.addSample, h.numSamples]
  sampleSum := by simp [Stats.addSample, h.sampleSum]
  sampleSquaredSum := by simp [Stats.addSample, h.sampleSquaredSum, sq]
  min := by
    have hmin := h.min.insert val
    rw [min_def_lt] at hmin
    rwa [extremes_append]
  max := by
    have hmax := h.max.insert val
    rw [max_comm, max_def_lt] at hmax
    rwa [extremes_append]
  averageCache := h.averageCache
  varianceCache := h.varianceCache

/-- The mean is computed from the sums, whatever was asked before. -/
theorem Summarises.average_eq (h : Summarises st s) (hs : s ≠ []) :
    st.average.1 = some (mean s) ∧ Summarises st.average.2 s := by
  have hlen : s.length ≠ 0 := fun he => hs (List.length_eq_zero_iff.mp he)
  have hnum : st.numSamples ≠ 0 := h.numSamples ▸ hlen
  have hcache : st.averageCache.1 ≠ st.numSamples := by
    rw [h.averageCache]
    exact hnum.symm
  rw [average, if_neg hnum, if_pos hcache]
  refine ⟨?_, { h with averageCache := h.averageCache }⟩
  rw [mean, h.sampleSum, h.numSamples]

/-- The squared distances from any point, from the sums. -/
theorem sum_sq_sub (c : ℚ) (s : List ℚ) :
    (s.map (fun v => (v - c) ^ 2)).sum
      = (s.map (fun v => v ^ 2)).sum - 2 * c * s.sum + s.length * c ^ 2 := by
  induction s with
  | nil => simp
  | cons v rest ih =>
    simp only [List.map_cons, List.sum_cons, List.length_cons, ih]
    push_cast
    ring

/-- The formula of `variance()` is the population variance. -/
theorem populationVariance_eq (hs : s ≠ []) :
    populationVariance s = (s.map (fun v => v ^ 2)).sum / s.length + mean s * mean s
      - 2 * mean s * s.sum / s.length := by
  have hlen : (s.length : ℚ) ≠ 0 :=
    Nat.cast_ne_zero.mpr (fun he => hs (List.length_eq_zero_iff.mp he))
  rw [populationVariance, sum_sq_sub]
  field_simp
  ring

theorem populationVariance_nonneg (s : List ℚ) : 0 ≤ populationVariance s := by
  apply div_nonneg _ (Nat.cast_nonneg _)
  apply List.sum_nonneg
  intro v hv
  obtain ⟨w, -, rfl⟩ := List.mem_map.mp hv
  exact sq_nonneg _

theorem Summarises.variance_eq (h : Summarises st s) (hs : s ≠ []) :
    st.variance.1 = some (populationVariance s) ∧ Summarises st.variance.2 s := by
  have hlen : s.length ≠ 0 := fun he => hs (List.length_eq_zero_iff.mp he)
  have hnum : st.numSamples ≠ 0 := h.numSamples ▸ hlen
  have hcache : st.varianceCache.1 ≠ st.numSamples := by
    rw [h.varianceCache]
    exact hnum.symm
  obtain ⟨havg, hst⟩ := h.average_eq hs
  rw [variance, if_neg hnum, if_pos hcache]
  generalize st.average = answer at havg hst ⊢
  obtain ⟨avg, st'⟩ := answer
  obtain rfl : avg = some (mean s) := havg
  refine ⟨?_, { hst with varianceCache := hst.varianceCache }⟩
  rw [populationVariance_eq hs, ← hst.sampleSquaredSum, ← hst.sampleSum, ← hst.numSamples]

/-- No sample exceeds the start value of the minimum. -/
theorem Summarises.isLeast_min (h : Summarises st s) (hs : s ≠ []) (hle : ∀ v ∈ s, v ≤ doubleMax) :
    IsLeast {v | v ∈ s} st.min := by
  obtain ⟨hmem, hlower⟩ := h.min
  refine ⟨?_, fun v hv => hlower (.inr hv)⟩
  rcases hmem with hstart | hmem
  · -- The minimum is the start value only if all samples are.
    obtain ⟨v, hv⟩ := List.exists_mem_of_ne_nil s hs
    have heq : v = st.min := le_antisymm ((hle v hv).trans hstart.ge) (hlower (.inr hv))
    exact heq ▸ hv
  · exact hmem

/-- The maximum is right exactly if some sample is not below its start value. -/
theorem Summarises.isGreatest_max_iff (h : Summarises st s) :
    IsGreatest {v | v ∈ s} st.max ↔ ∃ v ∈ s, doubleMin ≤ v := by
  obtain ⟨hmem, hupper⟩ := h.max
  constructor
  · intro hmax
    exact ⟨st.max, hmax.1, hupper (.inl rfl)⟩
  · rintro ⟨v, hv, hle⟩
    refine ⟨?_, fun w hw => hupper (.inr hw)⟩
    rcases hmem with hstart | hmem
    · have heq : v = st.max := le_antisymm (hupper (.inr hv)) (hstart.le.trans hle)
      exact heq ▸ hv
    · exact hmem

/-! ### Runs -/

/-- Without samples the queries change nothing. -/
theorem Summarises.query_nil (h : Summarises st []) : st.average.2 = st ∧ st.variance.2 = st := by
  have hnum : st.numSamples = 0 := h.numSamples
  rw [average, variance, if_pos hnum, if_pos hnum]
  exact ⟨rfl, rfl⟩

/-- One call. -/
theorem Summarises.run {s : List DoubleSample} (h : Summarises st (s.map DoubleSample.val))
    (call : Call) : Summarises (call.run st) ((call.collect s).map DoubleSample.val) := by
  have hquery : Summarises st.average.2 (s.map DoubleSample.val) ∧
      Summarises st.variance.2 (s.map DoubleSample.val) := by
    by_cases hs : s.map DoubleSample.val = []
    · rw [hs] at h ⊢
      rw [h.query_nil.1, h.query_nil.2]
      exact ⟨h, h⟩
    · exact ⟨(h.average_eq hs).2, (h.variance_eq hs).2⟩
  cases call with
  | addSample sample =>
    simp only [Call.collect, List.map_append, List.map_cons, List.map_nil]
    exact h.addSample sample.val
  | average => exact hquery.1
  | variance => exact hquery.2
  | min => exact h
  | max => exact h
  | reset => exact summarises_reset st

/-- All calls. -/
theorem summarises_run (calls : List Call) : Summarises (run calls) (samples calls) := by
  unfold run samples
  induction calls using List.reverseRecOn with
  | nil => exact summarises_construct
  | append_singleton calls call ih =>
    rw [List.foldl_concat, List.foldl_concat]
    exact ih.run call

theorem le_doubleMax_of_mem {calls : List Call} {v : ℚ} (hv : v ∈ samples calls) :
    v ≤ doubleMax := by
  obtain ⟨sample, -, rfl⟩ := List.mem_map.mp hv
  exact (le_abs_self _).trans sample.abs_le

/-- For every sequence of calls with a sample since the last reset: mean, variance and minimum are
    right, and the maximum is if some sample is at least the smallest positive double. -/
theorem reportsSummary_iff (calls : List Call) (h : samples calls ≠ []) :
    ReportsSummary (run calls) (samples calls) ↔ ∃ v ∈ samples calls, doubleMin ≤ v := by
  have hsum := summarises_run calls
  obtain ⟨hvar, -⟩ := hsum.variance_eq h
  rw [← hsum.isGreatest_max_iff]
  constructor
  · exact fun hreport => hreport.max
  · intro hmax
    exact {
      average := (hsum.average_eq h).1
      variance := hvar
      variance_nonneg := fun v hv => by
        obtain rfl := Option.some.inj (hvar.symm.trans hv)
        exact populationVariance_nonneg _
      min := hsum.isLeast_min h (fun v => le_doubleMax_of_mem)
      max := hmax }

/-- Samples before a reset do not count; afterwards one of two is positive. -/
theorem reportsSummary_after_reset :
    ReportsSummary
      (run [.addSample (.ofInt 7 (by decide)), .max, .reset, .addSample (.ofInt (-3) (by decide)),
        .average, .variance, .addSample (.ofInt 5 (by decide)), .average])
      (samples [.addSample (.ofInt 7 (by decide)), .max, .reset,
        .addSample (.ofInt (-3) (by decide)), .average, .variance,
        .addSample (.ofInt 5 (by decide)), .average]) := by
  apply (reportsSummary_iff _ ?_).mpr
  · refine ⟨5, by simp [samples, Call.collect, DoubleSample.ofInt], ?_⟩
    exact doubleMin_le_one.trans (by norm_num)
  · simp [samples, Call.collect]

/-- A single sample `0` is reported with the maximum `2 ^ (-1022)`. -/
theorem not_reportsSummary_zero :
    samples [.addSample (.ofInt 0 (by decide))] = [0] ∧
      (run [.addSample (.ofInt 0 (by decide))]).max = 1 / 2 ^ 1022 ∧
      ¬ ∀ calls : List Call, samples calls ≠ [] → ReportsSummary (run calls) (samples calls) := by
  have hsamples : samples [.addSample (.ofInt 0 (by decide))] = [0] := by
    simp [samples, Call.collect, DoubleSample.ofInt]
  refine ⟨hsamples, ?_, fun hall => ?_⟩
  · show (if ((0 : ℤ) : ℚ) > doubleMin then ((0 : ℤ) : ℚ) else doubleMin) = _
    rw [Int.cast_zero, if_neg (not_lt.mpr doubleMin_pos.le)]
    rfl
  · have hreport := hall [.addSample (.ofInt 0 (by decide))] (by rw [hsamples]; simp)
    obtain ⟨v, hv, hle⟩ := (summarises_run _).isGreatest_max_iff.mp hreport.max
    rw [hsamples, List.mem_singleton] at hv
    rw [hv] at hle
    exact absurd hle (not_le.mpr doubleMin_pos)

end Stats

end SschedSimulator
