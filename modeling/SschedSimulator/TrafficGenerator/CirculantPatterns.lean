import SschedSimulator.Foundation.DrawStream
import SschedSimulator.Foundation.RandomPermutation

namespace SschedSimulator

open Foundation MeasureTheory
open scoped BigOperators

/-!
# The diagonal, quasi-diagonal and log-diagonal traffic patterns

A pattern draws a number and sends the packet of a source that many ports further, around the
circle of all ports.  Under one draw the destinations of all sources are a permutation, so on
average every output gets the same load.

* `CirculantPattern.destination` — the three patterns, in exact arithmetic;
* `exists_offset` — the offset of a draw is the same for all sources;
* `loadsEqually_iff` — the draws that give a permutation and the patterns that load the outputs
  equally: all but the quasi-diagonal one for a single port, which may run into its assertion.
-/

/-- The assertion of the quasi-diagonal and the log-diagonal pattern. -/
inductive TrafficFault where
  /-- `assert(false)` behind the loop of `destination` -/
  | notReached
  deriving DecidableEq, Repr

section

variable {K : Type*} [Field K] [LinearOrder K]

/-- The check of the source that all patterns begin with. -/
def fromSource (numNodes : ℕ) (source : ℤ) (destination : Except TrafficFault ℤ) :
    Except TrafficFault ℤ :=
  if source < 0 ∨ source ≥ numNodes then .ok (-1) else destination

/-- `DiagonalTrafficPattern::destination`, for the draw `c` from `[0, 1)`. -/
def diagonalDestination (numNodes : ℕ) (c : K) (source : ℤ) : Except TrafficFault ℤ :=
  fromSource numNodes source
    (if c < 2 / 3 then .ok source else .ok ((source + 1) % numNodes))

/-- The loop of `QuasiDiagonalTrafficPattern::destination`, with `left` values of `j` to come. -/
def quasiDiagonalLoop (numNodes : ℕ) (c q : K) (source : ℤ) : ℕ → ℕ → K →
    Except TrafficFault ℤ
  | 0, _, _ => .error .notReached
  | left + 1, j, h =>
    if c < (h + q) * numNodes then .ok ((source + j) % numNodes)
    else quasiDiagonalLoop numNodes c q source left (j + 1) (h + q)

/-- `QuasiDiagonalTrafficPattern::destination`, for the draw `c` from `[0, num_nodes)`. -/
def quasiDiagonalDestination (numNodes : ℕ) (c : K) (source : ℤ) : Except TrafficFault ℤ :=
  fromSource numNodes source
    (if c < 1 / 2 * numNodes then .ok source
    else quasiDiagonalLoop numNodes c (1 / ((numNodes - 1) * 2)) source (numNodes - 1) 1 (1 / 2))

/-- `_exact_max_const`. -/
def exactMaxConst : ℕ := 30

/-- `_diagonal_prob`. -/
def diagonalProb (numNodes : ℕ) : K :=
  if numNodes ≤ exactMaxConst then 2 ^ (numNodes - 1) * 1 / (2 ^ numNodes - 1) else 1 / 2

/-- The entries that the loop of the constructor appends. -/
def constantProbLoop : ℕ → K → K → List K
  | 0, _, _ => []
  | left + 1, prob, cumProb =>
    cumProb :: constantProbLoop left (prob * (1 / 2)) (cumProb + prob * (1 / 2))

/-- `_constant_prob`. -/
def constantProb (numNodes : ℕ) : List K :=
  constantProbLoop (min numNodes (exactMaxConst - 1)) (diagonalProb numNodes)
    (diagonalProb numNodes) ++ [1]

/-- The loop of `LogDiagonalTrafficPattern::destination`. -/
def logDiagonalLoop (numNodes : ℕ) (c : K) (source : ℤ) : List K → ℕ → Except TrafficFault ℤ
  | [], _ => .error .notReached
  | p :: rest, cnt =>
    if c < p then .ok ((source + cnt) % numNodes)
    else logDiagonalLoop numNodes c source rest (cnt + 1)

/-- `LogDiagonalTrafficPattern::destination`, for the draw `c` from `[0, 1)`. -/
def logDiagonalDestination (numNodes : ℕ) (c : K) (source : ℤ) : Except TrafficFault ℤ :=
  fromSource numNodes source (logDiagonalLoop numNodes c source (constantProb numNodes) 0)

/-- The patterns that shift all sources by the same offset. -/
inductive CirculantPattern where
  | diagonal
  | quasiDiagonal
  | logDiagonal
  deriving DecidableEq, Repr

namespace CirculantPattern

/-- The end of the range of `_distribution`, which begins at `0`. -/
def range : CirculantPattern → ℕ → K
  | diagonal, _ => 1
  | quasiDiagonal, numNodes => numNodes
  | logDiagonal, _ => 1

/-- `destination`. -/
def destination : CirculantPattern → ℕ → K → ℤ → Except TrafficFault ℤ
  | diagonal => diagonalDestination
  | quasiDiagonal => quasiDiagonalDestination
  | logDiagonal => logDiagonalDestination

end CirculantPattern

/-- All sources are sent to ports in range, and no two to the same one. -/
def Permutes (numNodes : ℕ) (destination : ℤ → Except TrafficFault ℤ) : Prop :=
  ∃ σ : Equiv.Perm (Fin numNodes), ∀ i : Fin numNodes, destination (i : ℕ) = .ok ((σ i : ℕ) : ℤ)

/-! ### The offset of a draw -/

/-- The sources are shifted by `k`. -/
def Shifts (numNodes : ℕ) (k : ℕ) (destination : ℤ → Except TrafficFault ℤ) : Prop :=
  ∀ source : ℕ, source < numNodes → destination source = .ok ((source + k : ℤ) % numNodes)

/-- A shift around the circle is a permutation. -/
theorem Shifts.permutes {numNodes k : ℕ} {destination : ℤ → Except TrafficFault ℤ}
    (h : Shifts numNodes k destination) (hn : 1 ≤ numNodes) : Permutes numNodes destination := by
  have : NeZero numNodes := ⟨by omega⟩
  refine ⟨Equiv.addRight (Fin.ofNat numNodes k), fun i => ?_⟩
  rw [h i i.isLt]
  have hval : ((i + Fin.ofNat numNodes k : Fin numNodes) : ℕ) = (i + k) % numNodes := by
    rw [Fin.val_add, Fin.val_ofNat, Nat.add_mod_mod]
  show Except.ok _ = Except.ok (((i + Fin.ofNat numNodes k : Fin numNodes) : ℕ) : ℤ)
  rw [hval]
  push_cast
  rfl

theorem fromSource_of_lt {numNodes source : ℕ} (h : source < numNodes)
    (destination : Except TrafficFault ℤ) :
    fromSource numNodes source destination = destination :=
  if_neg (by omega)

/-- A source itself is a shift by nothing. -/
theorem emod_self_of_lt {numNodes source : ℕ} (h : source < numNodes) :
    (source : ℤ) = (source + (0 : ℕ) : ℤ) % numNodes := by
  rw [Nat.cast_zero, add_zero, Int.emod_eq_of_lt (by omega) (by omega)]

theorem exists_shifts_diagonal (numNodes : ℕ) (c : K) :
    ∃ k, Shifts numNodes k (diagonalDestination numNodes c) := by
  by_cases hc : c < 2 / 3
  · refine ⟨0, fun source hs => ?_⟩
    rw [diagonalDestination, fromSource_of_lt hs, if_pos hc, ← emod_self_of_lt hs]
  · refine ⟨1, fun source hs => ?_⟩
    rw [diagonalDestination, fromSource_of_lt hs, if_neg hc]
    rfl

omit [Field K] in
/-- A table with an entry above the draw gives an offset. -/
theorem exists_logDiagonalLoop_eq (numNodes : ℕ) {c : K} {table : List K}
    (h : ∃ p ∈ table, c < p) (cnt : ℕ) :
    ∃ k : ℕ, ∀ source : ℤ,
      logDiagonalLoop numNodes c source table cnt = .ok ((source + k) % numNodes) := by
  induction table generalizing cnt with
  | nil =>
    obtain ⟨p, hp, -⟩ := h
    cases hp
  | cons p rest ih =>
    by_cases hp : c < p
    · exact ⟨cnt, fun source => if_pos hp⟩
    · obtain ⟨p', hp', hlt⟩ := h
      rcases List.mem_cons.mp hp' with rfl | hmem
      · exact absurd hlt hp
      · obtain ⟨k, hk⟩ := ih ⟨p', hmem, hlt⟩ (cnt + 1)
        refine ⟨k, fun source => ?_⟩
        rw [logDiagonalLoop, if_neg hp]
        exact hk source

/-- The closing entry of the table is above every draw. -/
theorem exists_shifts_logDiagonal (numNodes : ℕ) {c : K} (hc : c < 1) :
    ∃ k, Shifts numNodes k (logDiagonalDestination numNodes c) := by
  have hlast : (1 : K) ∈ constantProb numNodes := by simp [constantProb]
  obtain ⟨k, hk⟩ := exists_logDiagonalLoop_eq numNodes ⟨1, hlast, hc⟩ 0
  refine ⟨k, fun source hs => ?_⟩
  rw [logDiagonalDestination, fromSource_of_lt hs]
  exact hk source

/-- As long as the last threshold is above the draw and the current one is not, the loop finds an
    offset. -/
theorem exists_quasiDiagonalLoop_eq {numNodes : ℕ} {c q h : K} {left : ℕ}
    (hlo : ¬ c < h * numNodes) (hhi : c < (h + left * q) * numNodes) (j : ℕ) :
    ∃ k : ℕ, ∀ source : ℤ,
      quasiDiagonalLoop numNodes c q source left j h = .ok ((source + k) % numNodes) := by
  induction left generalizing j h with
  | zero =>
    rw [Nat.cast_zero, zero_mul, add_zero] at hhi
    exact absurd hhi hlo
  | succ left ih =>
    by_cases hc : c < (h + q) * numNodes
    · exact ⟨j, fun source => if_pos hc⟩
    · have hstep : h + (left + 1 : ℕ) * q = h + q + left * q := by
        push_cast
        ring
      obtain ⟨k, hk⟩ := ih hc (hstep ▸ hhi) (j + 1)
      refine ⟨k, fun source => ?_⟩
      rw [quasiDiagonalLoop, if_neg hc]
      exact hk source

/-- With two ports or more the thresholds go up to the end of the range. -/
theorem exists_shifts_quasiDiagonal [IsStrictOrderedRing K] {numNodes : ℕ} (hn : 2 ≤ numNodes)
    {c : K} (hc : c < numNodes) :
    ∃ k, Shifts numNodes k (quasiDiagonalDestination numNodes c) := by
  by_cases hlo : c < 1 / 2 * numNodes
  · refine ⟨0, fun source hs => ?_⟩
    rw [quasiDiagonalDestination, fromSource_of_lt hs, if_pos hlo, ← emod_self_of_lt hs]
  · have hlast : (1 / 2 + (numNodes - 1 : ℕ) * (1 / ((numNodes - 1) * 2)) : K) = 1 := by
      have hne : (numNodes : K) - 1 ≠ 0 := by
        have h2 : (2 : K) ≤ numNodes := by exact_mod_cast hn
        linarith
      rw [Nat.cast_sub (by omega), Nat.cast_one]
      field_simp
      norm_num
    have hhi : c < (1 / 2 + (numNodes - 1 : ℕ) * (1 / ((numNodes - 1) * 2))) * numNodes := by
      rw [hlast, one_mul]
      exact hc
    obtain ⟨k, hk⟩ := exists_quasiDiagonalLoop_eq hlo hhi 1
    refine ⟨k, fun source hs => ?_⟩
    rw [quasiDiagonalDestination, fromSource_of_lt hs, if_neg hlo]
    exact hk source

namespace CirculantPattern

/-- The offset of a draw, unless the draw runs into the assertion. -/
theorem exists_shifts [IsStrictOrderedRing K] (pattern : CirculantPattern) {numNodes : ℕ}
    (hn : 1 ≤ numNodes) {c : K} (hc : c < pattern.range numNodes)
    (h : ¬ (pattern = quasiDiagonal ∧ numNodes = 1 ∧ 1 / 2 ≤ c)) :
    ∃ k, Shifts numNodes k (pattern.destination numNodes c) := by
  cases pattern with
  | diagonal => exact exists_shifts_diagonal numNodes c
  | logDiagonal => exact exists_shifts_logDiagonal numNodes hc
  | quasiDiagonal =>
    rcases Nat.lt_or_ge numNodes 2 with hlt | hge
    · -- A single port is served by the first half of the range only.
      obtain rfl : numNodes = 1 := by omega
      refine ⟨0, fun source hs => ?_⟩
      have hlo : c < 1 / 2 * (1 : ℕ) := by
        rw [Nat.cast_one, mul_one]
        exact not_le.mp (fun hle => h ⟨rfl, rfl, hle⟩)
      show quasiDiagonalDestination 1 c source = _
      rw [quasiDiagonalDestination, fromSource_of_lt hs, if_pos hlo, ← emod_self_of_lt hs]
    · exact exists_shifts_quasiDiagonal hge hc

/-- For a single port the loop of the quasi-diagonal pattern has no steps. -/
theorem quasiDiagonal_one {c : K} (hc : 1 / 2 ≤ c) :
    quasiDiagonal.destination 1 c 0 = .error .notReached := by
  have hlo : ¬ c < 1 / 2 * (1 : ℕ) := by
    rw [Nat.cast_one, mul_one]
    exact not_lt.mpr hc
  show quasiDiagonalDestination 1 c ((0 : ℕ) : ℤ) = _
  rw [quasiDiagonalDestination, fromSource_of_lt one_pos, if_neg hlo]
  rfl

theorem permutes_iff [IsStrictOrderedRing K] (pattern : CirculantPattern) {numNodes : ℕ}
    (hn : 1 ≤ numNodes) {c : K} (hc : c < pattern.range numNodes) :
    Permutes numNodes (pattern.destination numNodes c) ↔
      ¬ (pattern = quasiDiagonal ∧ numNodes = 1 ∧ 1 / 2 ≤ c) := by
  constructor
  · rintro ⟨σ, hσ⟩ ⟨rfl, rfl, hle⟩
    have h0 := hσ 0
    rw [show (((0 : Fin 1) : ℕ) : ℤ) = 0 from rfl, quasiDiagonal_one hle] at h0
    cases h0
  · intro h
    obtain ⟨k, hk⟩ := pattern.exists_shifts hn hc h
    exact hk.permutes hn

end CirculantPattern

end

/-! ### The traffic matrix -/

/-- The two branches of a comparison with a fixed threshold. -/
theorem measurableSet_ite_lt {α : Type*} (a : ℝ) {f g : ℝ → α} {r : α}
    (hf : MeasurableSet {c | f c = r}) (hg : MeasurableSet {c | g c = r}) :
    MeasurableSet {c | (if c < a then f c else g c) = r} := by
  have hsplit : {c | (if c < a then f c else g c) = r}
      = Set.ite (Set.Iio a) {c | f c = r} {c | g c = r} := by
    ext c
    by_cases hc : c < a
    · simp [Set.ite, hc]
    · simp [Set.ite, hc]
  rw [hsplit]
  exact measurableSet_Iio.ite hf hg

theorem measurableSet_quasiDiagonalLoop (numNodes : ℕ) (q : ℝ) (source : ℤ)
    (r : Except TrafficFault ℤ) (left j : ℕ) (h : ℝ) :
    MeasurableSet {c : ℝ | quasiDiagonalLoop numNodes c q source left j h = r} := by
  induction left generalizing j h with
  | zero =>
    simp only [quasiDiagonalLoop]
    exact MeasurableSet.const _
  | succ left ih => exact measurableSet_ite_lt _ (MeasurableSet.const _) (ih (j + 1) (h + q))

theorem measurableSet_logDiagonalLoop (numNodes : ℕ) (source : ℤ) (r : Except TrafficFault ℤ)
    (table : List ℝ) (cnt : ℕ) :
    MeasurableSet {c : ℝ | logDiagonalLoop numNodes c source table cnt = r} := by
  induction table generalizing cnt with
  | nil =>
    simp only [logDiagonalLoop]
    exact MeasurableSet.const _
  | cons p rest ih => exact measurableSet_ite_lt p (MeasurableSet.const _) (ih (cnt + 1))

namespace CirculantPattern

/-- The draws that give a destination are a measurable set. -/
theorem measurableSet_destination (pattern : CirculantPattern) (numNodes : ℕ) (source : ℤ)
    (r : Except TrafficFault ℤ) :
    MeasurableSet {c : ℝ | pattern.destination numNodes c source = r} := by
  by_cases hs : source < 0 ∨ source ≥ numNodes
  · -- Every draw gives `-1`.
    have hconst : ∀ c : ℝ, pattern.destination numNodes c source = .ok (-1) := by
      intro c
      cases pattern <;> exact if_pos hs
    simp only [hconst]
    exact MeasurableSet.const _
  · cases pattern with
    | diagonal =>
      simp only [destination, diagonalDestination, fromSource, if_neg hs]
      exact measurableSet_ite_lt _ (MeasurableSet.const _) (MeasurableSet.const _)
    | quasiDiagonal =>
      simp only [destination, quasiDiagonalDestination, fromSource, if_neg hs]
      exact measurableSet_ite_lt _ (MeasurableSet.const _)
        (measurableSet_quasiDiagonalLoop numNodes _ source r _ _ _)
    | logDiagonal =>
      simp only [destination, logDiagonalDestination, fromSource, if_neg hs]
      exact measurableSet_logDiagonalLoop numNodes source r _ _

/-- The law of `_distribution`: uniform on its range. -/
noncomputable def draws (pattern : CirculantPattern) (numNodes : ℕ) : Measure ℝ :=
  uniformDraw (pattern.range numNodes)

/-- The probability that a packet of input `i` is for output `o`. -/
noncomputable def trafficMatrix (pattern : CirculantPattern) (numNodes : ℕ) :
    Matrix (Fin numNodes) (Fin numNodes) ℝ :=
  relationMatrix (pattern.draws numNodes)
    (fun c i o => pattern.destination numNodes c (i : ℕ) = .ok ((o : ℕ) : ℤ))

theorem range_pos (pattern : CirculantPattern) {numNodes : ℕ} (hn : 1 ≤ numNodes) :
    (0 : ℝ) < pattern.range numNodes := by
  cases pattern with
  | diagonal => exact one_pos
  | quasiDiagonal => exact Nat.cast_pos.mpr hn
  | logDiagonal => exact one_pos

/-- Every draw gives a permutation, so the traffic matrix is doubly stochastic, and no load of up
    to one packet per input and slot oversubscribes a port. -/
structure LoadsEqually (pattern : CirculantPattern) (numNodes : ℕ) : Prop where
  permutes : ∀ c : ℝ, 0 ≤ c → c < pattern.range numNodes →
    Permutes numNodes (pattern.destination numNodes c)
  doublyStochastic : pattern.trafficMatrix numNodes ∈ doublyStochastic ℝ (Fin numNodes)
  admissible : ∀ load : ℝ, 0 ≤ load → load ≤ 1 →
    (∀ i, ∑ o, load * pattern.trafficMatrix numNodes i o ≤ 1) ∧
      ∀ o, ∑ i, load * pattern.trafficMatrix numNodes i o ≤ 1

/-- Permutations under almost all draws make the traffic matrix doubly stochastic. -/
theorem trafficMatrix_mem_doublyStochastic (pattern : CirculantPattern) {numNodes : ℕ}
    (hn : 1 ≤ numNodes)
    (h : ∀ c : ℝ, 0 ≤ c → c < pattern.range numNodes →
      Permutes numNodes (pattern.destination numNodes c)) :
    pattern.trafficMatrix numNodes ∈ doublyStochastic ℝ (Fin numNodes) := by
  have : IsProbabilityMeasure (pattern.draws numNodes) :=
    isProbabilityMeasure_uniformDraw (pattern.range_pos hn)
  apply relationMatrix_mem_doublyStochastic
  · exact fun i o => pattern.measurableSet_destination numNodes _ _
  · filter_upwards [ae_mem_uniformDraw (pattern.range numNodes)] with c hc
    obtain ⟨σ, hσ⟩ := h c hc.1 hc.2
    refine ⟨σ, fun i o => ?_⟩
    rw [hσ i]
    constructor
    · intro heq
      exact Fin.ext (Nat.cast_injective (Except.ok.inj heq))
    · rintro rfl
      rfl

/-- The draws under which a pattern is a permutation, and the patterns that load all outputs
    equally. -/
theorem loadsEqually_iff (pattern : CirculantPattern) {numNodes : ℕ} (hn : 1 ≤ numNodes) :
    (∀ c : ℝ, 0 ≤ c → c < pattern.range numNodes →
      (Permutes numNodes (pattern.destination numNodes c) ↔
        ¬ (pattern = quasiDiagonal ∧ numNodes = 1 ∧ 1 / 2 ≤ c))) ∧
    (LoadsEqually pattern numNodes ↔ ¬ (pattern = quasiDiagonal ∧ numNodes = 1)) := by
  refine ⟨fun c _ hc => pattern.permutes_iff hn hc, ?_, ?_⟩
  · rintro hloads ⟨rfl, rfl⟩
    have hc : (1 / 2 : ℝ) < quasiDiagonal.range 1 := by
      rw [range, Nat.cast_one]
      norm_num
    exact (quasiDiagonal.permutes_iff hn hc).mp (hloads.permutes _ (by norm_num) hc)
      ⟨rfl, rfl, le_refl _⟩
  · intro h
    have hperm : ∀ c : ℝ, 0 ≤ c → c < pattern.range numNodes →
        Permutes numNodes (pattern.destination numNodes c) :=
      fun c _ hc => (pattern.permutes_iff hn hc).mpr (fun hbad => h ⟨hbad.1, hbad.2.1⟩)
    have hmatrix := pattern.trafficMatrix_mem_doublyStochastic hn hperm
    exact ⟨hperm, hmatrix, fun load _ hload => sum_le_of_mem_doublyStochastic hmatrix hload⟩

/-- The log-diagonal pattern beyond the size of its exact table. -/
theorem loadsEqually_logDiagonal : LoadsEqually logDiagonal 64 :=
  (loadsEqually_iff logDiagonal (by norm_num : 1 ≤ 64)).2.mpr (by simp)

/-- A single port and a draw from the second half of the range. -/
theorem not_loadsEqually_quasiDiagonal_one :
    quasiDiagonal.destination 1 (1 / 2 : ℝ) 0 = .error .notReached ∧
      ¬ ∀ (pattern : CirculantPattern) (numNodes : ℕ), 1 ≤ numNodes →
        LoadsEqually pattern numNodes := by
  have hfail : quasiDiagonal.destination 1 (1 / 2 : ℝ) 0 = .error .notReached :=
    quasiDiagonal_one (le_refl _)
  refine ⟨hfail, fun hall => ?_⟩
  obtain ⟨σ, hσ⟩ := (hall quasiDiagonal 1 (le_refl 1)).permutes (1 / 2) (by norm_num)
    (by rw [range, Nat.cast_one]; norm_num)
  have h0 := (hσ 0).symm.trans hfail
  cases h0

end CirculantPattern

end SschedSimulator
