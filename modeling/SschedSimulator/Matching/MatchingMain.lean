import SschedSimulator.Matching.EdgeColoring
import SschedSimulator.Matching.MaximumWeightMatching
import SschedSimulator.Matching.ParallelScheduler
import SschedSimulator.Matching.SbQpsSelection

namespace SschedSimulator

open Foundation Alternation MatrixText

/-!
# `matching_main.cpp` — the program

The program reads matrices from a file, computes a matching for each of them and reports the average
of their weights.  It reads the size of the matrices once, in front of the first.

* `runMatrices` — the loop that its three functions have in common;
* `blockMatrix` — the matrices that the loop reads from a text, whatever the text holds;
* `runMatrices_post` — what holds of the matchings of the loop, and the sum of their weights.

The weight of one matching is of type `int`, and has to fit.  The sum over the matrices is a
floating-point number in the source; here it is exact.
-/

/-- What stops the program. -/
inductive MatchingMainFault where
  /-- an `int` is used that was never given a value -/
  | indeterminate
  /-- `resize` for a negative size: `std::length_error` -/
  | lengthError
  /-- the assertions on the size of the matrix -/
  | wrongSize
  /-- a fault of `MaximumWeightMatching` -/
  | solver (e : Fault)
  /-- a fault of `SB_QPS_Fixed`, or of its `weight_computation` -/
  | matching (e : MatchingFault)
  /-- a fault of a thread of `ParallelScheduler` -/
  | exchange (e : ParallelFault)
  /-- `compute` has not returned -/
  | stillRunning
  deriving DecidableEq, Repr

namespace MatchingMain

variable {n : ℕ}

/-- `RunningResult` without the times: the number of matrices and the sum of the weights. -/
structure RunningResult where
  num : ℤ
  sum : ℤ

/-- The variables of the loop; `object` is the scheduler, and `i` counts the matrices. -/
structure Loop (σ : Type) where
  fin : IStream
  object : σ
  i : ℕ
  sum : ℤ

/-- How a function computes a matching: the `i`-th of a run. -/
abbrev Compute (n : ℕ) (σ : Type) :=
  ℕ → Weights n → σ → Except MatchingMainFault (MatchingRow n × σ)

/-- `SB_QPS_Fixed::weight_computation(matching, weights)`. -/
def weigh (matching : MatchingRow n) (weights : Weights n) : Except MatchingMainFault ℤ :=
  match Matching.SbQpsFixed.weightComputation matching weights with
  | .error e => .error (.matching e)
  | .ok w => .ok w

/-- One pass of the loop, for matrices of the given size. -/
def pass {σ : Type} (compute : Compute n σ) (sz : Option ℤ) (st : Loop σ) :
    Except MatchingMainFault (Loop σ) :=
  match sz with
  | none => .error .indeterminate
  | some size => do
    require (0 ≤ size) .lengthError
    let (mat, _, fin) := readMatrix size.toNat st.fin
    require (mat.length = n) .wrongSize
    require (∀ row ∈ mat, row.length = n) .wrongSize
    let weights := EdgeColoring.weightsOf n mat
    let (matching, object) ← compute st.i weights st.object
    let weight ← weigh matching weights
    .ok { fin := fin, object := object, i := st.i + 1, sum := st.sum + weight }

/-- The loop. -/
def passes {σ : Type} (compute : Compute n σ) (sz : Option ℤ) :
    ℕ → Loop σ → Except MatchingMainFault (Loop σ)
  | 0, st => .ok st
  | k + 1, st => do
    let st ← pass compute sz st
    passes compute sz k st

/-- What `run_for_all_matrices`, `run_qps_single_thread` and `run_qps_for_all_matrices` have in
    common. -/
def runMatrices {σ : Type} (compute : Compute n σ) (object : σ) (fin : IStream) :
    Except MatchingMainFault RunningResult := do
  let num := readInt fin
  let sz := readInt num.2
  match num.1 with
  | none => .error .indeterminate
  | some num => do
    let st ← passes compute sz.1 num.toNat { fin := sz.2, object := object, i := 0, sum := 0 }
    .ok { num := num, sum := st.sum }

/-- `run_for_all_matrices` with `MaximumWeightMatching::maximum_weight_matching`; `n` is the size in
    the file. -/
def runForAllMatrices (n : ℕ) (mwm : MaxWeight.Solver) (fin : IStream) :
    Except MatchingMainFault RunningResult :=
  runMatrices (n := n) (fun _ weights st =>
    match Matching.MaximumWeightMatching.maximumWeightMatching mwm weights with
    | .error e => .error (.solver e)
    | .ok row => .ok (row, st)) () fin

/-- The `k`-th matrix of a sequence of numbers, when each matrix follows the one before it. -/
def blockMatrix (n : ℕ) (numbers : List ℤ) (k : ℕ) : Weights n :=
  fun i o => numbers.getD (k * (n * n) + (i * n + o)) 0

/-- The rows are cut from the numbers in their order. -/
theorem weightsOf_cutRows (numbers : List ℤ) : EdgeColoring.weightsOf n (cutRows n n numbers)
    = fun (i o : Fin n) => numbers.getD (i * n + o) 0 := by
  funext i o
  have hrow : (cutRows n n numbers).getD i [] = (numbers.drop (i * n)).take n := by
    rw [cutRows, List.getD_eq_getElem?_getD, List.getElem?_map, List.getElem?_range i.isLt]
    rfl
  rw [EdgeColoring.weightsOf, hrow, List.getD_eq_getElem?_getD, List.getElem?_take_of_lt o.isLt,
    List.getElem?_drop, List.getD_eq_getElem?_getD]

theorem position_lt (i o : Fin n) : (i * n + o : ℕ) < n * n := by
  have hle : ((i : ℕ) + 1) * n ≤ n * n := Nat.mul_le_mul_right n i.isLt
  rw [Nat.succ_mul] at hle
  have := o.isLt
  omega

theorem blockMatrix_zero (numbers : List ℤ) :
    EdgeColoring.weightsOf n (cutRows n n (numbers.take (n * n))) = blockMatrix n numbers 0 := by
  rw [weightsOf_cutRows]
  funext i o
  rw [blockMatrix, Nat.zero_mul, Nat.zero_add, List.getD_eq_getElem?_getD,
    List.getElem?_take_of_lt (position_lt i o), List.getD_eq_getElem?_getD]

theorem blockMatrix_drop (numbers : List ℤ) (k : ℕ) :
    blockMatrix n (numbers.drop (n * n)) k = blockMatrix n numbers (k + 1) := by
  funext i o
  rw [blockMatrix, blockMatrix, List.getD_eq_getElem?_getD, List.getElem?_drop,
    List.getD_eq_getElem?_getD]
  congr 2
  rw [Nat.succ_mul]
  omega

/-- Numbers of packets. -/
def IsCount (k : ℤ) : Prop := 0 ≤ k ∧ k ≤ largestInt

instance (k : ℤ) : Decidable (IsCount k) := inferInstanceAs (Decidable (_ ∧ _))

theorem IsCount.isInt {k : ℤ} (h : IsCount k) : IsInt k := ⟨smallestInt_le h.1, h.2⟩

theorem blockMatrix_nonneg {numbers : List ℤ} (h : ∀ k ∈ numbers, IsCount k) (j : ℕ)
    (i o : Fin n) : 0 ≤ blockMatrix n numbers j i o := by
  rw [blockMatrix, List.getD_eq_getElem?_getD]
  cases hget : numbers[j * (n * n) + (i * n + o : ℕ)]? with
  | none => exact le_refl _
  | some k => exact (h k (List.mem_of_getElem? hget)).1

/-! ### Weights that fit -/

theorem isMatching_rowOf (p : Equiv.Perm (Fin n)) : IsMatching (Serena.rowOf p) := by
  intro i i' o hi hi'
  exact p.injective ((Option.some.inj hi).trans (Option.some.inj hi').symm)

/-- Numbers of packets of which every perfect matching has a weight that fits. -/
structure Moderate (weights : Weights n) : Prop where
  nonneg : ∀ i o, 0 ≤ weights i o
  matchings : ∀ p : Equiv.Perm (Fin n), weight weights p ≤ largestInt

section

variable {weights : Weights n}

/-- A partial matching weighs no more than its completion. -/
theorem Moderate.exactWeight_le (h : Moderate weights) {row : MatchingRow n} (hrow : IsMatching row) :
    Matching.SbQpsFixed.exactWeight row weights ≤ largestInt := by
  obtain ⟨p, -, hkeep⟩ := Serena.fixMatching_eq_ok hrow
  refine le_trans (Finset.sum_le_sum (fun i _ => ?_)) (h.matchings p)
  cases hi : row i with
  | none => exact h.nonneg i (p i)
  | some o => rw [hkeep i o hi]

theorem Moderate.weigh_eq_ok (h : Moderate weights) {row : MatchingRow n} (hrow : IsMatching row) :
    weigh row weights = .ok (Matching.SbQpsFixed.exactWeight row weights) := by
  rw [weigh, Matching.SbQpsFixed.weightComputation_eq h.nonneg, if_pos (h.exactWeight_le hrow)]

end

/-! ### The loop -/

section

variable {σ : Type} {compute : Compute n σ} {E : MatchingMainFault → Prop} {Q : Weights n → Prop}
  {R : ℕ → Weights n → MatchingRow n → Prop}

/-- For every matrix in `Q`, a matching is computed that `R` allows, and its weight fits. -/
structure Computes (compute : Compute n σ) (E : MatchingMainFault → Prop) (Q : Weights n → Prop)
    (R : ℕ → Weights n → MatchingRow n → Prop) : Prop where
  moderate : ∀ weights, Q weights → Moderate weights
  matching : ∀ i weights row, R i weights row → IsMatching row
  run : ∀ i weights object, Q weights → Post (compute i weights object) E (fun r => R i weights r.1)

/-- One pass, when the numbers of a matrix are there. -/
theorem pass_post (hcompute : Computes compute E Q R)
    {numbers : List ℤ} (hcounts : ∀ k ∈ numbers, IsCount k) (hlen : n * n ≤ numbers.length)
    (hblock : Q (blockMatrix n numbers 0))
    {st : Loop σ} (hfail : st.fin.fail = false) (htext : Holds numbers st.fin.rest) :
    Post (pass compute (some (n : ℤ)) st) E (fun st' =>
      ∃ row, R st.i (blockMatrix n numbers 0) row ∧
        st'.sum = st.sum + Matching.SbQpsFixed.exactWeight row (blockMatrix n numbers 0) ∧
        st'.i = st.i + 1 ∧ st'.fin.fail = false ∧
        Holds (numbers.drop (n * n)) st'.fin.rest) := by
  obtain ⟨⟨text, fail⟩, object, i, sum⟩ := st
  obtain rfl : fail = false := hfail
  have htake : (numbers.take (n * n)).length = n * n := by
    rw [List.length_take]
    exact min_eq_left hlen
  -- the matrix takes its numbers from the text and leaves the others there
  obtain ⟨text', hmatrix, htext'⟩ := readMatrix_of_holds htake
    (fun k hk => (hcounts k (List.mem_of_mem_take hk)).isInt)
    (show Holds (numbers.take (n * n) ++ numbers.drop (n * n)) text by rwa [List.take_append_drop])
  have hsquare := cutRows_isSquare htake
  unfold pass
  dsimp only
  rw [require_pos (Int.natCast_nonneg n), ok_bind, Int.toNat_natCast, hmatrix]
  dsimp only
  rw [require_pos hsquare.rows, ok_bind, require_pos hsquare.columns, ok_bind, blockMatrix_zero]
  refine (hcompute.run i _ object hblock).bind (fun r hr => ?_)
  rw [(hcompute.moderate _ hblock).weigh_eq_ok (hcompute.matching i _ _ hr), ok_bind]
  exact ⟨r.1, hr, rfl, rfl, rfl, htext'⟩

/-- The matchings of the loop, and the sum of their weights. -/
theorem passes_post (hcompute : Computes compute E Q R) (k : ℕ) {numbers : List ℤ}
    (hcounts : ∀ k ∈ numbers, IsCount k) (hlen : k * (n * n) ≤ numbers.length)
    (hmatrices : ∀ j < k, Q (blockMatrix n numbers j)) {st : Loop σ} (hfail : st.fin.fail = false)
    (htext : Holds numbers st.fin.rest) :
    Post (passes compute (some (n : ℤ)) k st) E (fun st' =>
      ∃ rows : ℕ → MatchingRow n, (∀ j < k, R (st.i + j) (blockMatrix n numbers j) (rows j)) ∧
        st'.sum = st.sum + ∑ j ∈ Finset.range k,
          Matching.SbQpsFixed.exactWeight (rows j) (blockMatrix n numbers j)) := by
  induction k generalizing st numbers with
  | zero =>
    exact ⟨fun _ _ => none, fun j hj => absurd hj (Nat.not_lt_zero j), by simp⟩
  | succ k ih =>
    rw [Nat.succ_mul] at hlen
    refine (pass_post hcompute hcounts (by omega) (hmatrices 0 (Nat.succ_pos k)) hfail
      htext).bind (fun mid hmid => ?_)
    obtain ⟨row, hrow, hsum, hi, hfail', htext'⟩ := hmid
    refine (ih (fun k' hk' => hcounts k' (List.mem_of_mem_drop hk'))
      (by rw [List.length_drop]; omega) (fun j hj => ?_) hfail' htext').imp (fun st' hst' => ?_)
    · rw [blockMatrix_drop]
      exact hmatrices (j + 1) (Nat.succ_lt_succ hj)
    obtain ⟨rows, hrows, hsum'⟩ := hst'
    -- the matrices of the other passes are the later blocks
    simp only [blockMatrix_drop] at hrows hsum'
    refine ⟨fun j => if j = 0 then row else rows (j - 1), fun j hj => ?_, ?_⟩
    · cases j with
      | zero => exact hrow
      | succ j =>
        have hlater := hrows j (Nat.lt_of_succ_lt_succ hj)
        rw [hi, Nat.add_assoc, Nat.add_comm 1] at hlater
        exact hlater
    · rw [Finset.sum_range_succ', hsum', hsum, add_assoc,
        add_comm (Matching.SbQpsFixed.exactWeight row _)]
      simp only [Nat.succ_ne_zero, if_false, if_true, Nat.add_sub_cancel]

/-- What holds of the matchings that a run computes, and the sum of their weights. -/
theorem runMatrices_post (hcompute : Computes compute E Q R) {num : ℕ} (hnum : (num : ℤ) ≤ largestInt) (hsize : (n : ℤ) ≤ largestInt) {numbers : List ℤ}
    (hcounts : ∀ k ∈ numbers, IsCount k) (hlen : num * (n * n) ≤ numbers.length)
    (hmatrices : ∀ j < num, Q (blockMatrix n numbers j)) {text : List Char}
    (htext : Holds ((num : ℤ) :: (n : ℤ) :: numbers) text) (object : σ) :
    Post (runMatrices compute object ⟨text, false⟩) E (fun rr => rr.num = num ∧
      ∃ rows : ℕ → MatchingRow n, (∀ j < num, R j (blockMatrix n numbers j) (rows j)) ∧
        rr.sum = ∑ j ∈ Finset.range num,
          Matching.SbQpsFixed.exactWeight (rows j) (blockMatrix n numbers j)) := by
  have hint : ∀ k : ℕ, smallestInt ≤ k := fun k => smallestInt_le (Int.natCast_nonneg k)
  obtain ⟨text₁, hread₁, h₁⟩ := htext.readInt rfl (hint num) hnum
  obtain ⟨text₂, hread₂, h₂⟩ := h₁.readInt rfl (hint n) hsize
  unfold runMatrices
  dsimp only
  rw [readInt, readInt, hread₁]
  dsimp only
  rw [hread₂, Int.toNat_natCast]
  have hfail : (⟨⟨text₂, false⟩, object, 0, 0⟩ : Loop σ).fin.fail = false := rfl
  refine (passes_post hcompute num hcounts hlen hmatrices hfail h₂).bind (fun st hst => ?_)
  obtain ⟨rows, hrows, hsum⟩ := hst
  refine ⟨rfl, rows, fun j hj => ?_, by rw [hsum, zero_add]⟩
  have hrow := hrows j hj
  rwa [Nat.zero_add] at hrow

end

/-! ### The three ways to compute a matching -/

/-- A matching of maximal weight. -/
def Heaviest (weights : Weights n) (row : MatchingRow n) : Prop :=
  IsMatching row ∧ ∀ row', IsMatching row' →
    Matching.SbQpsFixed.exactWeight row' weights
      ≤ Matching.SbQpsFixed.exactWeight row weights

section

variable {cfg : MatchingConfiguration} {weights : Weights n}

/-- No merge of two perfect matchings overflows. -/
theorem Moderate.walksFit (h : Moderate weights) (p q : Equiv.Perm (Fin n)) :
    WalksFit IsInt weights p q :=
  walksFit_of_weight_le h.nonneg (fun _ hx => isInt_of_abs_le hx) (h.matchings p) (h.matchings q)

end

/-! ### The averages -/

theorem runForAllMatrices_post {mwm : MaxWeight.Solver} (hmwm : MaxWeight.Solves n n mwm) {num : ℕ}
    (hnum : (num : ℤ) ≤ largestInt) (hsize : (n : ℤ) ≤ largestInt) {numbers : List ℤ}
    (hcounts : ∀ k ∈ numbers, IsCount k) (hlen : num * (n * n) ≤ numbers.length)
    (hmatchings : ∀ j < num, ∀ p : Equiv.Perm (Fin n),
      weight (blockMatrix n numbers j) p ≤ largestInt)
    {text : List Char} (htext : Holds ((num : ℤ) :: (n : ℤ) :: numbers) text) :
    Post (runForAllMatrices n mwm ⟨text, false⟩) (fun _ => False) (fun rr => rr.num = num ∧
      ∃ rows : ℕ → MatchingRow n, (∀ j < num, Heaviest (blockMatrix n numbers j) (rows j)) ∧
        rr.sum = ∑ j ∈ Finset.range num,
          Matching.SbQpsFixed.exactWeight (rows j) (blockMatrix n numbers j)) := by
  refine runMatrices_post (Q := Moderate) (R := fun _ weights row => Heaviest weights row)
    ⟨fun _ h => h, fun _ _ _ h => h.1, fun i weights st hweights => ?_⟩ hnum hsize hcounts hlen
    (fun j hj => ⟨blockMatrix_nonneg hcounts j, hmatchings j hj⟩) htext ()
  obtain ⟨row, hrow, hmatching, hmax⟩ :=
    Matching.MaximumWeightMatching.maximumWeightMatching_eq_ok hmwm hweights.nonneg
  rw [hrow]
  exact ⟨hmatching, hmax⟩

/-- A number of a sequence of matrices, each after its size. -/
theorem getD_sizedNumbers {ws : List (Weights n)} {k : ℕ} (hk : k < ws.length) {r : ℕ}
    (hr : r < n * n + 1) : (EdgeColoring.sizedNumbers ws).getD (k * (n * n + 1) + r) 0
      = ((n : ℤ) :: (EdgeColoring.rows ws[k]).flatten).getD r 0 := by
  induction ws generalizing k with
  | nil => exact absurd hk (Nat.not_lt_zero k)
  | cons w ws ih =>
    have hlen : ((n : ℤ) :: (EdgeColoring.rows w).flatten).length = n * n + 1 := by
      rw [List.length_cons, (EdgeColoring.rows_isSquare w).length_flatten]
    rw [EdgeColoring.sizedNumbers, List.flatMap_cons, List.getD_eq_getElem?_getD]
    cases k with
    | zero =>
      rw [Nat.zero_mul, Nat.zero_add, List.getElem?_append_left (hlen ▸ hr),
        List.getD_eq_getElem?_getD]
      rfl
    | succ k =>
      rw [List.getElem?_append_right (by rw [hlen, Nat.succ_mul]; omega), hlen, Nat.succ_mul,
        show k * (n * n + 1) + (n * n + 1) + r - (n * n + 1) = k * (n * n + 1) + r by omega,
        ← List.getD_eq_getElem?_getD]
      exact ih (Nat.lt_of_succ_lt_succ hk)

/-- The program reads the matrices of `uniform_traffic.py` with one position more of delay from
    matrix to matrix: it takes the sizes between them for numbers of packets. -/
theorem blockMatrix_sizedNumbers {ws : List (Weights n)} {k : ℕ} (hk : k < ws.length)
    (i o : Fin n) :
    (k ≤ (i * n + o : ℕ) → blockMatrix n ((EdgeColoring.sizedNumbers ws).drop 1) k i o
      = (EdgeColoring.rows ws[k]).flatten.getD (i * n + o - k) 0) ∧
    ((i * n + o + 1 : ℕ) = k →
      blockMatrix n ((EdgeColoring.sizedNumbers ws).drop 1) k i o = n) := by
  have hlt := position_lt i o
  have hblock : blockMatrix n ((EdgeColoring.sizedNumbers ws).drop 1) k i o
      = (EdgeColoring.sizedNumbers ws).getD (k * (n * n) + (i * n + o) + 1) 0 := by
    rw [blockMatrix, List.getD_eq_getElem?_getD, List.getElem?_drop, List.getD_eq_getElem?_getD,
      Nat.add_comm 1]
  rw [hblock]
  -- before matrix `k` the file has `k` sizes more than the program knows of
  constructor
  · intro hle
    obtain ⟨d, hd⟩ := Nat.exists_eq_add_of_le hle
    have hindex : k * (n * n) + (i * n + o : ℕ) + 1 = k * (n * n + 1) + (d + 1) := by
      rw [hd, Nat.mul_succ]
      omega
    rw [hindex, getD_sizedNumbers hk (by omega), List.getD_cons_succ, hd, Nat.add_sub_cancel_left]
  · intro heq
    have hindex : k * (n * n) + (i * n + o : ℕ) + 1 = k * (n * n + 1) + 0 := by
      rw [Nat.mul_succ, Nat.add_assoc, heq, Nat.add_zero]
    rw [hindex, getD_sizedNumbers hk (by omega), List.getD_cons_zero]

theorem length_sizedNumbers (ws : List (Weights n)) :
    (EdgeColoring.sizedNumbers ws).length = ws.length * (n * n + 1) := by
  induction ws with
  | nil => rw [List.length_nil, Nat.zero_mul]; rfl
  | cons w ws ih =>
    rw [EdgeColoring.sizedNumbers, List.flatMap_cons, List.length_append, List.length_cons,
      (EdgeColoring.rows_isSquare w).length_flatten, List.length_cons, Nat.succ_mul, Nat.add_comm]
    exact congrArg (· + _) ih

theorem isCount_of_sizedNumbers {ws : List (Weights n)} (hsize : (n : ℤ) ≤ largestInt)
    (hws : ∀ w ∈ ws, EdgeColoring.IsTraffic w) {k : ℤ}
    (hk : k ∈ EdgeColoring.sizedNumbers ws) : IsCount k := by
  obtain ⟨w, hw, hk⟩ := List.mem_flatMap.mp hk
  rcases List.mem_cons.mp hk with rfl | hk
  · exact ⟨Int.natCast_nonneg n, hsize⟩
  · obtain ⟨i, o, rfl⟩ := EdgeColoring.mem_flatten_rows hk
    exact hws w hw i o

/-- On a file of `uniform_traffic.py`, in which every matrix comes after its size,
    `run_for_all_matrices` takes the numbers after the first size for the matrices, one after the
    other: the matrix with number `k` has from its position `k` on the numbers of the file's matrix
    `k` positions before, and in front of these a size.  The sum is that of the heaviest matchings of
    the matrices read. -/
theorem runForAllMatrices_uniformTraffic {mwm : MaxWeight.Solver} (hmwm : MaxWeight.Solves n n mwm)
    (hsize : (n : ℤ) ≤ largestInt) {ws : List (Weights n)} (hne : ws ≠ [])
    (hnum : (ws.length : ℤ) ≤ largestInt) (hws : ∀ w ∈ ws, EdgeColoring.IsTraffic w)
    (hmatchings : ∀ k < ws.length, ∀ p : Equiv.Perm (Fin n),
      weight (blockMatrix n ((EdgeColoring.sizedNumbers ws).drop 1) k) p ≤ largestInt) :
    let read := blockMatrix n ((EdgeColoring.sizedNumbers ws).drop 1)
    ∃ rr, ∃ rows : ℕ → MatchingRow n,
      runForAllMatrices n mwm ⟨uniformTraffic n (ws.map EdgeColoring.rows), false⟩ = .ok rr ∧
      rr.num = ws.length ∧ (∀ k < ws.length, Heaviest (read k) (rows k)) ∧
      rr.sum = ∑ k ∈ Finset.range ws.length,
        Matching.SbQpsFixed.exactWeight (rows k) (read k) ∧
      ∀ k (hk : k < ws.length) (i o : Fin n),
        (k ≤ (i * n + o : ℕ) →
          read k i o = (EdgeColoring.rows ws[k]).flatten.getD (i * n + o - k) 0) ∧
        ((i * n + o + 1 : ℕ) = k → read k i o = n) := by
  obtain ⟨w, rest, rfl⟩ := List.exists_cons_of_ne_nil hne
  have htext := holds_uniformTraffic n ((w :: rest).map EdgeColoring.rows)
  rw [EdgeColoring.fileNumbers_rows] at htext
  have hcounts : ∀ k ∈ (EdgeColoring.sizedNumbers (w :: rest)).drop 1, IsCount k :=
    fun k hk => isCount_of_sizedNumbers hsize hws (List.mem_of_mem_drop hk)
  -- the sizes in between only make the file longer than the program needs
  have hlen : (w :: rest).length * (n * n)
      ≤ ((EdgeColoring.sizedNumbers (w :: rest)).drop 1).length := by
    rw [List.length_drop, length_sizedNumbers, Nat.mul_succ, List.length_cons]
    omega
  obtain ⟨rr, hrun, hnum', rows, hrows, hsum⟩ :=
    (runForAllMatrices_post hmwm hnum hsize hcounts hlen hmatchings htext).exists_ok
      (fun _ _ => not_false)
  exact ⟨rr, rows, hrun, hnum', hrows, hsum, fun k hk i o => blockMatrix_sizedNumbers hk i o⟩

/-- Three matrices, whose heaviest matchings weigh 6, 14 and 10: the third one is read as `7 2` over
    `5 5`, and the sum is not 30. -/
theorem runForAllMatrices_uniformTraffic_three :
    let ws : List (Weights 2) := [fun i o => if i = o then 3 else 1, fun _ _ => 7, fun _ _ => 5]
    ∃ rr, runForAllMatrices 2 MaxWeight.betterPair
      ⟨uniformTraffic 2 (ws.map EdgeColoring.rows), false⟩ = .ok rr ∧ rr.num = 3 ∧ rr.sum = 32 := by
  intro ws
  obtain ⟨rr, rows, hrun, hnum, hheaviest, hsum, hread⟩ := runForAllMatrices_uniformTraffic
    MaxWeight.betterPair_solves (by decide) (show ws ≠ [] by decide) (by decide) (by decide)
    (by decide)
  -- a heaviest matching of the matrix that is read weighs what the best of all rows does
  have hweigh : ∀ k (hk : k < ws.length) (best : MatchingRow 2), IsMatching best →
      (∀ row : MatchingRow 2, IsMatching row → Matching.SbQpsFixed.exactWeight row
        (blockMatrix 2 ((EdgeColoring.sizedNumbers ws).drop 1) k)
          ≤ Matching.SbQpsFixed.exactWeight best
            (blockMatrix 2 ((EdgeColoring.sizedNumbers ws).drop 1) k)) →
      Matching.SbQpsFixed.exactWeight (rows k)
        (blockMatrix 2 ((EdgeColoring.sizedNumbers ws).drop 1) k)
        = Matching.SbQpsFixed.exactWeight best
          (blockMatrix 2 ((EdgeColoring.sizedNumbers ws).drop 1) k) :=
    fun k hk best hbest hle =>
      le_antisymm (hle _ (hheaviest k hk).1) ((hheaviest k hk).2 best hbest)
  have h0 := hweigh 0 (by decide) (Serena.rowOf 1) (isMatching_rowOf 1) (by decide)
  have h1 := hweigh 1 (by decide) (Serena.rowOf (Equiv.swap 0 1)) (isMatching_rowOf _) (by decide)
  have h2 := hweigh 2 (by decide) (Serena.rowOf 1) (isMatching_rowOf 1) (by decide)
  refine ⟨rr, hrun, hnum, ?_⟩
  rw [hsum, show ws.length = 3 from rfl, Finset.sum_range_succ, Finset.sum_range_succ,
    Finset.sum_range_one, h0, h1, h2]
  decide

end MatchingMain

end SschedSimulator
