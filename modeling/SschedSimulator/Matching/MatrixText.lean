import Mathlib.Data.List.Basic
import SschedSimulator.Foundation.IntegerText
import SschedSimulator.Matching.IntSum

namespace SschedSimulator

open Foundation

/-!
# `utilities.h` — matrices in text files

`read_matrix` reads a square matrix row by row and stops at the first number that it cannot read; a
program that goes on with the same stream then reads nothing any more.

* `readVector`, `readMatrix` — the two readers;
* `readRows_eq` — reading a matrix is reading its numbers and cutting them into rows;
* `Holds.readMatrix` — a matrix is read from any text that holds its numbers;
* `holds_uniformTraffic` — what the files of `uniform_traffic.py` hold.
-/

namespace MatrixText

/-- `is >> val` for an `int`. -/
def readInt (is : IStream) : Option ℤ × IStream := is.readInt smallestInt largestInt

/-- `read_vector` for an empty vector. -/
def readVector : ℕ → IStream → List ℤ × IStream
  | 0, is => ([], is)
  | n + 1, is =>
    match readInt is with
    | (none, is') => ([], is')
    | (some val, is') =>
      -- a read that fails may store a value all the same; it does not get into the vector
      if is'.fail then ([], is')
      else
        let tail := readVector n is'
        (val :: tail.1, tail.2)

/-- The last `k` rows that `read_matrix` reads, with the number of their elements. -/
def readRows (n : ℕ) : ℕ → IStream → List (List ℤ) × ℕ × IStream
  | 0, is => ([], 0, is)
  | k + 1, is =>
    let row := readVector n is
    let rows := readRows n k row.2
    (row.1 :: rows.1, row.1.length + rows.2.1, rows.2.2)

/-- `read_matrix` for an empty matrix. -/
def readMatrix (n : ℕ) (is : IStream) : List (List ℤ) × ℕ × IStream := readRows n n is

/-! ### Reading the numbers of a matrix -/

/-- A stream that has failed gives nothing. -/
theorem readVector_of_fail {is : IStream} (h : is.fail = true) (n : ℕ) :
    readVector n is = ([], is) := by
  cases n with
  | zero => rfl
  | succ n => rw [readVector, readInt, IStream.readInt_of_fail h]

/-- Either the next number cannot be read, or it comes first. -/
theorem readVector_succ (is : IStream) :
    (∃ is', is'.fail = true ∧ ∀ n, readVector (n + 1) is = ([], is')) ∨
      ∃ val is', ∀ n, readVector (n + 1) is
        = (val :: (readVector n is').1, (readVector n is').2) := by
  cases hread : readInt is with
  | mk stored is' =>
    cases stored with
    | none =>
      refine .inl ⟨is', IStream.fail_of_readInt hread, fun n => ?_⟩
      rw [readVector, hread]
    | some val =>
      cases hfail : is'.fail with
      | true =>
        refine .inl ⟨is', hfail, fun n => ?_⟩
        rw [readVector, hread]
        exact if_pos hfail
      | false =>
        refine .inr ⟨val, is', fun n => ?_⟩
        rw [readVector, hread]
        exact if_neg (by simp [hfail])

/-- A vector is too short only if the stream fails. -/
theorem readVector_length (n : ℕ) (is : IStream) : (readVector n is).1.length = n ∨
    (readVector n is).1.length < n ∧ (readVector n is).2.fail = true := by
  induction n generalizing is with
  | zero => exact .inl rfl
  | succ n ih =>
    rcases readVector_succ is with ⟨is', hfail, hread⟩ | ⟨val, is', hread⟩
    · rw [hread]
      exact .inr ⟨Nat.succ_pos n, hfail⟩
    · rw [hread]
      rcases ih is' with hlen | ⟨hlen, hfail⟩
      · exact .inl (congrArg Nat.succ hlen)
      · exact .inr ⟨Nat.succ_lt_succ hlen, hfail⟩

/-- What is read in two parts is what is read at once. -/
theorem readVector_add (a b : ℕ) (is : IStream) :
    readVector (a + b) is = ((readVector a is).1 ++ (readVector b (readVector a is).2).1,
      (readVector b (readVector a is).2).2) := by
  induction a generalizing is with
  | zero =>
    rw [Nat.zero_add]
    rfl
  | succ a ih =>
    rw [Nat.succ_add]
    rcases readVector_succ is with ⟨is', hfail, hread⟩ | ⟨val, is', hread⟩
    · -- the first part ends early, and then the second part reads nothing
      rw [hread, hread, readVector_of_fail hfail]
      rfl
    · rw [hread, hread, ih]
      rfl

/-- The rows of a matrix with `n` columns and `k` rows, cut from its numbers. -/
def cutRows (n k : ℕ) (numbers : List ℤ) : List (List ℤ) :=
  (List.range k).map (fun j => (numbers.drop (j * n)).take n)

theorem cutRows_succ (n k : ℕ) (numbers : List ℤ) :
    cutRows n (k + 1) numbers = numbers.take n :: cutRows n k (numbers.drop n) := by
  unfold cutRows
  rw [List.range_succ_eq_map, List.map_cons, Nat.zero_mul, List.drop_zero, List.map_map]
  refine congrArg _ (List.map_congr_left (fun j _ => ?_))
  rw [Function.comp_apply, List.drop_drop, Nat.succ_mul, Nat.add_comm]

/-- `read_matrix` reads as many numbers as the matrix has elements, or those that there are, and
    cuts them into rows. -/
theorem readRows_eq (n k : ℕ) (is : IStream) :
    readRows n k is = (cutRows n k (readVector (k * n) is).1,
      (readVector (k * n) is).1.length, (readVector (k * n) is).2) := by
  induction k generalizing is with
  | zero =>
    rw [Nat.zero_mul]
    rfl
  | succ k ih =>
    have hrow : ((readVector n is).1 ++ (readVector (k * n) (readVector n is).2).1).take n
          = (readVector n is).1 ∧
        ((readVector n is).1 ++ (readVector (k * n) (readVector n is).2).1).drop n
          = (readVector (k * n) (readVector n is).2).1 := by
      rcases readVector_length n is with hlen | ⟨hlen, hfail⟩
      · exact ⟨List.take_left' hlen, List.drop_left' hlen⟩
      · -- the row is too short, so nothing follows it
        rw [readVector_of_fail hfail, List.append_nil]
        exact ⟨List.take_of_length_le hlen.le, List.drop_of_length_le hlen.le⟩
    rw [readRows, ih, Nat.succ_mul, Nat.add_comm (k * n), readVector_add, cutRows_succ, hrow.1,
      hrow.2, List.length_append]

/-- A square matrix with `n` rows. -/
structure IsSquare (n : ℕ) (matrix : List (List ℤ)) : Prop where
  rows : matrix.length = n
  columns : ∀ row ∈ matrix, row.length = n

theorem length_flatten {n : ℕ} {matrix : List (List ℤ)} (h : ∀ row ∈ matrix, row.length = n) :
    matrix.flatten.length = matrix.length * n := by
  induction matrix with
  | nil => rw [List.flatten_nil, List.length_nil, List.length_nil, Nat.zero_mul]
  | cons row matrix ih =>
    rw [List.flatten_cons, List.length_append, h row List.mem_cons_self,
      ih (fun r hr => h r (List.mem_cons_of_mem _ hr)), List.length_cons, Nat.succ_mul,
      Nat.add_comm]

/-- Cutting the numbers of a matrix gives its rows. -/
theorem cutRows_flatten {n : ℕ} {matrix : List (List ℤ)} (h : ∀ row ∈ matrix, row.length = n) :
    cutRows n matrix.length matrix.flatten = matrix := by
  induction matrix with
  | nil => rfl
  | cons row matrix ih =>
    have hlen : row.length = n := h row List.mem_cons_self
    rw [List.length_cons, cutRows_succ, List.flatten_cons, List.take_left' hlen,
      List.drop_left' hlen, ih (fun r hr => h r (List.mem_cons_of_mem _ hr))]

theorem IsSquare.length_flatten {n : ℕ} {matrix : List (List ℤ)} (h : IsSquare n matrix) :
    matrix.flatten.length = n * n := by
  rw [MatrixText.length_flatten h.columns, h.rows]

theorem IsSquare.cutRows_flatten {n : ℕ} {matrix : List (List ℤ)} (h : IsSquare n matrix) :
    cutRows n n matrix.flatten = matrix := by
  have hcut := MatrixText.cutRows_flatten h.columns
  rwa [h.rows] at hcut

theorem cutRows_isSquare {n : ℕ} {numbers : List ℤ} (h : numbers.length = n * n) :
    IsSquare n (cutRows n n numbers) := by
  refine ⟨by rw [cutRows, List.length_map, List.length_range], fun row hrow => ?_⟩
  obtain ⟨j, hj, rfl⟩ := List.mem_map.mp hrow
  have hle : (j + 1) * n ≤ n * n := Nat.mul_le_mul_right n (List.mem_range.mp hj)
  rw [List.length_take, List.length_drop, h]
  rw [Nat.succ_mul] at hle
  omega

/-! ### Texts that hold the numbers -/

/-- The first numbers of a text are read. -/
theorem readVector_of_holds {numbers rest : List ℤ} (hints : ∀ k ∈ numbers, IsInt k)
    {text : List Char} (h : Holds (numbers ++ rest) text) :
    ∃ text', readVector numbers.length ⟨text, false⟩ = (numbers, ⟨text', false⟩) ∧
      Holds rest text' := by
  induction numbers generalizing text with
  | nil => exact ⟨text, rfl, h⟩
  | cons k numbers ih =>
    have hk := hints k List.mem_cons_self
    obtain ⟨text₁, hread, h₁⟩ := h.readInt (List.cons_append) hk.1 hk.2
    obtain ⟨text₂, hread₂, h₂⟩ := ih (fun k' hk' => hints k' (List.mem_cons_of_mem _ hk')) h₁
    refine ⟨text₂, ?_, h₂⟩
    rw [List.length_cons, readVector, readInt, hread]
    dsimp only
    rw [if_neg Bool.false_ne_true, hread₂]

/-- `read_matrix` takes as many numbers as the matrix has elements. -/
theorem readMatrix_of_holds {n : ℕ} {numbers rest : List ℤ} (hlen : numbers.length = n * n)
    (hints : ∀ k ∈ numbers, IsInt k) {text : List Char} (h : Holds (numbers ++ rest) text) :
    ∃ text', readMatrix n ⟨text, false⟩ = (cutRows n n numbers, n * n, ⟨text', false⟩) ∧
      Holds rest text' := by
  obtain ⟨text', hread, hrest⟩ := readVector_of_holds hints h
  refine ⟨text', ?_, hrest⟩
  rw [readMatrix, readRows_eq, ← hlen, hread]

/-- A row as `savetxt` writes it: a tab stands between two numbers. -/
def line (row : List ℤ) : List Char := List.intercalate ['\t'] (row.map decimal) ++ ['\n']

/-- `np.savetxt(fout, matrix, fmt="%d", delimiter="\t")`. -/
def savetxt (matrix : List (List ℤ)) : List Char := matrix.flatMap line

/-- `uniform_traffic.py` for the matrices that it has drawn. -/
def uniformTraffic (size : ℕ) (matrices : List (List (List ℤ))) : List Char :=
  decimal matrices.length ++ '\n' ::
    matrices.flatMap (fun matrix => decimal size ++ '\n' :: savetxt matrix)

/-- The numbers in a file of `uniform_traffic.py`: each matrix comes after its size. -/
def fileNumbers (size : ℕ) (matrices : List (List (List ℤ))) : List ℤ :=
  (matrices.length : ℤ) :: matrices.flatMap (fun matrix => (size : ℤ) :: matrix.flatten)

theorem holds_line (row : List ℤ) {ks : List ℤ} {text : List Char} (h : Holds ks text) :
    Holds (row ++ ks) (line row ++ text) := by
  induction row with
  | nil => exact .space (by decide) h
  | cons k row ih =>
    -- the last number of a row ends with the line, the others with a tab
    cases row with
    | nil =>
      rw [line, List.map_cons, List.map_nil, List.intercalate_singleton, List.append_assoc]
      exact h.cons k (by decide)
    | cons k' row =>
      have hline : line (k :: k' :: row) = decimal k ++ '\t' :: line (k' :: row) := by
        unfold line
        simp [List.intercalate_cons_cons]
      rw [hline, List.append_assoc, List.cons_append, List.cons_append]
      exact ih.cons k (by decide)

theorem holds_savetxt (matrix : List (List ℤ)) {ks : List ℤ} {text : List Char}
    (h : Holds ks text) : Holds (matrix.flatten ++ ks) (savetxt matrix ++ text) := by
  induction matrix with
  | nil => exact h
  | cons row matrix ih =>
    rw [List.flatten_cons, savetxt, List.flatMap_cons, List.append_assoc, List.append_assoc]
    exact holds_line row ih

/-- A file of `uniform_traffic.py` holds the number of the matrices, and the size and the numbers of
    each. -/
theorem holds_uniformTraffic (size : ℕ) (matrices : List (List (List ℤ))) :
    Holds (fileNumbers size matrices) (uniformTraffic size matrices) := by
  refine Holds.cons ?_ _ (by decide)
  induction matrices with
  | nil => exact .nil
  | cons matrix matrices ih =>
    rw [List.flatMap_cons, List.flatMap_cons, List.append_assoc, List.cons_append, List.cons_append]
    exact (holds_savetxt matrix ih).cons _ (by decide)

end MatrixText

end SschedSimulator
