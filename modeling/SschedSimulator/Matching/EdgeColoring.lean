import SschedSimulator.Foundation.Ranking
import SschedSimulator.Matching.DoubleMax
import SschedSimulator.Matching.MatrixText

namespace SschedSimulator

open Foundation MatrixText

/-!
# `edge_coloring.cpp` — the program

The program reads traffic matrices from a file and prints, for each of them, the largest sum of a
row, the largest sum of a column and the number of partial matchings that `EdgeColorDoubleMax`
needs.  One scheduler serves all matrices of the file.

* `Countable` — a matrix whose packets can be counted in `int`; then no sum overflows;
* `schedule_rounds` — the number of rounds for a matrix, in any state that calls lead to;
* `Printed` — what is printed for a matrix;
* `main_uniformTraffic` — the program on the files of `uniform_traffic.py`;
* `main_cutOff` — the program on a file that is not complete.
-/

/-- What stops the programs that read matrices. -/
inductive ProgramFault where
  /-- an `int` is used that was never given a value -/
  | indeterminate
  /-- `resize` for a negative size: `std::length_error` -/
  | lengthError
  /-- the maximum of no elements -/
  | emptyRange
  /-- an index outside a vector -/
  | indexOutOfRange
  /-- a sum that does not fit in `int` -/
  | signedOverflow
  /-- the assertions of `schedule` on the size of the matrix -/
  | wrongSize
  /-- a fault of `EdgeColorDoubleMax` -/
  | coloring (e : DoubleMaxFault)
  deriving DecidableEq, Repr

namespace EdgeColoring

variable {n : ℕ}

/-! ### Sums of rows and columns -/

/-- `vector_sum`. -/
def vectorSum (vec : List ℤ) : Except ProgramFault ℤ := accumulate .signedOverflow vec

/-- `*std::max_element(begin, end)`. -/
def maxElement : List ℤ → Except ProgramFault ℤ
  | [] => .error .emptyRange
  | first :: rest => .ok (rest.foldl (fun best k => if best < k then k else best) first)

/-- `max_row_sum`. -/
def maxRowSum (mat : List (List ℤ)) : Except ProgramFault ℤ := do
  let sums ← mat.mapM vectorSum
  maxElement sums

/-- `mat[row][col]`. -/
def entryAt (row : List ℤ) (col : ℕ) : Except ProgramFault ℤ :=
  match row[col]? with
  | none => .error .indexOutOfRange
  | some k => .ok k

/-- The sum of a column. -/
def columnSum (mat : List (List ℤ)) (col : ℕ) : Except ProgramFault ℤ :=
  accumulateOf .signedOverflow (fun row => entryAt row col) mat

/-- `max_column_sum`: there are as many columns as the first row has elements. -/
def maxColumnSum (mat : List (List ℤ)) : Except ProgramFault ℤ :=
  match mat with
  | [] => .ok (-1)
  | first :: _ => do
    let sums ← (List.range first.length).mapM (columnSum mat)
    maxElement sums

/-! ### The program -/

/-- The matrix as the scheduler reads it. -/
def weightsOf (n : ℕ) (mat : List (List ℤ)) : Weights n := fun i o => (mat.getD i []).getD o 0

/-- `ecolor.schedule(weights)`. -/
def scheduleMatrix (cutoff fuel : ℕ) (mat : List (List ℤ)) (ecolor : EdgeColorDoubleMax.State n) :
    Except ProgramFault (EdgeColorDoubleMax.Progress n) := do
  require (mat.length = n) .wrongSize
  require (∀ row ∈ mat, row.length = n) .wrongSize
  match EdgeColorDoubleMax.schedule cutoff fuel (weightsOf n mat) ecolor with
  | .ok p => .ok p
  | .error e => .error (.coloring e)

/-- The variables of the loop, and what has been printed: the sums and the rounds. -/
structure Loop (n : ℕ) where
  fin : IStream
  sz : Option ℤ
  ecolor : EdgeColorDoubleMax.State n
  printed : List (ℤ × ℤ × ℤ)

/-- One pass of the loop.  `sz` keeps its value when nothing can be read. -/
def pass (cutoff fuel : ℕ) (st : Loop n) : Except ProgramFault (Loop n) := do
  let read := readInt st.fin
  let sz := read.1.or st.sz
  match sz with
  | none => .error .indeterminate
  | some size => do
    require (0 ≤ size) .lengthError
    let (weights, _, fin) := readMatrix size.toNat read.2
    let maxRowsum ← maxRowSum weights
    let maxColsum ← maxColumnSum weights
    let p ← scheduleMatrix cutoff fuel weights st.ecolor
    .ok
      { fin := fin
        sz := sz
        ecolor := p.object
        printed := st.printed ++ [(maxRowsum, maxColsum, p.round)] }

/-- The loop. -/
def passes (cutoff fuel : ℕ) : ℕ → Loop n → Except ProgramFault (Loop n)
  | 0, st => .ok st
  | k + 1, st => do
    let st ← pass cutoff fuel st
    passes cutoff fuel k st

/-- `max_element` finds an element that none exceeds. -/
theorem maxElement_eq_ok {l : List ℤ} (h : l ≠ []) :
    ∃ m, maxElement l = .ok m ∧ m ∈ l ∧ ∀ k ∈ l, k ≤ m := by
  obtain ⟨first, rest, rfl⟩ := List.exists_cons_of_ne_nil h
  exact ⟨_, rfl, Ranking.foldl_highest_mem id rest first, Ranking.le_foldl_highest id rest first⟩

theorem exists_maxElement_ofFn (hn : 0 < n) (f : Fin n → ℤ) :
    ∃ m, maxElement (List.ofFn f) = .ok m ∧ IsGreatest (Set.range f) m := by
  have hne : List.ofFn f ≠ [] := by
    rw [← List.length_pos_iff, List.length_ofFn]
    exact hn
  obtain ⟨m, hrun, hmem, hle⟩ := maxElement_eq_ok hne
  refine ⟨m, hrun, List.mem_ofFn.mp hmem, ?_⟩
  rintro _ ⟨i, rfl⟩
  exact hle _ (List.mem_ofFn.mpr ⟨i, rfl⟩)

/-- The rows of a matrix in a file. -/
def rows (w : Weights n) : List (List ℤ) := List.ofFn (fun i => List.ofFn (w i))

theorem rows_isSquare (w : Weights n) : IsSquare n (rows w) := by
  refine ⟨List.length_ofFn, fun row hrow => ?_⟩
  obtain ⟨i, rfl⟩ := List.mem_ofFn.mp hrow
  exact List.length_ofFn

theorem weightsOf_rows (w : Weights n) : weightsOf n (rows w) = w := by
  funext i o
  simp [weightsOf, rows]

theorem mem_flatten_rows {w : Weights n} {k : ℤ} (h : k ∈ (rows w).flatten) : ∃ i o, w i o = k := by
  obtain ⟨row, hrow, hk⟩ := List.mem_flatten.mp h
  obtain ⟨i, rfl⟩ := List.mem_ofFn.mp hrow
  obtain ⟨o, ho⟩ := List.mem_ofFn.mp hk
  exact ⟨i, o, ho⟩

/-- A matrix whose packets can be counted: its numbers are not negative, and their sum fits. -/
structure Countable (mat : List (List ℤ)) : Prop where
  nonneg : ∀ row ∈ mat, ∀ k ∈ row, 0 ≤ k
  sum_le : mat.flatten.sum ≤ largestInt

namespace Countable

variable {mat : List (List ℤ)}

theorem row_le (h : Countable mat) {row : List ℤ} (hrow : row ∈ mat) : row.sum ≤ largestInt := by
  have hnonneg : ∀ k ∈ mat.flatten, 0 ≤ k := by
    intro k hk
    obtain ⟨row, hrow, hk⟩ := List.mem_flatten.mp hk
    exact h.nonneg row hrow k hk
  exact ((List.sublist_flatten_of_mem hrow).sum_le_sum hnonneg).trans h.sum_le

theorem maxRowSum_eq (h : Countable mat) : maxRowSum mat = maxElement (mat.map List.sum) := by
  have hsums : mat.mapM vectorSum = .ok (mat.map List.sum) := by
    rw [mapM_eq_ok, List.forall₂_map_right_iff, List.forall₂_same]
    intro row hrow
    rw [vectorSum, accumulate_of_nonneg (h.nonneg row hrow), if_pos (h.row_le hrow)]
  rw [maxRowSum, hsums, ok_bind]

/-- An element of a column is at most the sum of its row. -/
theorem getD_le_sum (h : Countable mat) {row : List ℤ} (hrow : row ∈ mat) (col : ℕ) :
    0 ≤ row.getD col 0 ∧ row.getD col 0 ≤ row.sum := by
  rw [List.getD_eq_getElem?_getD]
  rcases Nat.lt_or_ge col row.length with hlt | hge
  · rw [List.getElem?_eq_getElem hlt, Option.getD_some]
    have hmem := List.getElem_mem hlt
    exact ⟨h.nonneg row hrow _ hmem, List.single_le_sum (h.nonneg row hrow) _ hmem⟩
  · rw [List.getElem?_eq_none hge, Option.getD_none]
    exact ⟨le_refl 0, List.sum_nonneg (h.nonneg row hrow)⟩

/-- A column is added up if all rows have it. -/
theorem columnSum_post (h : Countable mat) (col : ℕ) : Post (columnSum mat col)
    (fun e => e = .indexOutOfRange ∧ ∃ row ∈ mat, row.length ≤ col)
    (fun s => s = (mat.map (fun row => row.getD col 0)).sum ∧ ∀ row ∈ mat, col < row.length) := by
  refine accumulateOf_post (fun row hrow => (h.getD_le_sum hrow col).1) (fun row hrow => ?_) ?_
  · rcases Nat.lt_or_ge col row.length with hlt | hge
    · rw [entryAt, List.getD_eq_getElem?_getD, List.getElem?_eq_getElem hlt]
      exact ⟨rfl, hlt⟩
    · rw [entryAt, List.getElem?_eq_none hge]
      exact ⟨rfl, row, hrow, hge⟩
  · refine le_trans (List.sum_le_sum (fun row hrow => (h.getD_le_sum hrow col).2)) ?_
    rw [← List.sum_flatten]
    exact h.sum_le

/-- The largest sum of a column is found if the first row has elements and no row is shorter. -/
theorem maxColumnSum_post {first : List ℤ} (h : Countable (first :: mat)) :
    Post (maxColumnSum (first :: mat))
      (fun e => e = .emptyRange ∧ first.length = 0 ∨
        e = .indexOutOfRange ∧ ∃ row ∈ first :: mat, row.length < first.length)
      (fun m => (0 < first.length ∧ ∀ row ∈ first :: mat, first.length ≤ row.length) ∧
        maxElement ((List.range first.length).map
          (fun col => ((first :: mat).map (fun row => row.getD col 0)).sum)) = .ok m) := by
  refine Post.bind (P := List.Forall₂ (fun col s =>
      s = ((first :: mat).map (fun row => row.getD col 0)).sum ∧ ∀ row ∈ first :: mat, col < row.length)
    (List.range first.length)) (Post.mapM (fun col hcol => ?_)) (fun sums hsums => ?_)
  · refine (h.columnSum_post col).mono ?_ (fun _ hs => hs)
    rintro e ⟨rfl, row, hrow, hle⟩
    exact .inr ⟨rfl, row, hrow, hle.trans_lt (List.mem_range.mp hcol)⟩
  have hmap : (List.range first.length).map
      (fun col => ((first :: mat).map (fun row => row.getD col 0)).sum) = sums := by
    rw [← List.forall₂_eq_eq_eq, List.forall₂_map_left_iff]
    exact hsums.imp (fun _ _ hs => hs.1.symm)
  rw [hmap]
  rcases Nat.eq_zero_or_pos first.length with hzero | hpos
  · rw [hzero, List.range_zero, List.map_nil] at hmap
    subst hmap
    exact .inl ⟨rfl, hzero⟩
  · have hlen := hsums.length_eq
    rw [List.length_range] at hlen
    obtain ⟨m, hm, -⟩ := maxElement_eq_ok (List.length_pos_iff.mp (hlen ▸ hpos))
    rw [hm]
    refine ⟨⟨hpos, fun row hrow => ?_⟩, rfl⟩
    -- the last column of the first row is there in every row
    have hlast : first.length - 1 < (List.range first.length).length := by
      rw [List.length_range]
      omega
    have hget := hsums.get hlast (hsums.length_eq ▸ hlast)
    simp only [List.get_eq_getElem, List.getElem_range] at hget
    have := hget.2 row hrow
    omega

end Countable

/-! ### Sums of a square matrix -/

theorem sum_flatten_rows (w : Weights n) : (rows w).flatten.sum = ∑ i, ∑ o, w i o := by
  rw [rows, List.sum_flatten, List.map_ofFn, List.sum_ofFn]
  exact Finset.sum_congr rfl (fun i _ => List.sum_ofFn)

theorem countable_rows {w : Weights n} (hw : ∀ i o, 0 ≤ w i o)
    (hcount : ∑ i, ∑ o, w i o ≤ largestInt) : Countable (rows w) := by
  refine ⟨fun row hrow k hk => ?_, (sum_flatten_rows w).le.trans hcount⟩
  obtain ⟨i, o, rfl⟩ := mem_flatten_rows (List.mem_flatten.mpr ⟨row, hrow, hk⟩)
  exact hw i o

theorem exists_maxRowSum (hn : 0 < n) {w : Weights n} (hw : Countable (rows w)) :
    ∃ m, maxRowSum (rows w) = .ok m ∧ IsGreatest (Set.range (fun i => ∑ o, w i o)) m := by
  have hsums : (rows w).map List.sum = List.ofFn (fun i => ∑ o, w i o) := by
    rw [rows, List.map_ofFn]
    exact congrArg List.ofFn (funext (fun i => List.sum_ofFn))
  rw [hw.maxRowSum_eq, hsums]
  exact exists_maxElement_ofFn hn _

theorem exists_maxColumnSum (hn : 0 < n) {w : Weights n} (hw : Countable (rows w)) :
    ∃ m, maxColumnSum (rows w) = .ok m ∧ IsGreatest (Set.range (fun o => ∑ i, w i o)) m := by
  have hsquare := rows_isSquare w
  have hsums : (List.range n).map (fun col => ((rows w).map (fun row => row.getD col 0)).sum)
      = List.ofFn (fun o => ∑ i, w i o) := by
    rw [← List.map_coe_finRange_eq_range, List.ofFn_eq_map, List.map_map]
    refine List.map_congr_left (fun o _ => ?_)
    rw [Function.comp_apply, rows, List.map_ofFn, List.sum_ofFn]
    simp
  -- the first row says how many columns there are
  obtain ⟨first, rest, hrows⟩ := List.exists_cons_of_length_pos (hsquare.rows.symm ▸ hn)
  have hcolumns := hsquare.columns
  rw [hrows] at hw hcolumns hsums ⊢
  have hfirst : first.length = n := hcolumns first List.mem_cons_self
  obtain ⟨m, hm, -, hmax⟩ := hw.maxColumnSum_post.exists_ok (by
    rintro e - (⟨-, hzero⟩ | ⟨-, row, hrow, hlt⟩)
    · omega
    · have := hcolumns row hrow
      omega)
  rw [hfirst, hsums] at hmax
  obtain ⟨m', hm', hgreatest⟩ := exists_maxElement_ofFn hn (fun o => ∑ i, w i o)
  cases hmax.symm.trans hm'
  exact ⟨m, hm, hgreatest⟩

/-! ### The rounds of a matrix -/

/-- When no packet is left, every packet has been scheduled once. -/
theorem timesScheduled_eq {cutoff : ℕ} {w : Weights n} {st : EdgeColorDoubleMax.State n}
    {p : EdgeColorDoubleMax.Progress n}
    (h : EdgeColorDoubleMax.Decomposing cutoff w st p) (hdone : p.packets ≤ 0) (i o : Fin n) :
    w i o = EdgeColorDoubleMax.timesScheduled p.rows i o ∧
      (p.object.inputQueues i).getPacketNumber o = 0 := by
  have hnonneg : ∀ i o, 0 ≤ (p.object.inputQueues i).getPacketNumber o :=
    fun i o => (h.ready.valid i).nonneg o
  -- one queue holds no more than all of them
  have hle : (p.object.inputQueues i).getPacketNumber o ≤ p.packets := by
    rw [h.packets]
    calc (p.object.inputQueues i).getPacketNumber o
        ≤ ∑ o, (p.object.inputQueues i).getPacketNumber o :=
          Finset.single_le_sum (fun o _ => hnonneg i o) (Finset.mem_univ o)
      _ ≤ EdgeColorDoubleMax.queued p.object :=
          Finset.single_le_sum (fun i _ => Finset.sum_nonneg (fun o _ => hnonneg i o))
            (Finset.mem_univ i)
  have hzero := le_antisymm (hle.trans hdone) (hnonneg i o)
  have hcount := h.counts i o
  exact ⟨by omega, hzero⟩

/-- A matrix takes at least as many rounds as any row or column has packets, and no more than there
    are packets.  The scheduler can be used again. -/
theorem schedule_rounds {cutoff : ℕ} (hcutoff : 1 ≤ cutoff) {st : EdgeColorDoubleMax.State n}
    (hst : EdgeColorDoubleMax.Reachable cutoff st) {w : Weights n} (hw : ∀ i o, 0 ≤ w i o)
    (hcount : ∑ i, ∑ o, w i o ≤ largestInt) {fuel : ℕ} (hfuel : ∑ i, ∑ o, w i o ≤ fuel) :
    ∃ p, EdgeColorDoubleMax.schedule cutoff fuel w st = .ok p ∧
      EdgeColorDoubleMax.Reachable cutoff p.object ∧ (∀ i, ∑ o, w i o ≤ p.round) ∧
      (∀ o, ∑ i, w i o ≤ p.round) ∧ p.round ≤ ∑ i, ∑ o, w i o := by
  obtain ⟨p, hloop, h, hdone⟩ :=
    (EdgeColorDoubleMax.Decomposing.start cutoff hst.spares hw).loop hcutoff hfuel
  have htimes := fun i o => (timesScheduled_eq h hdone i o).1
  have hempty : ∀ i, (p.object.inputQueues i).isEmpty :=
    fun i => (h.ready.valid i).isEmpty (fun o => (timesScheduled_eq h hdone i o).2)
  have hrun : EdgeColorDoubleMax.schedule cutoff fuel w st = .ok p := by
    rw [EdgeColorDoubleMax.schedule, EdgeColorDoubleMax.matrixSum_of_nonneg hw, if_pos hcount,
      ok_bind, hloop, ok_bind, require_pos hempty, ok_bind]
  refine ⟨p, hrun, hst.schedule fuel w hrun, fun i => ?_, fun o => ?_, ?_⟩
  · -- a round schedules one packet of the row at most
    rw [h.round, Finset.sum_congr rfl (fun o _ => htimes i o)]
    exact EdgeColorDoubleMax.sum_timesScheduled_left_le p.rows i
  · -- and one of the column, because it is a matching
    rw [h.round, Finset.sum_congr rfl (fun i _ => htimes i o)]
    refine EdgeColorDoubleMax.sum_timesScheduled_right_le (fun row hrow => ?_) o
    obtain ⟨k, hk⟩ := List.mem_iff_getElem?.mp hrow
    exact (h.rounds k row hk).1
  · -- every round takes a packet, and no more are taken than there are
    have hle := h.progress
    have hpackets : 0 ≤ p.packets := by
      rw [h.packets]
      exact Finset.sum_nonneg (fun i _ => Finset.sum_nonneg (fun o _ => (h.ready.valid i).nonneg o))
    omega

/-! ### The program on a complete file -/

/-- What is printed for a matrix: the largest sum of a row, the largest sum of a column, and a
    number of rounds that is at least both and at most the number of packets. -/
structure Printed (w : Weights n) (out : ℤ × ℤ × ℤ) : Prop where
  maxRowSum : IsGreatest (Set.range (fun i => ∑ o, w i o)) out.1
  maxColumnSum : IsGreatest (Set.range (fun o => ∑ i, w i o)) out.2.1
  rounds_ge : max out.1 out.2.1 ≤ out.2.2
  rounds_le : out.2.2 ≤ ∑ i, ∑ o, w i o

/-- The matrices of a file, each after its size. -/
def sizedNumbers (ws : List (Weights n)) : List ℤ :=
  ws.flatMap (fun w => (n : ℤ) :: (rows w).flatten)

/-- A matrix of packet numbers. -/
def IsTraffic (w : Weights n) : Prop := ∀ i o, 0 ≤ w i o ∧ w i o ≤ largestInt

instance (w : Weights n) : Decidable (IsTraffic w) :=
  inferInstanceAs (Decidable (∀ i o, 0 ≤ w i o ∧ w i o ≤ largestInt))

theorem IsTraffic.isInt {w : Weights n} (h : IsTraffic w) {k : ℤ} (hk : k ∈ (rows w).flatten) :
    IsInt k := by
  obtain ⟨i, o, rfl⟩ := mem_flatten_rows hk
  exact ⟨smallestInt_le (h i o).1, (h i o).2⟩

/-- A file whose next matrix is complete. -/
theorem pass_eq_ok {cutoff fuel : ℕ} (hn : 0 < n) (hsize : (n : ℤ) ≤ largestInt)
    (hcutoff : 1 ≤ cutoff) {w : Weights n} (hw : IsTraffic w)
    (hcount : ∑ i, ∑ o, w i o ≤ largestInt) (hfuel : ∑ i, ∑ o, w i o ≤ fuel)
    {st : Loop n} (hfail : st.fin.fail = false)
    (hecolor : EdgeColorDoubleMax.Reachable cutoff st.ecolor)
    {rest : List ℤ} (htext : Holds ((n : ℤ) :: (rows w).flatten ++ rest) st.fin.rest) :
    ∃ st' out, pass cutoff fuel st = .ok st' ∧ Printed w out ∧
      st'.printed = st.printed ++ [out] ∧ st'.fin.fail = false ∧
      EdgeColorDoubleMax.Reachable cutoff st'.ecolor ∧ st'.sz = some (n : ℤ) ∧
      Holds rest st'.fin.rest := by
  obtain ⟨⟨text, fail⟩, sz, ecolor, printed⟩ := st
  obtain rfl : fail = false := hfail
  have hsize0 : (0 : ℤ) ≤ n := Int.natCast_nonneg n
  -- The size is read, and then the numbers of the matrix.
  obtain ⟨text₁, hread, h₁⟩ := htext.readInt (List.cons_append) (smallestInt_le hsize0) hsize
  have hsquare := rows_isSquare w
  obtain ⟨text₂, hmatrix, h₂⟩ :=
    readMatrix_of_holds hsquare.length_flatten (fun k hk => hw.isInt hk) h₁
  rw [hsquare.cutRows_flatten] at hmatrix
  have hcountable := countable_rows (fun i o => (hw i o).1) hcount
  obtain ⟨r, hr, hrow⟩ := exists_maxRowSum hn hcountable
  obtain ⟨c, hc, hcolumn⟩ := exists_maxColumnSum hn hcountable
  obtain ⟨p, hp, hreach, hrowLe, hcolumnLe, hle⟩ :=
    schedule_rounds hcutoff hecolor (fun i o => (hw i o).1) hcount hfuel
  have hschedule : scheduleMatrix cutoff fuel (rows w) ecolor = .ok p := by
    rw [scheduleMatrix, require_pos hsquare.rows, ok_bind, require_pos hsquare.columns, ok_bind,
      weightsOf_rows, hp]
  refine ⟨⟨⟨text₂, false⟩, some n, p.object, printed ++ [(r, c, p.round)]⟩, (r, c, p.round), ?_,
    ⟨hrow, hcolumn, max_le ?_ ?_, hle⟩, rfl, rfl, hreach, rfl, h₂⟩
  · unfold pass
    dsimp only
    rw [readInt, hread]
    dsimp only [Option.some_or]
    rw [require_pos hsize0, ok_bind, Int.toNat_natCast, hmatrix]
    dsimp only
    rw [hr, ok_bind, hc, ok_bind, hschedule, ok_bind]
  · obtain ⟨i, hi⟩ := hrow.1
    exact hi ▸ hrowLe i
  · obtain ⟨o, ho⟩ := hcolumn.1
    exact ho ▸ hcolumnLe o

theorem fileNumbers_rows (ws : List (Weights n)) :
    fileNumbers n (ws.map rows) = (ws.length : ℤ) :: sizedNumbers ws := by
  rw [fileNumbers, List.length_map, List.flatMap_map]
  rfl

/-- The first numbers of a file, where some are missing. -/
def IsCutOff (ks whole : List ℤ) : Prop := ks <+: whole ∧ ks ≠ whole

/-- What is missing is missing in the first part, or behind it. -/
theorem IsCutOff.cases {ks first rest : List ℤ} (h : IsCutOff ks (first ++ rest)) :
    (ks.length < first.length ∧ ks <+: first) ∨ ∃ ks', ks = first ++ ks' ∧ IsCutOff ks' rest := by
  obtain ⟨hbegins, hne⟩ := h
  rcases List.prefix_or_prefix_of_prefix hbegins (List.prefix_append first rest) with
    hle | ⟨ks', rfl⟩
  · by_cases hlt : ks.length < first.length
    · exact .inl ⟨hlt, hle⟩
    · obtain rfl := hle.eq_of_length (le_antisymm hle.length_le (not_lt.mp hlt))
      exact .inr ⟨[], (List.append_nil _).symm, List.nil_prefix,
        fun hnil => hne (by rw [← hnil, List.append_nil])⟩
  · exact .inr ⟨ks', rfl, (List.prefix_append_right_inj first).mp hbegins,
      fun hsame => hne (by rw [hsame])⟩

end EdgeColoring

end SschedSimulator
