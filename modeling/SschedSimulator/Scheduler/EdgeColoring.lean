import SschedSimulator.Foundation.Arrangement
import SschedSimulator.Foundation.Bitset
import SschedSimulator.Foundation.Coloring
import SschedSimulator.Saber.Utils
import SschedSimulator.Switch.Switching

namespace SschedSimulator

open Foundation

/-!
# `edge_coloring_batch_scheduler.cc` — the scheduler `RandomizedEdgeColoringCAggarwal`

The arrivals of a frame are collected in a bipartite multigraph.  At the end of the frame its edges
are coloured, and the edges of colour `c` are dispatched at slot `c` of the next frame.  An edge
gets a random colour among the free ones below the frame size; if there is none, a loop looks for
one above it.

* `colorEdge`, `colorFrame`, `schedule` — the operations of the source.  The colour of an edge is
  the number that was drawn, not the free colour at that position, and the loop above the frame
  size runs to its end, so that the assertion behind it fails;
* `Colored` — the invariant of the colouring: the bits of the ports and the table say what was
  assigned so far;
* `KeptApart` — the numbers drawn for edges that clash are different and no edge runs out of
  colours;
* `properFrame_iff` — a frame is properly coloured exactly when the draws keep edges apart that
  share a port.

The switch is square unless another number of outputs is given.  The source gives the bits of the
outputs as many elements as there are inputs.
-/

/-- `MAX_BATCH_SIZE`. -/
abbrev maxBatchSize : ℕ := 32768

namespace EdgeColoring

variable {n m : ℕ}

/-- A vector of schedule rows. -/
structure Schedules (n : ℕ) (m : ℕ := n) where
  size : ℕ
  row : ℕ → Fin n → Option (Fin m)

namespace Schedules

/-- `k` rows of `-1`. -/
def null (k : ℕ) : Schedules n m where
  size := k
  row := fun _ _ => none

/-- `resize`, with rows of `-1`. -/
def resize (k : ℕ) (s : Schedules n m) : Schedules n m where
  size := k
  row := fun c => if c < s.size then s.row c else fun _ => none

/-- `emplace_back`, with a row of `-1`. -/
def emplaceBack (s : Schedules n m) : Schedules n m where
  size := s.size + 1
  row := Function.update s.row s.size (fun _ => none)

/-- Write `j` to cell `i` of row `c`. -/
def write (c : ℕ) (i : Fin n) (j : Fin m) (s : Schedules n m) :
    Except Fault (Schedules n m) := do
  require (c < s.size) .indexOutOfRange
  .ok { s with row := update₂ s.row c i (some j) }

end Schedules

/-- The members of `RandomizedEdgeColoringCAggarwal` that change. -/
structure State (n : ℕ) (m : ℕ := n) where
  multigraphAdj : Fin n → List (Fin m)
  batchSize : ℕ
  cfRelTime : ℕ
  pfRelTime : ℕ
  schedules : Schedules n m
  schedulesPre : Schedules n m
  inMatch : Fin n → Option (Fin m)

/-- The random choices of one call: the order of the edges of an input and the `k`-th number drawn,
    out of `size`. -/
structure Draws where
  shuffle : Reorder ℕ
  color : ℕ → ℕ → ℕ
  color_lt : ∀ k size, 0 < size → color k size < size

/-- The constructor, with the frame size `B`. -/
def State.initial (B : ℕ) : State n m where
  multigraphAdj := fun _ => []
  batchSize := B
  cfRelTime := 0
  pfRelTime := 0
  schedules := .null B
  schedulesPre := .null 0
  inMatch := fun _ => none

/-- `reset`. -/
def reset (B : ℕ) (st : State n m) : State n m :=
  { st with
    multigraphAdj := fun _ => []
    batchSize := B
    cfRelTime := 0
    pfRelTime := 0
    schedules := st.schedules.resize B
    schedulesPre := .null 0 }

/-- Append every arrival to the edges of its input. -/
def addEdges (adj : Fin n → List (Fin m)) (arrivals : List (Fin n × Fin m)) :
    Fin n → List (Fin m) :=
  arrivals.foldl (fun adj p => Function.update adj p.1 (adj p.1 ++ [p.2])) adj

/-- `handle_arrivals`. -/
def handleArrivals (sw : IQSwitch n m) (st : State n m) : State n m :=
  { st with multigraphAdj := addEdges st.multigraphAdj sw.getArrivals }

/-! ### Colouring a frame -/

/-- The local variables of the colouring.  A set bit in `freeColorsIn` or `freeColorsOut` marks a
    colour that is in use at the port; `drawn` is how many numbers were drawn so far, and `assigned`
    is the history of the writes to `schedules`. -/
structure Coloring (n : ℕ) (m : ℕ := n) where
  freeColorsIn : Fin n → Bitset maxBatchSize
  freeColorsOut : Fin m → Bitset maxBatchSize
  nextFreeColor : Fin n → Fin m → ℕ
  frameSizeNext : ℕ
  schedules : Schedules n m
  drawn : ℕ
  assigned : Assigned (Fin n) (Fin m)

namespace Coloring

/-- Nothing coloured yet. -/
def start (batchSize : ℕ) (schedules : Schedules n m) : Coloring n m where
  freeColorsIn := fun _ => 0
  freeColorsOut := fun _ => 0
  nextFreeColor := fun _ _ => batchSize
  frameSizeNext := batchSize
  schedules := schedules
  drawn := 0
  assigned := []

/-- Whether colour `c` is in use at neither port. -/
def isFree (col : Coloring n m) (i : Fin n) (j : Fin m) (c : ℕ) : Bool :=
  !(col.freeColorsIn i).test c && !(col.freeColorsOut j).test c

/-- Mark colour `c` at both ports; a position outside the bit set throws. -/
def mark (i : Fin n) (j : Fin m) (c : ℕ) (col : Coloring n m) : Except Fault (Coloring n m) := do
  require (c < maxBatchSize) .bitOutOfRange
  .ok
    { col with
      freeColorsIn := Function.update col.freeColorsIn i ((col.freeColorsIn i).set c)
      freeColorsOut := Function.update col.freeColorsOut j ((col.freeColorsOut j).set c) }

/-- `schedules[c][i] = j`. -/
def write (i : Fin n) (j : Fin m) (c : ℕ) (col : Coloring n m) : Except Fault (Coloring n m) := do
  let schedules ← col.schedules.write c i j
  .ok { col with schedules := schedules, assigned := col.assigned ++ [((i, j), c)] }

/-- Append rows until there is one for colour `gc`. -/
def grow (gc : ℕ) (col : Coloring n m) : Coloring n m :=
  { col with
    schedules := Schedules.emplaceBack^[gc + 1 - col.frameSizeNext] col.schedules
    frameSizeNext := max col.frameSizeNext (gc + 1) }

/-- The body of the loop over the extra colours. -/
def greedyStep (i : Fin n) (j : Fin m) (col : Coloring n m) (gc : ℕ) :
    Except Fault (Coloring n m) :=
  if col.isFree i j gc then do
    let col' ← col.mark i j gc
    (col'.grow gc).write i j gc
  else .ok col

/-- The colouring with extra colours.  The loop has no `break`: it stops at `MAX_BATCH_SIZE`. -/
def greedy (i : Fin n) (j : Fin m) (col : Coloring n m) : Except Fault (Coloring n m) := do
  let col' ← (List.range' (col.nextFreeColor i j) (maxBatchSize - col.nextFreeColor i j)).foldlM
    (greedyStep i j) col
  let gc := max (col.nextFreeColor i j) maxBatchSize
  require (gc < maxBatchSize) .outOfColours
  .ok { col' with nextFreeColor := update₂ col'.nextFreeColor i j (gc + 1) }

/-- `free_colors`: the loop tests every position below the frame size. -/
def freeColors (batchSize : ℕ) (i : Fin n) (j : Fin m) (col : Coloring n m) :
    Except Fault (List ℕ) := do
  require (batchSize ≤ maxBatchSize) .bitOutOfRange
  .ok ((List.range batchSize).filter (col.isFree i j))

end Coloring

/-- The colouring of one edge. -/
def colorEdge (draws : Draws) (batchSize : ℕ) (col : Coloring n m) (e : Fin n × Fin m) :
    Except Fault (Coloring n m) := do
  -- `free_colors_out` has `num_inputs()` elements
  require (e.2.val < n) .indexOutOfRange
  let freeColors ← col.freeColors batchSize e.1 e.2
  if freeColors = [] then col.greedy e.1 e.2
  else do
    -- the number drawn is a position in `free_colors`, and it is used as the colour
    let c := draws.color col.drawn freeColors.length
    let col' ← { col with drawn := col.drawn + 1 }.mark e.1 e.2 c
    col'.write e.1 e.2 c

/-- `max_deg`. -/
def maxDeg (adj : Fin n → List (Fin m)) : ℕ :=
  (List.finRange n).foldl (fun deg i => max deg (adj i).length) 0

/-- The edges in the order in which they are coloured: for each `s` of `perm` the `s`-th edge of
    every input that has one. -/
def edges (perm : List ℕ) (adj : Fin n → List (Fin m)) : List (Fin n × Fin m) :=
  perm.flatMap (fun s => (List.finRange n).filterMap (fun i => (adj i)[s]?.map (fun j => (i, j))))

/-- The edges in the order in which a call colours them. -/
def shuffledEdges (draws : Draws) (adj : Fin n → List (Fin m)) : List (Fin n × Fin m) :=
  edges (draws.shuffle.run (List.range (maxDeg adj))) adj

/-- The colouring of all edges. -/
def colorFrame (draws : Draws) (st : State n m) : Except Fault (Coloring n m) :=
  (shuffledEdges draws st.multigraphAdj).foldlM (colorEdge draws st.batchSize)
    (.start st.batchSize st.schedules)

/-! ### One call -/

/-- Dispatch the next row of the previous frame, if there was one. -/
def dispatchPre (st : State n m) : Except Fault (State n m) :=
  if st.schedulesPre.size = 0 then .ok st
  else do
    require (st.pfRelTime < st.schedulesPre.size) .frameTime
    .ok
      { st with
        inMatch := st.schedulesPre.row st.pfRelTime
        schedulesPre :=
          { st.schedulesPre with
            row := Function.update st.schedulesPre.row st.pfRelTime (fun _ => none) }
        pfRelTime := st.pfRelTime + 1 }

/-- The end of a frame: the coloured rows become those of the previous frame. -/
def endFrame (col : Coloring n m) (st : State n m) : Except Fault (State n m) := do
  require (st.pfRelTime = st.schedulesPre.size) .frameTime
  require (col.frameSizeNext ≤ col.schedules.size) .indexOutOfRange
  .ok
    { st with
      cfRelTime := 0
      batchSize := col.frameSizeNext
      schedulesPre := ⟨col.frameSizeNext, col.schedules.row⟩
      schedules :=
        { col.schedules with
          row := fun k => if k < col.frameSizeNext then fun _ => none else col.schedules.row k }
      pfRelTime := 0 }

/-- `schedule`. -/
def schedule (draws : Draws) (sw : IQSwitch n m) (st : State n m) : Except Fault (State n m) := do
  let st₀ ← dispatchPre { st with cfRelTime := st.cfRelTime + 1 }
  let st₁ := handleArrivals sw st₀
  if st₁.cfRelTime < st₁.batchSize then .ok st₁
  else do
    let col ← colorFrame draws st₁
    endFrame col st₁

/-- The scheduler as a switch drives it. -/
abbrev model (n m : ℕ) : SchedulerModel n m where
  State := State n m
  Input := Draws
  schedule := schedule
  inMatch := State.inMatch

/-! ### The draws -/

/-- The colours below `B` that no edge sharing a port with `e` was assigned. -/
def unusedFor (B : ℕ) (a : Assigned (Fin n) (Fin n)) (e : Fin n × Fin n) : List ℕ :=
  (List.range B).filter (fun c => ∀ x ∈ a, SharePort x.1 e → x.2 ≠ c)

/-- The number drawn for `e` after the edges of `a`. -/
def drawnFor (B : ℕ) (draws : Draws) (a : Assigned (Fin n) (Fin n)) (e : Fin n × Fin n) : ℕ :=
  draws.color a.length (unusedFor B a e).length

/-- When every edge is assigned the number that is drawn for it, no edge runs out of colours and
    none draws the number of an earlier edge that it clashes with. -/
def KeptApart (clash : Fin n × Fin n → Fin n × Fin n → Prop) (B : ℕ) (draws : Draws) :
    Assigned (Fin n) (Fin n) → List (Fin n × Fin n) → Prop
  | _, [] => True
  | a, e :: rest =>
    (B ≤ maxBatchSize ∧ unusedFor B a e ≠ []) ∧
      (∀ x ∈ a, clash x.1 e → x.2 ≠ drawnFor B draws a e) ∧
      KeptApart clash B draws (a ++ [(e, drawnFor B draws a e)]) rest

instance decidableKeptApart (clash : Fin n × Fin n → Fin n × Fin n → Prop) [DecidableRel clash]
    (B : ℕ) (draws : Draws) : ∀ a es, Decidable (KeptApart clash B draws a es)
  | _, [] => .isTrue trivial
  | a, e :: rest =>
    have : Decidable (KeptApart clash B draws (a ++ [(e, drawnFor B draws a e)]) rest) :=
      decidableKeptApart clash B draws _ rest
    inferInstanceAs (Decidable (_ ∧ _ ∧ _))

/-! ### The colouring of one edge -/

variable {B : ℕ} {draws : Draws} {col col' : Coloring n}

/-- The bits of the ports and the table say what was assigned, always to colours below `B`. -/
structure Colored (B : ℕ) (col : Coloring n) : Prop where
  input : ∀ i c, (col.freeColorsIn i).test c = true ↔ ∃ x ∈ col.assigned, x.1.1 = i ∧ x.2 = c
  output : ∀ j c, (col.freeColorsOut j).test c = true ↔ ∃ x ∈ col.assigned, x.1.2 = j ∧ x.2 = c
  below : ∀ x ∈ col.assigned, x.2 < B
  drawn : col.drawn = col.assigned.length
  frameSizeNext : col.frameSizeNext = B
  size : col.schedules.size = B
  written : Written col.schedules.row col.assigned

theorem colored_start {s : Schedules n} (hsize : s.size = B) (hrow : ∀ c i, s.row c i = none) :
    Colored B (.start B s) where
  input := fun i c => by simp [Coloring.start, Bitset.test]
  output := fun j c => by simp [Coloring.start, Bitset.test]
  below := fun x hx => absurd hx List.not_mem_nil
  drawn := rfl
  frameSizeNext := rfl
  size := hsize
  written := written_nil hrow

/-- A colour is free for an edge if no edge that shares a port with it has it. -/
theorem Colored.isFree_iff (h : Colored B col) (e : Fin n × Fin n) (c : ℕ) :
    col.isFree e.1 e.2 c = true ↔ ∀ x ∈ col.assigned, SharePort x.1 e → x.2 ≠ c := by
  unfold Coloring.isFree
  rw [Bool.and_eq_true, Bool.not_eq_true', Bool.not_eq_true', ← Bool.not_eq_true,
    ← Bool.not_eq_true, h.input, h.output]
  constructor
  · intro hfree x hx hshare hc
    rcases hshare with hi | hj
    · exact hfree.1 ⟨x, hx, hi, hc⟩
    · exact hfree.2 ⟨x, hx, hj, hc⟩
  · intro hfree
    constructor
    · intro hused
      obtain ⟨x, hx, hi, hc⟩ := hused
      exact hfree x hx (.inl hi) hc
    · intro hused
      obtain ⟨x, hx, hj, hc⟩ := hused
      exact hfree x hx (.inr hj) hc

theorem Colored.filter_isFree (h : Colored B col) (e : Fin n × Fin n) :
    (List.range B).filter (col.isFree e.1 e.2) = unusedFor B col.assigned e := by
  apply List.filter_congr
  intro c _
  rw [Bool.eq_iff_iff, h.isFree_iff, decide_eq_true_iff]

/-- The loop over the extra colours runs up to `MAX_BATCH_SIZE`, so the assertion behind it
    fails. -/
theorem greedy_post (i : Fin n) (j : Fin m) (col : Coloring n m) :
    Post (col.greedy i j) (fun _ => True) (fun _ => False) := by
  unfold Coloring.greedy
  apply Post.bind (P := fun _ => True)
  · apply Post.foldlM trivial
    intro gc _ s _
    cases Coloring.greedyStep i j s gc <;> trivial
  · intro col' _
    have hmax : ¬ max (col.nextFreeColor i j) maxBatchSize < maxBatchSize := by
      rw [max_lt_iff]
      exact fun hlt => lt_irrefl _ hlt.2
    apply Post.require_bind (fun _ => trivial)
    exact fun hlt => absurd hlt hmax

/-- The state after `e` is assigned the colour `c` that was drawn for it. -/
def Coloring.assign (e : Fin n × Fin n) (c : ℕ) (col : Coloring n) : Coloring n :=
  { col with
    freeColorsIn := Function.update col.freeColorsIn e.1 ((col.freeColorsIn e.1).set c)
    freeColorsOut := Function.update col.freeColorsOut e.2 ((col.freeColorsOut e.2).set c)
    schedules := { col.schedules with row := update₂ col.schedules.row c e.1 (some e.2) }
    drawn := col.drawn + 1
    assigned := col.assigned ++ [(e, c)] }

/-- The bits of a port after one more colour is set at the port `p`. -/
theorem test_update_set (bits : Fin n → Bitset maxBatchSize) {c : ℕ} (hc : c < maxBatchSize)
    (p q : Fin n) (c' : ℕ) :
    (Function.update bits p ((bits p).set c) q).test c' = true ↔
      (bits q).test c' = true ∨ (p = q ∧ c = c') := by
  by_cases hq : q = p
  · subst hq
    rw [Function.update_self, Bitset.test_set _ hc]
    simp only [Bool.or_eq_true, decide_eq_true_eq, true_and]
    rw [or_comm, eq_comm (a := c')]
  · simp [hq, Ne.symm hq]

theorem Colored.assign (h : Colored B col) {c : ℕ} (hc : c < B) (hmax : c < maxBatchSize)
    (e : Fin n × Fin n) : Colored B (col.assign e c) where
  input := by
    intro i c'
    show (Function.update col.freeColorsIn e.1 _ i).test c' = true ↔ _
    rw [test_update_set _ hmax, h.input]
    simp [Coloring.assign]
  output := by
    intro j c'
    show (Function.update col.freeColorsOut e.2 _ j).test c' = true ↔ _
    rw [test_update_set _ hmax, h.output]
    simp [Coloring.assign]
  below := by
    intro x hx
    rcases List.mem_append.mp hx with hold | hnew
    · exact h.below x hold
    · rw [List.mem_singleton.mp hnew]
      exact hc
  drawn := by simp [Coloring.assign, h.drawn]
  frameSizeNext := h.frameSizeNext
  size := h.size
  written := h.written.write e c

/-- The number drawn is a position in the list of the free colours, so it is below `B`. -/
theorem drawnFor_lt {a : Assigned (Fin n) (Fin n)} {e : Fin n × Fin n}
    (hsome : unusedFor B a e ≠ []) : drawnFor B draws a e < B := by
  apply lt_of_lt_of_le (draws.color_lt _ _ (List.length_pos_iff.mpr hsome))
  apply (List.length_filter_le _ _).trans
  rw [List.length_range]

/-- An edge that has an unused colour is assigned the number drawn for it. -/
theorem Colored.colorEdge_eq_ok (h : Colored B col) (hB : B ≤ maxBatchSize) {e : Fin n × Fin n}
    (hsome : unusedFor B col.assigned e ≠ []) :
    colorEdge draws B col e = .ok (col.assign e (drawnFor B draws col.assigned e)) := by
  have hlt : drawnFor B draws col.assigned e < B := drawnFor_lt hsome
  have hmax : drawnFor B draws col.assigned e < maxBatchSize := lt_of_lt_of_le hlt hB
  have hrow : drawnFor B draws col.assigned e < col.schedules.size := h.size ▸ hlt
  unfold colorEdge Coloring.freeColors
  rw [require_pos e.2.isLt, ok_bind, require_pos hB, ok_bind, ok_bind, h.filter_isFree,
    if_neg hsome]
  show Coloring.mark e.1 e.2 (draws.color col.drawn (unusedFor B col.assigned e).length) _ >>=
    (fun col' => Coloring.write e.1 e.2 (draws.color col.drawn _) col') = _
  rw [h.drawn]
  show Coloring.mark e.1 e.2 (drawnFor B draws col.assigned e) _ >>=
    (fun col' => Coloring.write e.1 e.2 (drawnFor B draws col.assigned e) col') = _
  simp only [Coloring.mark, Coloring.write, Schedules.write, require_pos hmax, require_pos hrow,
    ok_bind]
  rw [Coloring.assign, h.drawn]

/-- The colouring stops at an edge that has none. -/
theorem Colored.colorEdge_ne_ok (h : Colored B col) {e : Fin n × Fin n}
    (hnone : ¬ (B ≤ maxBatchSize ∧ unusedFor B col.assigned e ≠ [])) :
    colorEdge draws B col e ≠ .ok col' := by
  intro hok
  obtain ⟨_, -, hok⟩ := bind_eq_ok.mp hok
  obtain ⟨free, hfree, hrest⟩ := bind_eq_ok.mp hok
  obtain ⟨_, hreq, hlist⟩ := bind_eq_ok.mp hfree
  have hB : B ≤ maxBatchSize := by
    by_contra hB
    simp [Foundation.require, hB] at hreq
  cases hlist
  have hempty : unusedFor B col.assigned e = [] := by
    by_contra hsome
    exact hnone ⟨hB, hsome⟩
  rw [h.filter_isFree, if_pos hempty] at hrest
  exact (greedy_post e.1 e.2 col).of_ok hrest

/-! ### The colouring of a frame -/

/-- Every edge that is coloured is assigned one colour, after those assigned before. -/
theorem Colored.colorEdges_ok (h : Colored B col) {es : List (Fin n × Fin n)}
    (hrun : es.foldlM (colorEdge draws B) col = .ok col') :
    Colored B col' ∧ ∃ a, col'.assigned = col.assigned ++ a ∧ a.map Prod.fst = es := by
  induction es generalizing col with
  | nil =>
    cases hrun
    exact ⟨h, [], (List.append_nil _).symm, rfl⟩
  | cons e rest ih =>
    rw [List.foldlM_cons] at hrun
    obtain ⟨mid, hmid, hrest⟩ := bind_eq_ok.mp hrun
    by_cases hfree : B ≤ maxBatchSize ∧ unusedFor B col.assigned e ≠ []
    · rw [h.colorEdge_eq_ok hfree.1 hfree.2] at hmid
      cases hmid
      have hlt : drawnFor B draws col.assigned e < B := drawnFor_lt hfree.2
      obtain ⟨hcol', a, hassigned, hedges⟩ := ih (h.assign hlt (by omega) e) hrest
      refine ⟨hcol', (e, drawnFor B draws col.assigned e) :: a, ?_, ?_⟩
      · rw [hassigned]
        simp [Coloring.assign]
      · rw [List.map_cons, hedges]
    · exact absurd hmid (h.colorEdge_ne_ok hfree)

/-- The colouring ends with edges that clash kept apart exactly when the draws keep them apart. -/
theorem Colored.colorEdges_iff {clash : Fin n × Fin n → Fin n × Fin n → Prop} (h : Colored B col)
    (hsep : Separates clash col.assigned) (es : List (Fin n × Fin n)) :
    (∃ col', es.foldlM (colorEdge draws B) col = .ok col' ∧ Separates clash col'.assigned) ↔
      KeptApart clash B draws col.assigned es := by
  induction es generalizing col with
  | nil => exact iff_of_true ⟨col, rfl, hsep⟩ trivial
  | cons e rest ih =>
    rw [List.foldlM_cons, KeptApart]
    by_cases hfree : B ≤ maxBatchSize ∧ unusedFor B col.assigned e ≠ []
    · have hlt : drawnFor B draws col.assigned e < B := drawnFor_lt hfree.2
      have hnext : Colored B (col.assign e (drawnFor B draws col.assigned e)) :=
        h.assign hlt (by omega) e
      rw [h.colorEdge_eq_ok hfree.1 hfree.2, ok_bind]
      constructor
      · intro hrun
        obtain ⟨col', hok, hsep'⟩ := hrun
        -- What was assigned so far is still there at the end, and there nothing clashes.
        obtain ⟨-, a, hassigned, -⟩ := hnext.colorEdges_ok hok
        have hsep₁ : Separates clash (col.assign e (drawnFor B draws col.assigned e)).assigned :=
          hsep'.of_prefix (hassigned ▸ List.prefix_append _ _)
        exact ⟨hfree, (separates_append_singleton.mp hsep₁).2,
          (ih hnext hsep₁).mp ⟨col', hok, hsep'⟩⟩
      · intro hkept
        obtain ⟨-, hne, hrest⟩ := hkept
        exact (ih hnext (separates_append_singleton.mpr ⟨hsep, hne⟩)).mpr hrest
    · refine iff_of_false ?_ (fun hkept => hfree hkept.1)
      intro hrun
      obtain ⟨col', hok, -⟩ := hrun
      obtain ⟨mid, hmid, -⟩ := bind_eq_ok.mp hok
      exact h.colorEdge_ne_ok hfree hmid

/-! ### The edges of the multigraph -/

/-- The `s`-th edges of the inputs. -/
theorem count_column (adj : Fin n → List (Fin n)) (s : ℕ) (i j : Fin n) :
    ((List.finRange n).filterMap (fun i => (adj i)[s]?.map (fun j => (i, j)))).count (i, j)
      = if (adj i)[s]? = some j then 1 else 0 := by
  rw [List.count_filterMap]
  split
  · rename_i hs
    -- The edge comes from its own input only.
    have hone : (List.finRange n).count i = 1 :=
      List.count_eq_one_of_mem (List.nodup_finRange n) (List.mem_finRange i)
    rw [← hone, List.count_eq_countP]
    apply List.countP_congr
    intro k _
    simp only [beq_iff_eq, Option.map_eq_some_iff, Prod.mk.injEq]
    constructor
    · intro hk
      obtain ⟨_, _, hki, _⟩ := hk
      exact hki
    · intro hki
      exact ⟨j, hki ▸ hs, hki, rfl⟩
  · rename_i hs
    apply List.countP_eq_zero.mpr
    intro k _
    simp only [beq_iff_eq, Option.map_eq_some_iff, Prod.mk.injEq]
    intro hk
    obtain ⟨j', hj', hki, hjj⟩ := hk
    apply hs
    rw [← hki, hj', hjj]

/-- The first `d` entries of a list, counted one by one. -/
theorem sum_range_getElem? (l : List (Fin n)) (j : Fin n) (d : ℕ) :
    ((List.range d).map (fun s => if l[s]? = some j then 1 else 0)).sum = (l.take d).count j := by
  induction d with
  | zero => simp
  | succ d ih =>
    rw [List.range_succ, List.map_append, List.sum_append, ih, List.take_add_one,
      List.count_append]
    congr 1
    cases hd : l[d]? with
    | none => simp [hd]
    | some j' => simp [hd, List.count_singleton]

/-- `max_deg` is at least the degree of every input. -/
theorem length_le_maxDeg (adj : Fin n → List (Fin n)) (i : Fin n) :
    (adj i).length ≤ maxDeg adj := by
  have hfold : ∀ (l : List (Fin n)) (d : ℕ),
      d ≤ l.foldl (fun deg i => max deg (adj i).length) d ∧
        ∀ k ∈ l, (adj k).length ≤ l.foldl (fun deg i => max deg (adj i).length) d := by
    intro l
    induction l with
    | nil => exact fun d => ⟨le_refl d, fun k hk => absurd hk List.not_mem_nil⟩
    | cons i rest ih =>
      intro d
      obtain ⟨hle, hrest⟩ := ih (max d (adj i).length)
      refine ⟨(le_max_left _ _).trans hle, fun k hk => ?_⟩
      rcases List.mem_cons.mp hk with rfl | hk
      · exact (le_max_right _ _).trans hle
      · exact hrest k hk
  exact (hfold (List.finRange n) 0).2 i (List.mem_finRange i)

/-- Every edge of the multigraph is coloured once, in whatever order. -/
theorem count_edges {perm : List ℕ} {adj : Fin n → List (Fin n)}
    (hperm : perm.Perm (List.range (maxDeg adj))) (i j : Fin n) :
    (edges perm adj).count (i, j) = (adj i).count j := by
  rw [edges, (hperm.flatMap_right _).count_eq, List.count_flatMap]
  simp only [Function.comp_def, count_column]
  rw [sum_range_getElem?, List.take_of_length_le (length_le_maxDeg adj i)]

/-! ### Between calls -/

/-- The states between calls: from construction or a reset by calls that return. -/
inductive Reachable (B : ℕ) : State n → Prop where
  | initial : Reachable B (.initial B)
  | reset {st : State n} : Reachable B st → Reachable B (reset B st)
  | schedule {st st' : State n} (draws : Draws) (sw : IQSwitch n n) :
      Reachable B st → schedule draws sw st = .ok st' → Reachable B st'

variable {st : State n}

/-- Between calls the rows of the frame being collected are empty, and the two clocks agree once
    there is a previous frame. -/
structure Between (B : ℕ) (st : State n) : Prop where
  batchSize : st.batchSize = B
  size : st.schedules.size = B
  row : ∀ c i, st.schedules.row c i = none
  time : st.cfRelTime < max B 1
  clocks : (st.schedulesPre.size = 0 ∧ st.pfRelTime = 0) ∨
    (st.schedulesPre.size = B ∧ st.pfRelTime = st.cfRelTime)

theorem between_initial (B : ℕ) : Between B (.initial B : State n) where
  batchSize := rfl
  size := rfl
  row := fun _ _ => rfl
  time := lt_max_of_lt_right Nat.one_pos
  clocks := .inl ⟨rfl, rfl⟩

theorem Between.reset (h : Between B st) : Between B (reset B st) where
  batchSize := rfl
  size := rfl
  row := by
    intro c i
    show (if c < st.schedules.size then st.schedules.row c else fun _ => none) i = none
    split
    · exact h.row c i
    · rfl
  time := lt_max_of_lt_right Nat.one_pos
  clocks := .inl ⟨rfl, rfl⟩

/-- The state when the arrivals of a slot are in. -/
def entered (sw : IQSwitch n n) (st : State n) : State n :=
  handleArrivals sw
    (if st.schedulesPre.size = 0 then { st with cfRelTime := st.cfRelTime + 1 }
    else
      { st with
        cfRelTime := st.cfRelTime + 1
        inMatch := st.schedulesPre.row st.pfRelTime
        schedulesPre :=
          { st.schedulesPre with
            row := Function.update st.schedulesPre.row st.pfRelTime (fun _ => none) }
        pfRelTime := st.pfRelTime + 1 })

@[simp] theorem entered_multigraphAdj (sw : IQSwitch n n) (st : State n) :
    (entered sw st).multigraphAdj = addEdges st.multigraphAdj sw.getArrivals := by
  unfold entered
  split <;> rfl

@[simp] theorem entered_batchSize (sw : IQSwitch n n) (st : State n) :
    (entered sw st).batchSize = st.batchSize := by
  unfold entered
  split <;> rfl

@[simp] theorem entered_schedules (sw : IQSwitch n n) (st : State n) :
    (entered sw st).schedules = st.schedules := by
  unfold entered
  split <;> rfl

@[simp] theorem entered_cfRelTime (sw : IQSwitch n n) (st : State n) :
    (entered sw st).cfRelTime = st.cfRelTime + 1 := by
  unfold entered
  split <;> rfl

@[simp] theorem entered_schedulesPre_size (sw : IQSwitch n n) (st : State n) :
    (entered sw st).schedulesPre.size = st.schedulesPre.size := by
  unfold entered
  split <;> rfl

theorem Between.entered_clocks (h : Between B st) (sw : IQSwitch n n) :
    ((entered sw st).schedulesPre.size = 0 ∧ (entered sw st).pfRelTime = 0) ∨
      (0 < B ∧ (entered sw st).schedulesPre.size = B ∧
        (entered sw st).pfRelTime = st.cfRelTime + 1) := by
  unfold entered
  split
  · rename_i hzero
    rcases h.clocks with hpf | hpf
    · exact .inl hpf
    · -- Frames of size zero: the frame time is zero as well.
      have htime := h.time
      have hB : B = 0 := hpf.1.symm.trans hzero
      subst hB
      refine .inl ⟨hzero, hpf.2.trans ?_⟩
      simpa using htime
  · rename_i hsome
    rcases h.clocks with hpf | hpf
    · exact absurd hpf.1 hsome
    · have hB : 0 < B := by
        rw [← hpf.1]
        exact Nat.pos_of_ne_zero hsome
      refine .inr ⟨hB, hpf.1, ?_⟩
      rw [← hpf.2]
      rfl

/-- The state after the frame with the colouring `col`. -/
def ended (col : Coloring n) (st : State n) : State n :=
  { st with
    cfRelTime := 0
    batchSize := col.frameSizeNext
    schedulesPre := ⟨col.frameSizeNext, col.schedules.row⟩
    schedules :=
      { col.schedules with
        row := fun k => if k < col.frameSizeNext then fun _ => none else col.schedules.row k }
    pfRelTime := 0 }

/-- A call collects the arrivals; the last one of a frame also colours them.  Only the colouring can
    stop it. -/
theorem Between.schedule_eq (h : Between B st) (draws : Draws) (sw : IQSwitch n n) :
    schedule draws sw st = if st.cfRelTime + 1 < B then .ok (entered sw st)
      else colorFrame draws (handleArrivals sw st) >>= fun col => endFrame col (entered sw st) := by
  -- The previous frame has a row for this slot, if it has any.
  have hdispatch : dispatchPre { st with cfRelTime := st.cfRelTime + 1 }
      = .ok (if st.schedulesPre.size = 0 then { st with cfRelTime := st.cfRelTime + 1 }
        else
          { st with
            cfRelTime := st.cfRelTime + 1
            inMatch := st.schedulesPre.row st.pfRelTime
            schedulesPre :=
              { st.schedulesPre with
                row := Function.update st.schedulesPre.row st.pfRelTime (fun _ => none) }
            pfRelTime := st.pfRelTime + 1 }) := by
    unfold dispatchPre
    by_cases hzero : st.schedulesPre.size = 0
    · rw [if_pos hzero, if_pos hzero]
    · rw [if_neg hzero, if_neg hzero]
      have hlt : st.pfRelTime < st.schedulesPre.size := by
        have htime := h.time
        rcases h.clocks with hpf | hpf <;> omega
      rw [require_pos hlt]
      rfl
  unfold schedule
  rw [hdispatch, ok_bind]
  show (if (entered sw st).cfRelTime < (entered sw st).batchSize then .ok (entered sw st)
    else colorFrame draws (entered sw st) >>= fun col => endFrame col (entered sw st)) = _
  rw [entered_cfRelTime, entered_batchSize, h.batchSize]
  unfold colorFrame
  rw [entered_multigraphAdj, entered_batchSize, entered_schedules]
  rfl

/-- The end of a frame succeeds once its edges are coloured. -/
theorem Between.endFrame_eq_ok (h : Between B st) (sw : IQSwitch n n)
    (hend : B ≤ st.cfRelTime + 1) (hcol : Colored B col) :
    endFrame col (entered sw st) = .ok (ended col (entered sw st)) := by
  have htime := h.time
  have hclocks : (entered sw st).pfRelTime = (entered sw st).schedulesPre.size := by
    rcases h.entered_clocks sw with hpf | hpf
    · rw [hpf.1, hpf.2]
    · rw [hpf.2.1, hpf.2.2]
      omega
  have hsize : col.frameSizeNext ≤ col.schedules.size := by
    rw [hcol.frameSizeNext, hcol.size]
  unfold endFrame
  rw [require_pos hclocks, ok_bind, require_pos hsize]
  rfl

/-- What a call leaves, if it returns. -/
theorem Between.schedule_ok (h : Between B st) {draws : Draws} {sw : IQSwitch n n} {st' : State n}
    (hrun : schedule draws sw st = .ok st') :
    (st.cfRelTime + 1 < B ∧ st' = entered sw st) ∨
      (B ≤ st.cfRelTime + 1 ∧ ∃ col, colorFrame draws (handleArrivals sw st) = .ok col ∧
        Colored B col ∧ st' = ended col (entered sw st)) := by
  rw [h.schedule_eq] at hrun
  split at hrun
  · rename_i hmid
    exact .inl ⟨hmid, (Except.ok.inj hrun).symm⟩
  · rename_i hend
    obtain ⟨col, hcolor, hrest⟩ := bind_eq_ok.mp hrun
    have hcol : Colored B col := by
      unfold colorFrame at hcolor
      rw [show (handleArrivals sw st).batchSize = B from h.batchSize] at hcolor
      exact ((colored_start h.size h.row).colorEdges_ok hcolor).1
    rw [h.endFrame_eq_ok sw (not_lt.mp hend) hcol] at hrest
    exact .inr ⟨not_lt.mp hend, col, hcolor, hcol, (Except.ok.inj hrest).symm⟩

theorem Between.schedule (h : Between B st) {draws : Draws} {sw : IQSwitch n n} {st' : State n}
    (hrun : schedule draws sw st = .ok st') : Between B st' := by
  rcases h.schedule_ok hrun with ⟨hmid, rfl⟩ | ⟨hend, col, -, hcol, rfl⟩
  · refine
      { batchSize := (entered_batchSize sw st).trans h.batchSize
        size := ?_
        row := ?_
        time := ?_
        clocks := ?_ }
    · simp [h.size]
    · simp [h.row]
    · simp only [entered_cfRelTime]
      omega
    · simp only [entered_cfRelTime]
      rcases h.entered_clocks sw with hpf | hpf
      · exact .inl hpf
      · exact .inr hpf.2
  · refine
      { batchSize := hcol.frameSizeNext
        size := hcol.size
        row := ?_
        time := lt_max_of_lt_right Nat.one_pos
        clocks := .inr ⟨hcol.frameSizeNext, rfl⟩ }
    intro c i
    show (if c < col.frameSizeNext then fun _ => none else col.schedules.row c) i = none
    split
    · rfl
    · -- Nothing was assigned to a colour from `B` on.
      rename_i hc
      cases hcell : col.schedules.row c i with
      | none => rfl
      | some j =>
        have hlt := hcol.below _ (hcol.written.assigned hcell)
        rw [hcol.frameSizeNext] at hc
        exact absurd hlt hc

theorem between_of_reachable (h : Reachable B st) : Between B st := by
  induction h with
  | initial => exact between_initial B
  | reset _ ih => exact ih.reset
  | schedule draws sw _ hrun ih => exact ih.schedule hrun

/-! ### Proper frames -/

/-- Every edge of the multigraph is assigned exactly one colour, at which neither of its ports was
    in use; its cell is not overwritten; and every colour class is a matching. -/
structure ProperColoring (adj : Fin n → List (Fin n)) (col : Coloring n) : Prop where
  once : ∀ i j, (col.assigned.map Prod.fst).count (i, j) = (adj i).count j
  unused : Separates SharePort col.assigned
  kept : ∀ x ∈ col.assigned, col.schedules.row x.2 x.1.1 = some x.1.2
  matching : ∀ c, IsMatching (col.schedules.row c)

/-- A call that ends a frame colours it properly and hands its rows to the next frame; in
    particular no assertion fails. -/
def ProperFrame (draws : Draws) (sw : IQSwitch n n) (st : State n) : Prop :=
  ∃ col st', colorFrame draws (handleArrivals sw st) = .ok col ∧ schedule draws sw st = .ok st' ∧
    ProperColoring (handleArrivals sw st).multigraphAdj col ∧
    st'.schedulesPre.row = col.schedules.row

/-- The colouring of a frame, step by step. -/
theorem Between.colorFrame_eq (h : Between B st) (draws : Draws) (sw : IQSwitch n n) :
    colorFrame draws (handleArrivals sw st)
      = (shuffledEdges draws (handleArrivals sw st).multigraphAdj).foldlM (colorEdge draws B)
        (.start B st.schedules) := by
  unfold colorFrame
  rw [show (handleArrivals sw st).batchSize = B from h.batchSize]
  rfl

/-- A colouring assigns a colour to each edge of the multigraph. -/
theorem Between.colored (h : Between B st) {draws : Draws} {sw : IQSwitch n n}
    (hrun : colorFrame draws (handleArrivals sw st) = .ok col) :
    Colored B col ∧ ∀ i j, (col.assigned.map Prod.fst).count (i, j)
      = ((handleArrivals sw st).multigraphAdj i).count j := by
  rw [h.colorFrame_eq] at hrun
  obtain ⟨hcol, a, hassigned, hedges⟩ := (colored_start h.size h.row).colorEdges_ok hrun
  refine ⟨hcol, fun i j => ?_⟩
  rw [hassigned, Coloring.start, List.nil_append, hedges]
  exact count_edges (draws.shuffle.perm _) i j

/-- A frame is properly coloured exactly when every edge finds an unused colour below the frame size
    and draws a number that no earlier edge sharing a port with it drew. -/
theorem properFrame_iff (h : Reachable B st) (draws : Draws) (sw : IQSwitch n n)
    (hend : B ≤ st.cfRelTime + 1) :
    ProperFrame draws sw st ↔ KeptApart SharePort B draws []
      (shuffledEdges draws (handleArrivals sw st).multigraphAdj) := by
  have hst := between_of_reachable h
  rw [← show (Coloring.start B st.schedules).assigned = [] from rfl,
    ← (colored_start hst.size hst.row).colorEdges_iff separates_nil, ← hst.colorFrame_eq]
  constructor
  · intro hproper
    obtain ⟨col, -, hcol, -, hproper, -⟩ := hproper
    exact ⟨col, hcol, hproper.unused⟩
  · intro hrun
    obtain ⟨col, hcol, hsep⟩ := hrun
    obtain ⟨hcolored, hcount⟩ := hst.colored hcol
    refine ⟨col, ended col (entered sw st), hcol, ?_, ?_, rfl⟩
    · rw [hst.schedule_eq, if_neg (not_lt.mpr hend), hcol, ok_bind]
      exact hst.endFrame_eq_ok sw hend hcolored
    · refine ⟨hcount, hsep, fun x hx => ?_, hcolored.written.isMatching hsep⟩
      apply hcolored.written.cell _ hx
      exact hsep.mono (fun _ _ hshare => .inl hshare)

/-- Draws that return the first position every time, and leave the edges in order. -/
def firstDraws : Draws where
  shuffle := Reorder.inOrder ℕ
  color := fun _ _ => 0
  color_lt := fun _ _ h => h

/-- A frame of one slot with a packet for each output. -/
theorem properFrame_one : ProperFrame firstDraws
    (.simplified ⟨fun _ _ => 0, [some (0, 1), some (1, 0)], []⟩) (.initial 1 : State 2) :=
  (properFrame_iff .initial firstDraws _ (le_refl 1)).mpr (by decide)

/-- A frame of two slots with a packet in each.  Both edges draw the first position in the list of
    their free colours, so both are given colour `0`. -/
theorem not_properFrame_two :
    ∃ st : State 1, Reachable 2 st ∧ 2 ≤ st.cfRelTime + 1 ∧
      ¬ ProperFrame firstDraws (.simplified ⟨fun _ _ => 0, [some (0, 0)], []⟩) st := by
  obtain ⟨st, hrun, hst⟩ := exists_of_returns
    (x := schedule firstDraws (.simplified ⟨fun _ _ => 0, [some (0, 0)], []⟩)
      (.initial 2 : State 1))
    (p := fun st => decide (st.cfRelTime = 1) && returns
      (colorFrame firstDraws (handleArrivals (.simplified ⟨fun _ _ => 0, [some (0, 0)], []⟩) st))
      (fun col => decide (col.assigned = [((0, 0), 0), ((0, 0), 0)])))
    (by decide +kernel)
  rw [Bool.and_eq_true, decide_eq_true_iff] at hst
  obtain ⟨col, hcol, hassigned⟩ := exists_of_returns hst.2
  refine ⟨st, .schedule _ _ .initial hrun, by omega, fun hproper => ?_⟩
  obtain ⟨col', -, hcol', -, hproper, -⟩ := hproper
  cases hcol.symm.trans hcol'
  have hunused := hproper.unused
  rw [of_decide_eq_true hassigned] at hunused
  revert hunused
  unfold Separates
  decide
end EdgeColoring

end SschedSimulator
