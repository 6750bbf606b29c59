import SschedSimulator.Scheduler.SbQps.Conditional
import SschedSimulator.Scheduler.SbQps.Fixed
import SschedSimulator.Scheduler.Sized.Tables

namespace SschedSimulator

open Foundation

/-!
# Conditional approvals and fixed batches over sized tables

`SB_QPS_Conditional` has one row of `schedules` and one of `conditionalApprovals` for each frame of
the batch, and its priority queues have two elements.  The tables of `SB_QPS_Fixed` have their sizes
in its model already.

* `SbQps.Conditional.Sized.schedule_checked` — a call is in range for as many inputs as outputs at
  most;
* `SbQps.Fixed.schedule_bits` — a call of `SB_QPS_Fixed` stays within the bitmaps.
-/

variable {n m B t : ℕ} {ports : Prop}

namespace LinearPriorityQueue

theorem length_shift {α : Type} (tmp : Option α × ℤ) (q : LinearPriorityQueue α) :
    (shift tmp q).length = q.length := by
  induction q generalizing tmp with
  | nil => rfl
  | cons cur rest ih =>
    unfold shift
    split
    · exact congrArg (· + 1) (ih cur)
    · rfl

/-- The capacity stays. -/
theorem length_insert {α : Type} (val : α) (pri : ℤ) (q : LinearPriorityQueue α) :
    (insert val pri q).length = q.length := by
  induction q with
  | nil => rfl
  | cons cur rest ih =>
    unfold insert
    split
    · exact congrArg (· + 1) ih
    · exact congrArg (· + 1) (length_shift cur rest)

/-- The value of an element. -/
def Sized.value {α : Type} (q : LinearPriorityQueue α) (k : ℕ) : Except Fault (Option α) := do
  require (k < q.length) .indexOutOfRange
  .ok (q.value k)

end LinearPriorityQueue

namespace SbQps.Conditional

namespace Sized

/-- `match()`. -/
def matchPorts (B : ℕ) (i : Fin n) (o : Fin m) (timeSlot : ℕ) (w : Working n m) :
    Except Fault (Working n m) := do
  require (timeSlot < B) .indexOutOfRange
  Conditional.matchPorts i o timeSlot w

/-- An approval is remembered. -/
def approve (B timeSlot : ℕ) (out : Fin m) (i : Fin n) (w : Working n m) :
    Except Fault (Working n m) := do
  require (timeSlot < B) .indexOutOfRange
  .ok (Conditional.approve timeSlot out i w)

/-- One output of the accept phase. -/
def acceptStep (B timeSlot : ℕ) (outAccepts : Fin m → LinearPriorityQueue (Fin n))
    (w : Working n m) (out : Fin m) : Except Fault (Working n m) := do
  match ← LinearPriorityQueue.Sized.value (outAccepts out) 0 with
  | none => .ok w
  | some i => do
    let used ← testBit (w.outputMatchBitmap out) timeSlot
    if used then approve B timeSlot out i w
    else do
      let w' ← matchPorts B i out timeSlot w
      match ← LinearPriorityQueue.Sized.value (outAccepts out) 1 with
      | none => .ok w'
      | some j => approve B timeSlot out j w'

/-- `qps`. -/
def qps (B : ℕ) (c : RoundChoices n m) (timeSlot : ℕ) (w : Working n m) :
    Except Fault (Working n m) := do
  let outAccepts ← proposeAll c timeSlot w.toMembers
  (List.finRange m).foldlM (acceptStep B timeSlot outAccepts) w

/-- The approvals drawn once more. -/
def repeated (draw : ℕ → ℕ) (approvalPorts : List (Fin n)) (count : ℕ) :
    Except Fault (List (Fin n)) :=
  (List.range count).mapM (fun i =>
    match approvalPorts[draw i % approvalPorts.length]? with
    | none => .error .indexOutOfRange
    | some port => .ok port)

/-- One free frame of an output. -/
def fillFrame (B : ℕ) (out : Fin m) (w : Working n m) (p : Fin n × ℕ) :
    Except Fault (Working n m) := do
  let matched ← testBit (w.inputMatchBitmap p.1) p.2
  if matched = false ∧ 0 < (w.inputQueues p.1).getPacketNumber out then
    matchPorts B p.1 out p.2 w
  else .ok w

/-- One output at the end of the batch. -/
def fillOutput (B : ℕ) (c : FillChoices n m) (w : Working n m) (out : Fin m) :
    Except Fault (Working n m) := do
  require (B ≤ bitmapWidth) .bitOutOfRange
  if approvalPorts B w out = [] then .ok w
  else do
    let free := freeTimeSlots B w out
    let shuffled := (c.approvals out).val (approvalPorts B w out)
    let extra := (intOfSize (extraFreeTime free.length shuffled.length)).toNat
    let more ← repeated (c.draw out) shuffled extra
    require (free.length ≤ (shuffled ++ more).length) .tooFewApprovals
    ((shuffled ++ more).zip free).foldlM (fillFrame B out) w

/-- `endOfBatchOptimization`. -/
def endOfBatchOptimization (B : ℕ) (c : FillChoices n m) (w : Working n m) :
    Except Fault (Working n m) := do
  require (n ≤ m) .indexOutOfRange
  c.outputs.val.foldlM (fillOutput B c) w

/-- A further round over all frames. -/
def laterRound (B : ℕ) (c : Choices n m) (w : Working n m) (r : ℕ) :
    Except Fault (Working n m) := do
  let w' ← (List.range B).foldlM (fun w f => qps B (c.qps r f) f w) w
  endOfBatchOptimization B (c.fill r) w'

/-- The rounds of a slot. -/
def rounds (B numIterations : ℕ) (c : Choices n m) (timeSlot : ℕ) (w : Working n m) :
    Except Fault (Working n m) := do
  let w' ← qps B (c.qps 1 timeSlot) timeSlot w
  if timeSlot = B - 1 then do
    let w'' ← endOfBatchOptimization B (c.fill 1) w'
    (List.range' 2 (numIterations - 1)).foldlM (laterRound B c) w''
  else .ok w'

/-- `schedule`: the row of the slot is copied and cleared. -/
def schedule (B numIterations : ℕ) (c : Choices n m) (sw : IQSwitch n m) (st : State n m) :
    Except Fault (State n m) := do
  require (st.cfRelTime % B < B) .indexOutOfRange
  let entered := enterSlot B sw st
  let w ← rounds B numIterations c (st.cfRelTime % B)
    { toMembers := entered, between := [entered] }
  .ok
    { toMembers := if st.cfRelTime % B = B - 1 then resetBitmap B w.toMembers else w.toMembers
      between := w.between
      cfRelTime := st.cfRelTime + 1
      inMatch := st.schedules (st.cfRelTime % B) }

theorem matchPorts_checked (hB : B ≤ bitmapWidth) (ht : t < B) (i : Fin n) (o : Fin m)
    (w : Working n m) :
    Within ports (matchPorts B i o t w) (Conditional.matchPorts i o t w) := by
  refine .guard ht ?_
  refine (w.toBooking.inRange_reserve (lt_of_lt_of_le ht hB) i o).bind (fun b _ => ?_)
  exact (QueueSampler.inRange_removeItem _ _).map

/-- The priority queues keep their two elements. -/
theorem proposeAll_inRange (ht : t < bitmapWidth) (c : RoundChoices n m) (s : Members n m) :
    InRange ports (fun outAccepts => ∀ o, (outAccepts o).length = 2) (proposeAll c t s) := by
  refine Checked.foldlM (fun _ => rfl) (fun i _ outAccepts hlen => ?_)
  unfold proposeStep
  split
  · exact .ok hlen
  · refine (inRange_testBit _ ht).bind (fun matched _ => ?_)
    split
    · exact .ok hlen
    · split
      · exact .error (not_outOfRange (by decide) (by decide))
      · refine (InRange.assert (by decide) (by decide)).bind (fun _ _ => .ok (fun o => ?_))
        rw [Function.update_apply]
        split
        · rw [LinearPriorityQueue.length_insert]
          exact hlen _
        · exact hlen o

theorem qps_checked (hB : B ≤ bitmapWidth) (ht : t < B) (c : RoundChoices n m) (w : Working n m) :
    Within ports (qps B c t w) (Conditional.qps c t w) := by
  have hwidth := lt_of_lt_of_le ht hB
  refine (proposeAll_inRange hwidth c _).bind (fun outAccepts hlen => ?_)
  refine Checked.loop (fun out _ w' => ?_)
  have hvalue : ∀ k < 2, LinearPriorityQueue.Sized.value (outAccepts out) k
      = .ok ((outAccepts out).value k) := by
    intro k hk
    rw [LinearPriorityQueue.Sized.value, require_pos (by rw [hlen out]; exact hk), ok_bind]
  unfold acceptStep Conditional.acceptStep
  rw [hvalue 0 (by decide), ok_bind]
  cases (outAccepts out).value 0 with
  | none => exact .ok trivial
  | some i =>
    refine (inRange_testBit _ hwidth).bind (fun used _ => ?_)
    split
    · exact .guard ht (.ok trivial)
    · refine (matchPorts_checked hB ht i out w').bind (fun w'' _ => ?_)
      rw [hvalue 1 (by decide), ok_bind]
      cases (outAccepts out).value 1 with
      | none => exact .ok trivial
      | some j => exact .guard ht (.ok trivial)

/-- A position drawn modulo the number of approvals is one of them. -/
theorem repeated_eq (draw : ℕ → ℕ) {approvalPorts : List (Fin n)} (h : approvalPorts ≠ [])
    (count : ℕ) :
    repeated draw approvalPorts count = .ok (Conditional.repeated draw approvalPorts count) := by
  have hpos : 0 < approvalPorts.length := List.length_pos_iff.mpr h
  unfold repeated Conditional.repeated
  induction List.range count with
  | nil => rfl
  | cons i rest ih =>
    have hlt : draw i % approvalPorts.length < approvalPorts.length := Nat.mod_lt _ hpos
    rw [List.mapM_cons, ih, List.filterMap_cons, List.getElem?_eq_getElem hlt]
    rfl

/-- The frames that are filled are free frames of the batch. -/
theorem fillOutput_checked (hB : B ≤ bitmapWidth) (c : FillChoices n m) (w : Working n m)
    (out : Fin m) :
    Within ports (fillOutput B c w out) (Conditional.fillOutput B c w out) := by
  refine (InRange.check hB).bind (fun _ _ => ?_)
  split
  · exact .ok trivial
  · rename_i hne
    have hshuffled : (c.approvals out).val (approvalPorts B w out) ≠ [] := by
      intro hnil
      have hperm := (c.approvals out).property (approvalPorts B w out)
      rw [hnil] at hperm
      exact hne hperm.symm.eq_nil
    simp only [repeated_eq _ hshuffled, ok_bind]
    refine (InRange.assert (by decide) (by decide)).bind (fun _ _ => ?_)
    refine Checked.loop (fun p hp w' => ?_)
    have hfree : p.2 ∈ freeTimeSlots B w out := (List.of_mem_zip hp).2
    have hlt : p.2 < B := List.mem_range.mp (List.mem_of_mem_filter hfree)
    refine (inRange_testBit _ (lt_of_lt_of_le hlt hB)).bind (fun matched _ => ?_)
    split
    · exact matchPorts_checked hB hlt _ out w'
    · exact .ok trivial

/-- `outputs` has an element for each input, if there are as many outputs. -/
theorem endOfBatchOptimization_checked (hB : B ≤ bitmapWidth) (hports : ports → n ≤ m)
    (c : FillChoices n m) (w : Working n m) :
    Within ports (endOfBatchOptimization B c w) (Conditional.endOfBatchOptimization B c w) := by
  refine Checked.bind (.require (fun hnm h => ?_)) (fun _ _ => ?_)
  · exact h.elim (by decide) (fun h => hnm (hports h.1))
  · exact Checked.loop
      (fun out _ w' => fillOutput_checked hB c w' out)

/-- A call with conditional approvals is in range. -/
theorem schedule_checked (hB1 : 1 ≤ B) (hB : B ≤ bitmapWidth) (hports : ports → n ≤ m)
    (numIterations : ℕ) (c : Choices n m) (sw : IQSwitch n m) (st : State n m) :
    Within ports (schedule B numIterations c sw st)
      (Conditional.schedule B numIterations c sw st) := by
  have ht : st.cfRelTime % B < B := Nat.mod_lt _ hB1
  refine .guard ht (Checked.map (Q := fun _ => True) ?_)
  refine (qps_checked hB ht _ _).bind (fun w _ => ?_)
  split
  · refine (endOfBatchOptimization_checked hB hports _ w).bind (fun w' _ => ?_)
    refine Checked.loop (fun r _ w'' => ?_)
    refine (Checked.loop (fun f hf w₃ => ?_)).bind
      (fun w₃ _ => endOfBatchOptimization_checked hB hports _ w₃)
    exact qps_checked hB (List.mem_range.mp hf) _ w₃
  · exact .ok trivial

end Sized

end SbQps.Conditional

namespace SbQps.Fixed

theorem acceptLoop_bits (cfg : Config) (hB : cfg.batchSize ≤ bitmapWidth) (size : ℕ)
    (out : Fin m) (ins : List (Fin n)) (acc : Accepting n m) :
    InRange False (fun _ => True) (acceptLoop cfg size out ins acc) := by
  have hframes : ∀ f ∈ List.range cfg.batchSize, f < bitmapWidth :=
    fun f hf => lt_of_lt_of_le (List.mem_range.mp hf) hB
  induction ins generalizing acc with
  | nil => exact .ok trivial
  | cons i rest ih =>
    unfold acceptLoop
    split
    · split
      · exact ih acc
      · exact .ok trivial
    · refine Checked.bind (Q := fun _ => True) ?_ (fun acc' _ => ih acc')
      unfold grant
      split
      · exact .ok trivial
      · refine (inRange_firstFit _ hframes).bind (fun r hr => ?_)
        cases r with
        | none => exact .ok trivial
        | some f =>
          refine (InRange.size).bind (fun _ _ => ?_)
          exact (acc.toBooking.inRange_reserve (hframes f (hr f rfl)) i out).map

/-- A call stays within the bitmaps, whatever the sizes of the tables. -/
theorem schedule_bits (cfg : Config) (hB : cfg.batchSize ≤ bitmapWidth)
    (sort : DescSort (Fin n)) (draws : Draws n m) (sw : IQSwitch n m) (st : State n m) :
    InRange False (fun _ => True) (schedule cfg sort draws sw st) := by
  refine Checked.bind (Q := fun _ => True) ?_ (fun filled _ => ?_)
  · refine Checked.bind (Q := fun _ => True) InRange.size.map (fun st₀ _ => ?_)
    refine Checked.bind (Q := fun _ => True) ?_ (fun st₁ _ => InRange.size.map)
    refine (inRange_propose _ _ _ _ _ _).bind (fun outAccepts _ => ?_)
    refine (Checked.loop (fun out _ acc => ?_)).bind (fun acc _ => ?_)
    · exact acceptLoop_bits cfg hB _ out _ acc
    · exact (inRange_removeDepartures _ _).map
  · unfold endSlot
    split
    · exact (InRange.assert (by decide) (by decide)).map
    · exact .ok trivial

end SbQps.Fixed

end SschedSimulator
