import SschedSimulator.Scheduler.PriorityQueue
import SschedSimulator.Scheduler.QpSampler
import SschedSimulator.Scheduler.SbQps.Batch

namespace SschedSimulator

open Foundation

/-!
# `sb_qps.cc` — the scheduler `SB_QPS_Conditional`

In each slot QPS-1 fills the row of the slot, and each output keeps its second proposal as a
conditional approval.  In the last slot of a batch the approvals fill the frames left free, and
further rounds over all frames follow, each with such a filling.  All rows are written by
`match()`.

* `matchPorts` — `match()`;
* `qps`, `endOfBatchOptimization` — a round at one frame, and the filling from approvals;
* `schedule` — a slot; `between` is a history variable with the state at every point between two
  calls of `match()`.

The switch is square unless another number of outputs is given.  The filling writes the vector of
the outputs in a loop over the inputs, which only works when there are not more of them.
-/

namespace SbQps.Conditional

variable {n m : ℕ}

/-- The members that `match()` changes, and the approvals. -/
structure Members (n : ℕ) (m : ℕ := n) extends Booking n m where
  inputQueues : Fin n → QueueSampler m
  conditionalApprovals : ℕ → Fin m → Option (Fin n)

/-- The members during a slot, with their values after each call of `match()` so far. -/
structure Working (n : ℕ) (m : ℕ := n) extends Members n m where
  between : List (Members n m)

/-- The members between two slots. -/
structure State (n : ℕ) (m : ℕ := n) extends Working n m where
  cfRelTime : ℕ
  inMatch : Fin n → Option (Fin m)

/-- The state the constructor leaves. -/
def initial (n B : ℕ) (m : ℕ := n) : State n m where
  toBooking := Booking.empty B
  inputQueues := fun _ _ => 0
  conditionalApprovals := fun _ _ => none
  between := []
  cfRelTime := 0
  inMatch := fun _ => none

/-- `reset`: everything but `_in_match`. -/
def reset (B : ℕ) (st : State n m) : State n m := { initial n B m with inMatch := st.inMatch }

/-! ### The random choices -/

/-- The choices of one `qps`: the shuffled inputs and the output that each samples, given the counts
    of its sampler. -/
structure RoundChoices (n : ℕ) (m : ℕ := n) where
  shuffle : Shuffle n
  sample : Fin n → QueueSampler m → Option (Fin m)

/-- `outputs` before the shuffle: a vector of zeros in which the loop over the inputs numbers the
    first elements. -/
def outputsVector (n m : ℕ) : List (Fin m) :=
  (List.finRange m).map (fun o : Fin m => if o.val < n then o else ⟨0, o.pos⟩)

@[simp] theorem outputsVector_self (n : ℕ) : outputsVector n n = List.finRange n := by
  simp [outputsVector]

/-- The choices of one `endOfBatchOptimization`: the shuffled outputs, the shuffle of the approvals
    of each, and the draws that repeat some of them. -/
structure FillChoices (n : ℕ) (m : ℕ := n) where
  outputs : { l : List (Fin m) // l.Perm (outputsVector n m) }
  approvals : Fin m → { f : List (Fin n) → List (Fin n) // ∀ l, (f l).Perm l }
  draw : Fin m → ℕ → ℕ

/-- The choices of one call of `schedule`: those of each round at each frame, and of the filling
    after each round. -/
structure Choices (n : ℕ) (m : ℕ := n) where
  qps : ℕ → ℕ → RoundChoices n m
  fill : ℕ → FillChoices n m

/-- Every input with a packet samples an output for which it has one. -/
def RoundChoices.Valid (c : RoundChoices n m) : Prop :=
  ∀ i (q : QueueSampler m), (∀ o, 0 ≤ q o) → q.getQueueLength ≠ 0 →
    ∃ o, c.sample i q = some o ∧ 0 < q.getPacketNumber o

/-! ### `match()` and `qps` -/

/-- `match(input, output, timeSlot)`. -/
def matchPorts (i : Fin n) (o : Fin m) (timeSlot : ℕ) (w : Working n m) :
    Except Fault (Working n m) := do
  let b ← w.toBooking.reserve timeSlot i o
  let q ← (w.inputQueues i).removeItem o
  let s : Members n m :=
    { toBooking := b
      inputQueues := Function.update w.inputQueues i q
      conditionalApprovals := w.conditionalApprovals }
  .ok { toMembers := s, between := w.between ++ [s] }

/-- The body of the proposing loop. -/
def proposeStep (sample : Fin n → QueueSampler m → Option (Fin m)) (timeSlot : ℕ) (s : Members n m)
    (outAccepts : Fin m → LinearPriorityQueue (Fin n)) (i : Fin n) :
    Except Fault (Fin m → LinearPriorityQueue (Fin n)) :=
  if (s.inputQueues i).getQueueLength = 0 then .ok outAccepts
  else do
    let matched ← testBit (s.inputMatchBitmap i) timeSlot
    -- in the rounds over all frames, an input may be matched at the frame already
    if matched then .ok outAccepts
    else
      match sample i (s.inputQueues i) with
      | none => .error .badSample
      | some out => do
        require (0 < (s.inputQueues i).getPacketNumber out) .badSample
        .ok (Function.update outAccepts out
          ((outAccepts out).insert i ((s.inputQueues i).getPacketNumber out)))

/-- Step 1 of `qps`. -/
def proposeAll (c : RoundChoices n m) (timeSlot : ℕ) (s : Members n m) :
    Except Fault (Fin m → LinearPriorityQueue (Fin n)) :=
  c.shuffle.val.foldlM (proposeStep c.sample timeSlot s) (fun _ => .empty 2)

/-- Remember `i` as the approval of `out` at the frame. -/
def approve (timeSlot : ℕ) (out : Fin m) (i : Fin n) (w : Working n m) : Working n m :=
  { w with conditionalApprovals := update₂ w.conditionalApprovals timeSlot out (some i) }

/-- The body of the accept loop for one output. -/
def acceptStep (timeSlot : ℕ) (outAccepts : Fin m → LinearPriorityQueue (Fin n)) (w : Working n m)
    (out : Fin m) : Except Fault (Working n m) :=
  match (outAccepts out).value 0 with
  | none => .ok w
  | some i => do
    let used ← testBit (w.outputMatchBitmap out) timeSlot
    -- an output matched by an earlier round only remembers its best proposal
    if used then .ok (approve timeSlot out i w)
    else do
      let w' ← matchPorts i out timeSlot w
      match (outAccepts out).value 1 with
      | none => .ok w'
      | some j => .ok (approve timeSlot out j w')

/-- `qps`; the virtual departures of the source stay empty. -/
def qps (c : RoundChoices n m) (timeSlot : ℕ) (w : Working n m) : Except Fault (Working n m) := do
  let outAccepts ← proposeAll c timeSlot w.toMembers
  (List.finRange m).foldlM (acceptStep timeSlot outAccepts) w

/-! ### `endOfBatchOptimization` -/

/-- The value of a `size_t` as an `int`. -/
def intOfSize (x : ℕ) : ℤ :=
  if x % 2 ^ 32 < 2 ^ 31 then (x % 2 ^ 32 : ℕ) else (x % 2 ^ 32 : ℕ) - 2 ^ 32

/-- `extraFreeTime`, a difference of two sizes. -/
def extraFreeTime (freeTimeSlots approvalPorts : ℕ) : ℕ :=
  (freeTimeSlots + 2 ^ 64 - approvalPorts) % 2 ^ 64

/-- The ports that the loop over `extraFreeTime` repeats. -/
def repeated (draw : ℕ → ℕ) (approvalPorts : List (Fin n)) (count : ℕ) : List (Fin n) :=
  (List.range count).filterMap (fun i => approvalPorts[draw i % approvalPorts.length]?)

/-- The body of the last loop: one port and one free frame. -/
def fillFrame (out : Fin m) (w : Working n m) (p : Fin n × ℕ) : Except Fault (Working n m) := do
  let matched ← testBit (w.inputMatchBitmap p.1) p.2
  if matched = false ∧ 0 < (w.inputQueues p.1).getPacketNumber out then
    matchPorts p.1 out p.2 w
  else .ok w

/-- The frames at which `out` is free. -/
def freeTimeSlots (B : ℕ) (w : Working n m) (out : Fin m) : List ℕ :=
  (List.range B).filter (fun t => !w.outFlag out t)

/-- The approvals of `out`. -/
def approvalPorts (B : ℕ) (w : Working n m) (out : Fin m) : List (Fin n) :=
  (List.range B).filterMap (fun t => w.conditionalApprovals t out)

/-- The body of the loop over the outputs. -/
def fillOutput (B : ℕ) (c : FillChoices n m) (w : Working n m) (out : Fin m) :
    Except Fault (Working n m) := do
  require (B ≤ bitmapWidth) .bitOutOfRange
  -- without an approval the output keeps its free frames
  if approvalPorts B w out = [] then .ok w
  else do
    let free := freeTimeSlots B w out
    let shuffled := (c.approvals out).val (approvalPorts B w out)
    let extra := (intOfSize (extraFreeTime free.length shuffled.length)).toNat
    let ports := shuffled ++ repeated (c.draw out) shuffled extra
    require (free.length ≤ ports.length) .tooFewApprovals
    (ports.zip free).foldlM (fillFrame out) w

/-- `endOfBatchOptimization`. -/
def endOfBatchOptimization (B : ℕ) (c : FillChoices n m) (w : Working n m) :
    Except Fault (Working n m) := do
  require (n ≤ m) .indexOutOfRange
  c.outputs.val.foldlM (fillOutput B c) w

/-! ### `schedule` -/

/-- One of the rounds `r >= 2`: all frames, then the filling. -/
def laterRound (B : ℕ) (c : Choices n m) (w : Working n m) (r : ℕ) :
    Except Fault (Working n m) := do
  let w' ← (List.range B).foldlM (fun w f => qps (c.qps r f) f w) w
  endOfBatchOptimization B (c.fill r) w'

/-- The rounds of a slot. -/
def rounds (B numIterations : ℕ) (c : Choices n m) (timeSlot : ℕ) (w : Working n m) :
    Except Fault (Working n m) := do
  let w' ← qps (c.qps 1 timeSlot) timeSlot w
  -- all further rounds are run in the last slot of the batch
  if timeSlot = B - 1 then do
    let w'' ← endOfBatchOptimization B (c.fill 1) w'
    (List.range' 2 (numIterations - 1)).foldlM (laterRound B c) w''
  else .ok w'

/-- `resetBitmap`. -/
def resetBitmap (B : ℕ) (s : Members n m) : Members n m where
  toReservations := s.toReservations.resetBitmap
  inputAvailability := fun _ => B
  outputAvailability := fun _ => B
  inputQueues := s.inputQueues
  conditionalApprovals := fun _ _ => none

/-- The start of a slot: clear its row and take in the arrivals. -/
def enterSlot (B : ℕ) (sw : IQSwitch n m) (st : State n m) : Members n m where
  toBooking :=
    { st.toBooking with toReservations := st.toReservations.clearRow (st.cfRelTime % B) }
  inputQueues := addArrivals st.inputQueues sw.getArrivals
  conditionalApprovals := st.conditionalApprovals

/-- `schedule`. -/
def schedule (B numIterations : ℕ) (c : Choices n m) (sw : IQSwitch n m) (st : State n m) :
    Except Fault (State n m) := do
  let entered := enterSlot B sw st
  let w ← rounds B numIterations c (st.cfRelTime % B)
    { toMembers := entered, between := [entered] }
  .ok
    { toMembers := if st.cfRelTime % B = B - 1 then resetBitmap B w.toMembers else w.toMembers
      between := w.between
      cfRelTime := st.cfRelTime + 1
      inMatch := st.schedules (st.cfRelTime % B) }

/-- The scheduler as a switch drives it. -/
abbrev model (n B numIterations : ℕ) (m : ℕ := n) : SchedulerModel n m where
  State := State n m
  Input := Choices n m
  schedule := schedule B numIterations
  inMatch := State.inMatch

end SbQps.Conditional

end SschedSimulator
