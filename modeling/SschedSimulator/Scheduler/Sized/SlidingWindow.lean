import SschedSimulator.Scheduler.SlidingWindow.BestFit
import SschedSimulator.Scheduler.SlidingWindow.RoundRobin
import SschedSimulator.Scheduler.Sized.Tables

namespace SschedSimulator

open Foundation

/-!
# Sliding windows over sized tables

A window uses the frame of the slot and the frames of its circular range, all of them below the
frame size, which is the number of rows.

* `SlidingWindowQps.Sized.schedule_checked`, `SwQpsBestFit.Sized.schedule_checked` — a call is in
  range whatever the state;
* `SlidingWindowRr.Sized.schedule_checked` — so is one of the round-robin window, for as many
  outputs as inputs at most and a sound state.
-/

variable {n m B : ℕ} {ports : Prop}

/-- The frames of the window are below the frame size. -/
theorem CircularGenerator.lt_of_mem_frames {t B f : ℕ} (ht : t < B) {batching : Bool}
    (hf : f ∈ CircularGenerator.frames t B batching) : f < B :=
  ((CircularGenerator.mem_frames ht).mp hf).1

namespace SlidingWindowQps

namespace Sized

/-- `dispatchSchedule`. -/
def dispatchSchedule (cfg : Config) (timeSlot : ℕ) (st : State n m) : Except Fault (State n m) := do
  let b ← Booking.Sized.dispatchRow cfg.batchSize timeSlot st.toBooking
  .ok { st with toBooking := b, inMatch := st.schedules timeSlot }

/-- Step 2 of `qps`. -/
def accept (cfg : Config) (sort : DescSort (Fin n)) (timeSlot : ℕ)
    (outAccepts : Fin m → List (Fin n)) (st : State n m) : Except Fault (Accepting n m) :=
  (List.finRange m).foldlM
    (fun acc out => Accepting.Sized.acceptLoop cfg.batchSize (fun available => available != 0)
      cfg.debugMode (CircularGenerator.frames timeSlot cfg.batchSize cfg.batching) out
      (sort.run (fun i => st.inputQueues i out) (outAccepts out)) acc)
    { toBooking := st.toBooking, virtualDepartures := [] }

/-- `qps`. -/
def qps (cfg : Config) (sort : DescSort (Fin n)) (draws : Draws n m) (sw : IQSwitch n m)
    (timeSlot : ℕ) (st : State n m) : Except Fault (State n m) := do
  let st := handlePacketArrivals sw st
  let outAccepts ← propose (getQueueLengthForInput st)
    (fun i out => (st.inputQueues i).getPacketNumber out) draws.sample (keep cfg)
    draws.shuffle.val (fun _ => [])
  let acc ← accept cfg sort timeSlot outAccepts st
  handlePacketDepartures acc.virtualDepartures { st with toBooking := acc.toBooking }

/-- `dispatchSchedule` before or after the round. -/
def dispatchIf (cfg : Config) (now : Bool) (timeSlot : ℕ) (st : State n m) :
    Except Fault (State n m) :=
  if now then dispatchSchedule cfg timeSlot st else .ok st

/-- `schedule`. -/
def schedule (cfg : Config) (sort : DescSort (Fin n)) (draws : Draws n m) (sw : IQSwitch n m)
    (st : State n m) : Except Fault (State n m) := do
  let timeSlot := st.cfRelTime % cfg.batchSize
  let st₀ ← dispatchIf cfg cfg.batching timeSlot st
  let st₁ ← qps cfg sort draws sw timeSlot st₀
  let st₂ ← dispatchIf cfg (!cfg.batching) timeSlot st₁
  .ok { st₂ with cfRelTime := st₂.cfRelTime + 1 }

variable {cfg : Config} {timeSlot : ℕ}

theorem dispatchSchedule_checked (hB : cfg.batchSize ≤ bitmapWidth) (ht : timeSlot < cfg.batchSize)
    (st : State n m) :
    Within ports (dispatchSchedule cfg timeSlot st)
      (SlidingWindowQps.dispatchSchedule timeSlot st) :=
  (Booking.Sized.dispatchRow_checked st.toBooking ht hB).map

theorem dispatchIf_checked (hB : cfg.batchSize ≤ bitmapWidth) (ht : timeSlot < cfg.batchSize)
    (now : Bool) (st : State n m) :
    Within ports (dispatchIf cfg now timeSlot st)
      (SlidingWindowQps.dispatchIf now timeSlot st) := by
  unfold dispatchIf SlidingWindowQps.dispatchIf
  split
  · exact dispatchSchedule_checked hB ht st
  · exact .ok trivial

theorem qps_checked (hB : cfg.batchSize ≤ bitmapWidth) (ht : timeSlot < cfg.batchSize)
    (sort : DescSort (Fin n)) (draws : Draws n m) (sw : IQSwitch n m) (st : State n m) :
    Within ports (qps cfg sort draws sw timeSlot st)
      (SlidingWindowQps.qps cfg sort draws sw timeSlot st) := by
  refine (inRange_propose _ _ _ _ _ _).bind (fun outAccepts _ => ?_)
  refine (Checked.loop (fun out _ acc => ?_)).bind (fun acc _ => ?_)
  · exact Accepting.Sized.acceptLoop_checked _ _
      (fun f hf => CircularGenerator.lt_of_mem_frames ht hf) hB out _ acc
  · exact (inRange_removeDepartures _ _).map

/-- A call of the window is in range. -/
theorem schedule_checked (hB1 : 1 ≤ cfg.batchSize) (hB : cfg.batchSize ≤ bitmapWidth)
    (sort : DescSort (Fin n)) (draws : Draws n m) (sw : IQSwitch n m) (st : State n m) :
    Within ports (schedule cfg sort draws sw st)
      (SlidingWindowQps.schedule cfg sort draws sw st) := by
  have ht : st.cfRelTime % cfg.batchSize < cfg.batchSize := Nat.mod_lt _ hB1
  refine (dispatchIf_checked hB ht _ st).bind (fun st₀ _ => ?_)
  refine (qps_checked hB ht sort draws sw st₀).bind (fun st₁ _ => ?_)
  exact (dispatchIf_checked hB ht _ st₁).map

end Sized

end SlidingWindowQps

namespace SlidingWindowRr

namespace Sized

/-- `dispatchSchedule`. -/
def dispatchSchedule (cfg : Config) (timeSlot : ℕ) (st : State n m) : Except Fault (State n m) := do
  let b ← Booking.Sized.dispatchRow cfg.batchSize timeSlot st.toBooking
  .ok { st with toBooking := b, inMatch := st.schedules timeSlot }

/-- One output of step 2 of `qps`. -/
def acceptOutput (cfg : Config) (timeSlot : ℕ) (outAccepts : Fin m → List (Fin n))
    (acc : RoundRobinAccepting n m) (out : Fin m) : Except Fault (RoundRobinAccepting n m) :=
  if outAccepts out = [] then .ok acc
  else if h : (out : ℕ) < n then do
    let ins := sortProposals (acc.previousLargestInput ⟨out, h⟩) (outAccepts out)
    let acc' ← Accepting.Sized.acceptLoop cfg.batchSize (fun available => available != 0)
      cfg.debugMode (CircularGenerator.frames timeSlot cfg.batchSize cfg.batching) out ins
      acc.toAccepting
    .ok
      { toAccepting := acc'
        previousLargestInput := Function.update acc.previousLargestInput ⟨out, h⟩
          ((ins.map Fin.val).headD 0) }
  else .error .indexOutOfRange

/-- `qps`. -/
def qps (cfg : Config) (shuffle : Shuffle n) (sw : IQSwitch n m) (timeSlot : ℕ)
    (st : State n m) : Except Fault (State n m) := do
  let st := handlePacketArrivals sw st
  let proposed ← propose cfg shuffle st.inputQueues
  let acc ← (List.finRange m).foldlM (acceptOutput cfg timeSlot proposed.outAccepts)
    { toBooking := st.toBooking
      virtualDepartures := []
      previousLargestInput := st.previousLargestInput }
  handlePacketDepartures acc.virtualDepartures
    { st with
      toBooking := acc.toBooking
      inputQueues := proposed.inputQueues
      previousLargestInput := acc.previousLargestInput }

/-- `dispatchSchedule` before or after the round. -/
def dispatchIf (cfg : Config) (now : Bool) (timeSlot : ℕ) (st : State n m) :
    Except Fault (State n m) :=
  if now then dispatchSchedule cfg timeSlot st else .ok st

/-- `schedule`. -/
def schedule (cfg : Config) (shuffle : Shuffle n) (sw : IQSwitch n m) (st : State n m) :
    Except Fault (State n m) := do
  let timeSlot := st.cfRelTime % cfg.batchSize
  let st₀ ← dispatchIf cfg cfg.batching timeSlot st
  let st₁ ← qps cfg shuffle sw timeSlot st₀
  let st₂ ← dispatchIf cfg (!cfg.batching) timeSlot st₁
  .ok { st₂ with cfRelTime := st₂.cfRelTime + 1 }

variable {cfg : Config} {timeSlot : ℕ}

theorem dispatchIf_checked (hB : cfg.batchSize ≤ bitmapWidth) (ht : timeSlot < cfg.batchSize)
    (now : Bool) (st : State n m) :
    Within ports (dispatchIf cfg now timeSlot st) (SlidingWindowRr.dispatchIf now timeSlot st) := by
  unfold dispatchIf SlidingWindowRr.dispatchIf
  split
  · exact (Booking.Sized.dispatchRow_checked st.toBooking ht hB).map
  · exact .ok trivial

theorem propose_inRange (cfg : Config) (shuffle : Shuffle n)
    (queues : Fin n → RoundRobinSampler m) :
    InRange ports (fun _ => True) (propose cfg shuffle queues) := by
  refine Checked.loop (fun i _ acc => ?_)
  unfold proposeInput
  split
  · exact .ok trivial
  · split
    · exact .error (not_outOfRange (by decide) (by decide))
    · exact (InRange.assert (by decide) (by decide)).map

theorem acceptOutput_checked (hB : cfg.batchSize ≤ bitmapWidth) (ht : timeSlot < cfg.batchSize)
    (outAccepts : Fin m → List (Fin n)) (acc : RoundRobinAccepting n m) (out : Fin m) :
    Within False (acceptOutput cfg timeSlot outAccepts acc out)
      (SlidingWindowRr.acceptOutput cfg timeSlot outAccepts acc out) := by
  unfold acceptOutput SlidingWindowRr.acceptOutput
  split
  · exact .ok trivial
  · split
    · exact (Accepting.Sized.acceptLoop_checked _ _
        (fun f hf => CircularGenerator.lt_of_mem_frames ht hf) hB out _ _).map
    · exact .error (fun h => h.elim (by decide) (fun h => h.1))

/-- The queues have no bitmaps. -/
theorem removeDepartures_inRange (queues : Fin n → RoundRobinSampler m)
    (departures : List (Fin n × Fin m)) :
    InRange False (fun _ => True) (RoundRobinSampler.removeDepartures queues departures) := by
  refine Checked.loop (fun p _ qs => ?_)
  refine (InRange.assert (by decide) (by decide)).bind (fun _ _ => ?_)
  refine Checked.map (Q := fun _ => True) ?_
  exact (InRange.assert (by decide) (by decide)).bind (fun _ _ => InRange.size.map)

theorem schedule_bits (hB1 : 1 ≤ cfg.batchSize) (hB : cfg.batchSize ≤ bitmapWidth)
    (shuffle : Shuffle n) (sw : IQSwitch n m) (st : State n m) :
    Within False (schedule cfg shuffle sw st) (SlidingWindowRr.schedule cfg shuffle sw st) := by
  have ht : st.cfRelTime % cfg.batchSize < cfg.batchSize := Nat.mod_lt _ hB1
  refine (dispatchIf_checked hB ht _ st).bind (fun st₀ _ => ?_)
  refine Checked.bind (Q := fun _ => True) ?_ (fun st₁ _ => (dispatchIf_checked hB ht _ st₁).map)
  refine (propose_inRange cfg shuffle _).bind (fun proposed _ => ?_)
  refine (Checked.loop (fun out _ acc => ?_)).bind (fun acc _ => ?_)
  · exact acceptOutput_checked hB ht _ acc out
  · exact (removeDepartures_inRange _ _).map

/-- A call of the round-robin window is in range: `previousLargestInput` has an element for each
    output, and each proposal that is accepted is in its queue. -/
theorem schedule_checked (hB1 : 1 ≤ cfg.batchSize) (hB : cfg.batchSize ≤ bitmapWidth)
    (shuffle : Shuffle n) (sw : IQSwitch n m) {st : State n m}
    (h : ports → m ≤ n ∧ Sound cfg st) :
    Within ports (schedule cfg shuffle sw st) (SlidingWindowRr.schedule cfg shuffle sw st) := by
  have hbits := schedule_bits hB1 hB shuffle sw st
  refine ⟨hbits.same, ?_⟩
  by_cases hports : ports
  · obtain ⟨hmn, hsound⟩ := h hports
    exact (schedule_post hB1 hB shuffle sw hsound).mono (fun e he => absurd hmn he.2)
      (fun _ _ => trivial)
  · exact hbits.post.mono
      (fun e he hout => he (hout.imp_right (fun hindex => absurd hindex.1 hports)))
      (fun _ h => h)

end Sized

end SlidingWindowRr

namespace SwQpsBestFit

namespace Sized

/-- The reservation of the frame that the solver gives a proposal. -/
def install (B : ℕ) (out : Fin m) (mate : ℕ → Option ℕ) (nodeMap : ℕ → ℕ) (acc : Accepting n m)
    (bn : ℕ × Fin n) : Except Fault (Accepting n m) :=
  match mate bn.1 with
  | none => .ok acc
  | some v => do
    let b ← Booking.Sized.reserve B acc.toBooking (nodeMap v) bn.2 out
    .ok { toBooking := b, virtualDepartures := acc.virtualDepartures ++ [(bn.2, out)] }

/-- One output of step 2 of `qps`. -/
def acceptOutput (B : ℕ) (sort : DescSort (Fin n)) (maxMatching : Solver)
    (queues : Fin n → QueueSampler m) (timeSlot : ℕ) (outAccepts : Fin m → List (Fin n))
    (acc : Accepting n m) (out : Fin m) : Except Fault (Accepting n m) :=
  if outAccepts out = [] then .ok acc
  else do
    let tr ← trialLoop (CircularGenerator.frames timeSlot B false)
      (sort.run (fun i => (queues i).getPacketNumber out) (outAccepts out))
      (.start acc.toBooking out)
    let ag ← buildGraph B acc.toBooking out (outAccepts out) tr.initialMatch
    ag.blueNodes.foldlM (install B out (maxMatching ag.g ag.initialMatchingMap) ag.nodeMap) acc

/-- `qps`. -/
def qps (B : ℕ) (sort : DescSort (Fin n)) (maxMatching : Solver) (draws : Draws n m)
    (sw : IQSwitch n m) (timeSlot : ℕ) (st : State n m) : Except Fault (State n m) := do
  let st := SlidingWindowQps.handlePacketArrivals sw st
  let outAccepts ← propose (SlidingWindowQps.getQueueLengthForInput st)
    (fun i out => (st.inputQueues i).getPacketNumber out) draws.sample
    (fun i _ ins => ins ++ [i]) draws.shuffle.val (fun _ => [])
  let acc ← (List.finRange m).foldlM
    (acceptOutput B sort maxMatching st.inputQueues timeSlot outAccepts)
    { toBooking := st.toBooking, virtualDepartures := [] }
  SlidingWindowQps.handlePacketDepartures acc.virtualDepartures
    { st with toBooking := acc.toBooking }

/-- `schedule`. -/
def schedule (B : ℕ) (sort : DescSort (Fin n)) (maxMatching : Solver) (draws : Draws n m)
    (sw : IQSwitch n m) (st : State n m) : Except Fault (State n m) := do
  let timeSlot := st.cfRelTime % B
  let st₁ ← qps B sort maxMatching draws sw timeSlot st
  let st₂ ← SlidingWindowQps.Sized.dispatchSchedule (window B) timeSlot st₁
  .ok { st₂ with cfRelTime := st₂.cfRelTime + 1 }

theorem trialLoop_inRange {frames : List ℕ} (h : ∀ f ∈ frames, f < bitmapWidth)
    (ins : List (Fin n)) (tr : Trial n) :
    InRange ports (fun _ => True) (trialLoop frames ins tr) := by
  induction ins generalizing tr with
  | nil => exact .ok trivial
  | cons i rest ih =>
    unfold trialLoop
    split
    · exact .ok trivial
    · split
      · exact ih tr
      · refine (inRange_firstFit _ h).bind (fun r hr => ?_)
        cases r with
        | none => exact ih tr
        | some f =>
          refine Checked.bind (Q := fun _ => True) ?_ (fun tr' _ => ih tr')
          exact (InRange.check (h f (hr f rfl))).map

/-- The frames that are reserved are mates of proposals. -/
theorem acceptOutput_checked (hB : B ≤ bitmapWidth) (sort : DescSort (Fin n))
    {maxMatching : Solver} (hjoined : Joined maxMatching) (queues : Fin n → QueueSampler m)
    {timeSlot : ℕ} (ht : timeSlot < B) (outAccepts : Fin m → List (Fin n)) (acc : Accepting n m)
    (out : Fin m) :
    Within ports (acceptOutput B sort maxMatching queues timeSlot outAccepts acc out)
      (SwQpsBestFit.acceptOutput B sort maxMatching queues timeSlot outAccepts acc out) := by
  have hframes : ∀ f ∈ CircularGenerator.frames timeSlot B false, f < bitmapWidth :=
    fun f hf => lt_of_lt_of_le (CircularGenerator.lt_of_mem_frames ht hf) hB
  unfold acceptOutput SwQpsBestFit.acceptOutput
  split
  · exact .ok trivial
  · refine (trialLoop_inRange hframes _ _).bind (fun tr _ => ?_)
    have hgraph := buildGraph_post hB acc.toBooking out (outAccepts out) tr.initialMatch
    refine (Checked.of_post (hgraph.mono (fun _ he => he.elim) (fun _ h => h))).bind
      (fun ag hag => ?_)
    obtain ⟨k, hbuilt⟩ := hag
    refine Checked.loop (fun bn hbn acc' => ?_)
    unfold install SwQpsBestFit.install
    cases hmate : maxMatching ag.g ag.initialMatchingMap bn.1 with
    | none => exact .ok trivial
    | some v =>
      have hlt := hbuilt.nodeMap_lt hjoined hbn hmate
      exact (Booking.Sized.reserve_checked acc'.toBooking hlt hB _ _).map

/-- A call of the window with best fit is in range. -/
theorem schedule_checked (hB1 : 1 ≤ B) (hB : B ≤ bitmapWidth) (sort : DescSort (Fin n))
    {maxMatching : Solver} (hjoined : Joined maxMatching) (draws : Draws n m)
    (sw : IQSwitch n m) (st : State n m) :
    Within ports (schedule B sort maxMatching draws sw st)
      (SwQpsBestFit.schedule B sort maxMatching draws sw st) := by
  have ht : st.cfRelTime % B < B := Nat.mod_lt _ hB1
  refine Checked.bind (Q := fun _ => True) ?_ (fun st₁ _ => ?_)
  · refine (inRange_propose _ _ _ _ _ _).bind (fun outAccepts _ => ?_)
    refine (Checked.loop (fun out _ acc => ?_)).bind (fun acc _ => ?_)
    · exact acceptOutput_checked hB sort hjoined _ ht _ acc out
    · exact (inRange_removeDepartures _ _).map
  · exact (SlidingWindowQps.Sized.dispatchSchedule_checked hB ht st₁).map

end Sized

end SwQpsBestFit

end SschedSimulator
