import SschedSimulator.Scheduler.SlidingWindow.Basic

namespace SschedSimulator

open Foundation

/-!
# `sb_qps.cc` — the scheduler `SB_QPS_Fixed`

The scheduler fills the table `schedules` during a batch and dispatches `schedules_pre`, which
holds the batch before; at the end of the batch the two are swapped.  A round is the round of the
sliding window with the frames tried from `0` up.

* `Pipelined` — what the two tables are for: every access is in bounds, a batch is dispatched as
  the batch before left it, and a swap makes an empty table current;
* `Filling` — the invariant of the slots of a batch, and `schedule_post`, which keeps it;
* `pipelined_of_filling` — it makes every run a pipeline, if `schedules_pre` has its rows at the
  start;
* `never_pipelined` — it has none after the constructor or `reset`, so the first call reads past
  its end.
-/

namespace SbQps

variable {n m : ℕ}

namespace Fixed

/-- The constructor arguments that the scheduling logic reads. -/
structure Config where
  batchSize : ℕ
  maxAccepts : ℤ
  debugMode : Bool

/-- The members of `SB_QPS_Fixed` that change: those of the sliding window, and beside the rows of
    the two tables the lengths `schedules.size()` and `schedules_pre.size()`. -/
structure State (n m : ℕ) extends SlidingWindowQps.State n m where
  schedulesSize : ℕ
  schedulesPre : ℕ → Fin n → Option (Fin m)
  schedulesPreSize : ℕ

/-- The same arguments for a sliding window without batching. -/
def Config.window (cfg : Config) : SlidingWindowQps.Config :=
  ⟨cfg.batchSize, cfg.maxAccepts, false, cfg.debugMode⟩

/-- The constructor: `BatchScheduler` gives `schedules` its rows and leaves `schedules_pre`
    empty. -/
def State.initial (cfg : Config) : State n m where
  toState := SlidingWindowQps.State.initial cfg.window
  schedulesSize := cfg.batchSize
  schedulesPre := fun _ _ => none
  schedulesPreSize := 0

/-- `reset`: everything but `_in_match`; `BatchScheduler::reset` clears `schedules_pre`. -/
def reset (cfg : Config) (st : State n m) : State n m :=
  { State.initial cfg with inMatch := st.inMatch }

/-- `handlePacketArrivals`. -/
def handlePacketArrivals (sw : IQSwitch n m) (st : State n m) : State n m :=
  { st with inputQueues := addArrivals st.inputQueues sw.getArrivals }

/-- `handlePacketDepartures`. -/
def handlePacketDepartures (departures : List (Fin n × Fin m)) (st : State n m) :
    Except Fault (State n m) := do
  let queues ← removeDepartures st.inputQueues departures
  .ok { st with inputQueues := queues }

/-- `getQueueLengthForInput`. -/
def getQueueLengthForInput (st : State n m) (i : Fin n) : ℤ := (st.inputQueues i).getQueueLength

/-- Grant one proposal if a frame is free; its row has to be one of the `size` rows of
    `schedules`. -/
def grant (cfg : Config) (size : ℕ) (out : Fin m) (acc : Accepting n m) (i : Fin n) :
    Except Fault (Accepting n m) :=
  if acc.inputAvailability i = 0 then .ok acc
  else do
    match ← acc.firstFree (List.range cfg.batchSize) i out with
    | none => .ok acc
    | some f => do
      require (f < size) .indexOutOfRange
      let b ← acc.toBooking.reserve f i out
      .ok { toBooking := b, virtualDepartures := acc.virtualDepartures ++ [(i, out)] }

/-- The walk of `out` over its sorted proposals. -/
def acceptLoop (cfg : Config) (size : ℕ) (out : Fin m) :
    List (Fin n) → Accepting n m → Except Fault (Accepting n m)
  | [], acc => .ok acc
  | i :: rest, acc =>
    if acc.outputAvailability out = 0 then
      -- `continue` in debug mode, `break` otherwise
      if cfg.debugMode then acceptLoop cfg size out rest acc else .ok acc
    else do
      let acc' ← grant cfg size out acc i
      acceptLoop cfg size out rest acc'

/-- Step 2 of `qps`: each output sorts its proposals by VOQ length and tries to grant them. -/
def accept (cfg : Config) (sort : DescSort (Fin n)) (outAccepts : Fin m → List (Fin n))
    (st : State n m) : Except Fault (Accepting n m) :=
  (List.finRange m).foldlM
    (fun acc out => acceptLoop cfg st.schedulesSize out
      (sort.run (fun i => st.inputQueues i out) (outAccepts out)) acc)
    { toBooking := st.toBooking, virtualDepartures := [] }

/-- `qps`; an output keeps up to `maxAccepts` proposals. -/
def qps (cfg : Config) (sort : DescSort (Fin n)) (draws : Draws n m) (st : State n m) :
    Except Fault (State n m) := do
  let outAccepts ← propose (getQueueLengthForInput st)
    (fun i out => (st.inputQueues i).getPacketNumber out) draws.sample
    (SlidingWindowQps.keep cfg.window) draws.shuffle.val (fun _ => [])
  let acc ← accept cfg sort outAccepts st
  handlePacketDepartures acc.virtualDepartures { st with toBooking := acc.toBooking }

/-- `resetBitmap`. -/
def resetBitmap (cfg : Config) (st : State n m) : State n m :=
  { st with
    inputMatchBitmap := fun _ => 0
    outputMatchBitmap := fun _ => 0
    inputAvailability := fun _ => cfg.batchSize
    outputAvailability := fun _ => cfg.batchSize }

/-- `std::swap(schedules, schedules_pre)`. -/
def swapTables (st : State n m) : State n m :=
  { st with
    schedules := st.schedulesPre
    schedulesSize := st.schedulesPreSize
    schedulesPre := st.schedules
    schedulesPreSize := st.schedulesSize }

/-- Copy the row of the slot in `schedules_pre` to `_in_match` and clear it. -/
def dispatchPre (timeSlot : ℕ) (st : State n m) : Except Fault (State n m) := do
  require (timeSlot < st.schedulesPreSize) .indexOutOfRange
  .ok
    { st with
      inMatch := st.schedulesPre timeSlot
      schedulesPre := Function.update st.schedulesPre timeSlot (fun _ => none) }

/-- `schedule` up to the end of its round. -/
def slotRound (cfg : Config) (sort : DescSort (Fin n)) (draws : Draws n m) (sw : IQSwitch n m)
    (st : State n m) : Except Fault (State n m) := do
  let st₀ ← dispatchPre (st.cfRelTime % cfg.batchSize) st
  let st₁ ← qps cfg sort draws (handlePacketArrivals sw st₀)
  -- the buffer state written to the debug stream reads every row of `schedules`
  require (cfg.batchSize ≤ st₁.schedulesSize) .indexOutOfRange
  .ok st₁

/-- The end of `schedule`: after the last slot of a batch the tables are swapped. -/
def endSlot (cfg : Config) (st : State n m) : Except Fault (State n m) :=
  if st.cfRelTime % cfg.batchSize = cfg.batchSize - 1 then do
    require (cfg.debugMode = true → ∀ f < st.schedulesPreSize, ∀ i, st.schedulesPre f i = none)
      .cellLeftOver
    .ok { resetBitmap cfg (swapTables st) with cfRelTime := st.cfRelTime + 1 }
  else .ok { st with cfRelTime := st.cfRelTime + 1 }

/-- `schedule`. -/
def schedule (cfg : Config) (sort : DescSort (Fin n)) (draws : Draws n m) (sw : IQSwitch n m)
    (st : State n m) : Except Fault (State n m) := do
  let filled ← slotRound cfg sort draws sw st
  endSlot cfg filled

/-- The scheduler as a switch drives it. -/
abbrev model (n m : ℕ) (cfg : Config) (sort : DescSort (Fin n)) : SchedulerModel n m where
  State := State n m
  Input := Draws n m
  schedule := schedule cfg sort
  inMatch := fun st => st.inMatch

/-- The state after `T` calls of `schedule()`; `slots t` are the random choices of call `t` and the
    switch it is given. -/
def calls (cfg : Config) (sort : DescSort (Fin n)) (slots : ℕ → Draws n m × IQSwitch n m)
    (st : State n m) : ℕ → Except Fault (State n m) :=
  steps (fun t => schedule cfg sort (slots t).1 (slots t).2) st

/-! ### The pipeline -/

/-- The calls of a run use the two tables as a double buffer. -/
structure Pipelined (cfg : Config) (sort : DescSort (Fin n))
    (slots : ℕ → Draws n m × IQSwitch n m) (start : State n m) : Prop where
  /-- every access to the tables is within bounds -/
  inBounds : ∀ T, calls cfg sort slots start T ≠ .error .indexOutOfRange
  /-- batch `0` dispatches nothing -/
  firstBatch : ∀ f < cfg.batchSize, ∀ st, calls cfg sort slots start (f + 1) = .ok st →
    ∀ i, st.inMatch i = none
  /-- slot `f` of batch `k + 1` dispatches row `f` of `schedules` as the last round of batch `k`
      leaves it -/
  nextBatch : ∀ k, ∀ f < cfg.batchSize, ∀ before filled st,
    calls cfg sort slots start (k * cfg.batchSize + (cfg.batchSize - 1)) = .ok before →
    slotRound cfg sort (slots (k * cfg.batchSize + (cfg.batchSize - 1))).1
      (slots (k * cfg.batchSize + (cfg.batchSize - 1))).2 before = .ok filled →
    calls cfg sort slots start ((k + 1) * cfg.batchSize + f + 1) = .ok st →
    st.inMatch = filled.schedules f
  /-- the table that becomes current at the end of a batch has `B` rows, all empty -/
  swapped : ∀ k st, calls cfg sort slots start ((k + 1) * cfg.batchSize) = .ok st →
    st.schedulesSize = cfg.batchSize ∧ ∀ f < cfg.batchSize, ∀ i, st.schedules f i = none

/-- The state with `schedules_pre` as the constructor's comment on the first frame expects it. -/
def State.primed (cfg : Config) (st : State n m) : State n m :=
  { st with schedulesPre := fun _ _ => none, schedulesPreSize := cfg.batchSize }

/-! ### The round -/

variable {cfg : Config} {sort : DescSort (Fin n)}

/-- The loop over the frames tries them in order. -/
theorem frames_window (hB1 : 1 ≤ cfg.batchSize) :
    CircularGenerator.frames 0 cfg.batchSize false = List.range cfg.batchSize := by
  rw [CircularGenerator.frames_eq hB1]
  simp only [CircularGenerator.window, Bool.false_eq_true, if_false, Nat.zero_add]
  apply (List.map_congr_left fun f hf => _).trans (List.map_id _)
  intro f hf
  exact Nat.mod_eq_of_lt (List.mem_range.mp hf)

/-- When `schedules` has its rows, a grant never reads past its end. -/
theorem grant_eq (hB : cfg.batchSize ≤ bitmapWidth) {size : ℕ} (hsize : cfg.batchSize ≤ size)
    (out : Fin m) (acc : Accepting n m) (i : Fin n) :
    grant cfg size out acc i = acc.grant (List.range cfg.batchSize) out i := by
  unfold grant Accepting.grant Booking.tryReserve
  split
  · simp
  · have hwidth : ∀ f ∈ List.range cfg.batchSize, f < bitmapWidth := fun f hf =>
      lt_of_lt_of_le (List.mem_range.mp hf) hB
    rw [acc.firstFree_eq hwidth, ok_bind, ok_bind]
    cases hfree : (List.range cfg.batchSize).find? (fun f => !(acc.inFlag i f || acc.outFlag out f))
      with
    | none => simp
    | some f =>
      have hf : f < size :=
        lt_of_lt_of_le (List.mem_range.mp (List.mem_of_find?_eq_some hfree)) hsize
      simp only [require_pos hf, ok_bind]
      cases acc.toBooking.reserve f i out <;> rfl

theorem acceptLoop_eq (hB : cfg.batchSize ≤ bitmapWidth) {size : ℕ} (hsize : cfg.batchSize ≤ size)
    (out : Fin m) (ins : List (Fin n)) (acc : Accepting n m) :
    acceptLoop cfg size out ins acc
      = acc.acceptLoop (fun available => available != 0) cfg.debugMode (List.range cfg.batchSize)
        out ins := by
  induction ins generalizing acc with
  | nil => rfl
  | cons i rest ih =>
    unfold acceptLoop Accepting.acceptLoop
    by_cases hzero : acc.outputAvailability out = 0
    · simp [hzero, ih]
    · simp [hzero, grant_eq hB hsize, ih]

/-- With all its rows in `schedules`, the outputs accept as in a sliding window at slot `0`. -/
theorem accept_eq (hB1 : 1 ≤ cfg.batchSize) (hB : cfg.batchSize ≤ bitmapWidth)
    (outAccepts : Fin m → List (Fin n)) {st : State n m}
    (hsize : cfg.batchSize ≤ st.schedulesSize) :
    accept cfg sort outAccepts st
      = SlidingWindowQps.accept cfg.window sort 0 outAccepts st.toState := by
  unfold accept SlidingWindowQps.accept
  rw [show cfg.window.batching = false from rfl, show cfg.window.batchSize = cfg.batchSize from rfl,
    frames_window hB1]
  simp only [acceptLoop_eq hB hsize]
  rfl

/-- So does the whole round. -/
theorem qps_eq (hB1 : 1 ≤ cfg.batchSize) (hB : cfg.batchSize ≤ bitmapWidth) (draws : Draws n m)
    (sw : IQSwitch n m) {st : State n m} (hsize : cfg.batchSize ≤ st.schedulesSize) :
    qps cfg sort draws (handlePacketArrivals sw st)
      = SlidingWindowQps.qps cfg.window sort draws sw 0 st.toState >>=
        fun s => .ok { st with toState := s } := by
  unfold qps SlidingWindowQps.qps
  simp only [bind_assoc]
  apply bind_congr
  intro outAccepts
  rw [accept_eq hB1 hB outAccepts (show cfg.batchSize ≤ (handlePacketArrivals sw st).schedulesSize
    from hsize)]
  apply bind_congr
  intro acc
  unfold handlePacketDepartures SlidingWindowQps.handlePacketDepartures
  simp only [bind_assoc]
  rfl

/-! ### One call -/

/-- Tables without reservations and bits are consistent. -/
theorem consistent_cleared {B : ℕ} {b : Booking n m} (hrows : ∀ f < B, ∀ i, b.schedules f i = none)
    (hin : ∀ i f, b.inFlag i f = false) (hout : ∀ o f, b.outFlag o f = false)
    (hinAvail : ∀ i, b.inputAvailability i = B) (houtAvail : ∀ o, b.outputAvailability o = B) :
    b.Consistent B B B where
  input := fun {f i o} hf hc => by simp [hrows f hf i] at hc
  output := fun {f i o} hf hc => by simp [hrows f hf i] at hc
  inputLive := fun {f i} hb => by simp [hin i f] at hb
  outputLive := fun {f o} hb => by simp [hout o f] at hb
  inputUsed := fun {f i} hb => by simp [hin i f] at hb
  outputUsed := fun {f o} hb => by simp [hout o f] at hb
  matching := fun f hf i i' o hi _ => by simp [hrows f hf i] at hi
  inputAvailable := fun i => by simp [freeFrames, hin, hinAvail]
  outputAvailable := fun o => by simp [freeFrames, hout, houtAvail]

/-- The state at slot `t` of a batch: both tables have their rows, the bits and the counters are
    those of the table being filled, and the first `t` rows of the other are dispatched. -/
structure Filling (cfg : Config) (t : ℕ) (st : State n m) : Prop where
  sound : SlidingWindowQps.Sound cfg.window st.toState
  schedulesSize : st.schedulesSize = cfg.batchSize
  schedulesPreSize : st.schedulesPreSize = cfg.batchSize
  dispatched : ∀ f < t, ∀ i, st.schedulesPre f i = none

/-- What a round at slot `t` does to the table being dispatched. -/
structure Rounded (cfg : Config) (t : ℕ) (st filled : State n m) : Prop where
  filling : Filling cfg (t + 1) filled
  cfRelTime : filled.cfRelTime = st.cfRelTime
  inMatch : filled.inMatch = st.schedulesPre t
  schedulesPre : filled.schedulesPre = Function.update st.schedulesPre t (fun _ => none)

theorem slotRound_post (hB1 : 1 ≤ cfg.batchSize) (hB : cfg.batchSize ≤ bitmapWidth)
    (draws : Draws n m) (sw : IQSwitch n m) {st : State n m}
    (h : Filling cfg (st.cfRelTime % cfg.batchSize) st) :
    Post (slotRound cfg sort draws sw st)
      (fun e => e = .badSample ∧ ¬ SlidingWindowQps.GoodDraws draws sw st.toState)
      (Rounded cfg (st.cfRelTime % cfg.batchSize) st) := by
  have ht : st.cfRelTime % cfg.batchSize < cfg.batchSize := Nat.mod_lt _ hB1
  unfold slotRound dispatchPre
  rw [h.schedulesPreSize, require_pos ht, ok_bind, ok_bind,
    qps_eq hB1 hB draws sw (by exact h.schedulesSize.ge)]
  simp only [bind_assoc, ok_bind, h.schedulesSize, require_pos (le_refl cfg.batchSize)]
  -- The round runs on the members of the sliding window, of which the dispatch wrote `_in_match`.
  have hround : Post (SlidingWindowQps.qps cfg.window sort draws sw 0
      { st.toState with inMatch := st.schedulesPre (st.cfRelTime % cfg.batchSize) }) _ _ :=
    SlidingWindowQps.qps_post hB sort draws sw hB1 ⟨h.sound.tables, h.sound.nonneg⟩
  apply hround.bind
  intro s hs
  obtain ⟨gs, hs⟩ := hs
  refine ⟨⟨hs.sound, rfl, rfl, fun f hf i => ?_⟩, hs.cfRelTime, hs.inMatch, rfl⟩
  show Function.update st.schedulesPre _ _ f i = none
  rw [Function.update_apply]
  split
  · rfl
  · apply h.dispatched
    omega

/-- What one call does: in the last slot of a batch the table that was filled is dispatched next,
    and the one that is filled next is empty. -/
structure Call (cfg : Config) (t : ℕ) (st filled st' : State n m) : Prop where
  filling : Filling cfg ((t + 1) % cfg.batchSize) st'
  cfRelTime : st'.cfRelTime = st.cfRelTime + 1
  inMatch : st'.inMatch = st.schedulesPre t
  schedulesPre : st'.schedulesPre = if t + 1 = cfg.batchSize then filled.schedules
    else Function.update st.schedulesPre t (fun _ => none)
  current : t + 1 = cfg.batchSize → ∀ f < cfg.batchSize, ∀ i, st'.schedules f i = none

/-- A slot before the last one of its batch. -/
theorem Rounded.call_mid {t : ℕ} {st filled : State n m} (h : Rounded cfg t st filled)
    (hnext : t + 1 < cfg.batchSize) :
    Call cfg t st filled { filled with cfRelTime := st.cfRelTime + 1 } where
  filling := by
    rw [Nat.mod_eq_of_lt hnext]
    exact ⟨⟨h.filling.sound.tables, h.filling.sound.nonneg⟩, h.filling.schedulesSize,
      h.filling.schedulesPreSize, h.filling.dispatched⟩
  cfRelTime := rfl
  inMatch := h.inMatch
  schedulesPre := h.schedulesPre.trans (if_neg (by omega)).symm
  current := fun hend => absurd hend (by omega)

/-- After the round of the last slot every row of the table dispatched is empty. -/
theorem Rounded.all_dispatched {t : ℕ} {st filled : State n m} (h : Rounded cfg t st filled)
    (hlast : t + 1 = cfg.batchSize) :
    ∀ f < cfg.batchSize, ∀ i, filled.schedulesPre f i = none := by
  intro f hf
  apply h.filling.dispatched
  omega

/-- The last slot of a batch swaps the tables and clears the bitmaps. -/
theorem Rounded.call_last {t : ℕ} {st filled : State n m} (h : Rounded cfg t st filled)
    (hlast : t + 1 = cfg.batchSize) :
    Call cfg t st filled
      { resetBitmap cfg (swapTables filled) with cfRelTime := st.cfRelTime + 1 } where
  filling := by
    rw [hlast, Nat.mod_self]
    refine ⟨⟨?_, h.filling.sound.nonneg⟩, h.filling.schedulesPreSize, h.filling.schedulesSize,
      fun f hf => absurd hf (Nat.not_lt_zero f)⟩
    apply consistent_cleared
    · exact h.all_dispatched hlast
    · exact fun i f => Bitset.test_zero f
    · exact fun o f => Bitset.test_zero f
    · exact fun i => rfl
    · exact fun o => rfl
  cfRelTime := rfl
  inMatch := h.inMatch
  schedulesPre := (if_pos hlast).symm
  current := fun _ => h.all_dispatched hlast

theorem schedule_post (hB1 : 1 ≤ cfg.batchSize) (hB : cfg.batchSize ≤ bitmapWidth)
    (draws : Draws n m) (sw : IQSwitch n m) {st : State n m}
    (h : Filling cfg (st.cfRelTime % cfg.batchSize) st) :
    Post (schedule cfg sort draws sw st)
      (fun e => e = .badSample ∧ ¬ SlidingWindowQps.GoodDraws draws sw st.toState)
      (fun st' => ∃ filled, slotRound cfg sort draws sw st = .ok filled ∧
        Call cfg (st.cfRelTime % cfg.batchSize) st filled st') := by
  have ht : st.cfRelTime % cfg.batchSize < cfg.batchSize := Nat.mod_lt _ hB1
  apply (slotRound_post hB1 hB draws sw h).and_eq.bind
  intro filled hfilled
  obtain ⟨hround, hrun⟩ := hfilled
  unfold endSlot
  rw [hround.cfRelTime]
  by_cases hlast : st.cfRelTime % cfg.batchSize = cfg.batchSize - 1
  · have hend : st.cfRelTime % cfg.batchSize + 1 = cfg.batchSize := by omega
    have hdebug : cfg.debugMode = true →
        ∀ f < filled.schedulesPreSize, ∀ i, filled.schedulesPre f i = none := by
      intro _
      rw [hround.filling.schedulesPreSize]
      exact hround.all_dispatched hend
    rw [if_pos hlast, require_pos hdebug, ok_bind]
    exact ⟨filled, hrun, hround.call_last hend⟩
  · rw [if_neg hlast]
    exact ⟨filled, hrun, hround.call_mid (by omega)⟩

/-! ### Whole runs -/

section

variable {slots : ℕ → Draws n m × IQSwitch n m} {start : State n m}

/-- Every call of a run keeps the invariant; only a bad sample stops it. -/
theorem calls_post (hB1 : 1 ≤ cfg.batchSize) (hB : cfg.batchSize ≤ bitmapWidth)
    (htime : start.cfRelTime = 0) (h : Filling cfg 0 start) (T : ℕ) :
    Post (calls cfg sort slots start T) (fun e => e = .badSample)
      (fun st => st.cfRelTime = T ∧ Filling cfg (T % cfg.batchSize) st) := by
  apply Post.steps (fun T st => st.cfRelTime = T ∧ Filling cfg (T % cfg.batchSize) st)
  · refine ⟨htime, ?_⟩
    rw [Nat.zero_mod]
    exact h
  · intro T st hst
    obtain ⟨rfl, hst⟩ := hst
    apply (schedule_post hB1 hB _ _ hst).mono (fun e he => he.1)
    intro st' hst'
    obtain ⟨filled, -, hcall⟩ := hst'
    refine ⟨hcall.cfRelTime, ?_⟩
    rw [← Nat.mod_add_mod]
    exact hcall.filling

/-- A run of `T + 1` calls is one of `T` calls followed by a call. -/
theorem call_of_calls (hB1 : 1 ≤ cfg.batchSize) (hB : cfg.batchSize ≤ bitmapWidth)
    (htime : start.cfRelTime = 0) (h : Filling cfg 0 start) {T : ℕ} {st' : State n m}
    (hrun : calls cfg sort slots start (T + 1) = .ok st') :
    ∃ st filled, calls cfg sort slots start T = .ok st ∧
      slotRound cfg sort (slots T).1 (slots T).2 st = .ok filled ∧
      Call cfg (T % cfg.batchSize) st filled st' := by
  obtain ⟨st, hst, hcall⟩ := steps_succ_eq_ok.mp hrun
  obtain ⟨rfl, hfilling⟩ := (calls_post hB1 hB htime h T).of_ok hst
  obtain ⟨filled, hround, hcall'⟩ := (schedule_post hB1 hB _ _ hfilling).of_ok hcall
  exact ⟨st, filled, hst, hround, hcall'⟩

/-- The rows of a batch that are still to be dispatched at its slot `t` are as its first slot found
    them. -/
theorem schedulesPre_of_calls (hB1 : 1 ≤ cfg.batchSize) (hB : cfg.batchSize ≤ bitmapWidth)
    (htime : start.cfRelTime = 0) (h : Filling cfg 0 start) (k : ℕ) {t : ℕ}
    (ht : t < cfg.batchSize) {st : State n m}
    (hrun : calls cfg sort slots start (k * cfg.batchSize + t) = .ok st) :
    ∃ first, calls cfg sort slots start (k * cfg.batchSize) = .ok first ∧
      ∀ f, t ≤ f → st.schedulesPre f = first.schedulesPre f := by
  obtain ⟨first, hfirst⟩ := exists_steps hrun
  refine ⟨first, hfirst, steps_keep State.schedulesPre hfirst (fun t mid next ht hmid hnext => ?_)
    ht hrun⟩
  obtain ⟨htime', hfilling⟩ := (calls_post hB1 hB htime h _).of_ok hmid
  rw [← htime'] at hfilling
  obtain ⟨filled, -, hcall⟩ := (schedule_post hB1 hB _ _ hfilling).of_ok hnext
  have hslot : mid.cfRelTime % cfg.batchSize = t := by
    rw [htime', Nat.mul_add_mod_self_right, Nat.mod_eq_of_lt (by omega)]
  intro f hf
  rw [hcall.schedulesPre, hslot, if_neg (by omega), Function.update_of_ne hf]

/-- A slot dispatches what its row holds at the first slot of the batch. -/
theorem inMatch_of_calls (hB1 : 1 ≤ cfg.batchSize) (hB : cfg.batchSize ≤ bitmapWidth)
    (htime : start.cfRelTime = 0) (h : Filling cfg 0 start) (k : ℕ) {f : ℕ}
    (hf : f < cfg.batchSize) {st : State n m}
    (hrun : calls cfg sort slots start (k * cfg.batchSize + f + 1) = .ok st) :
    ∃ first, calls cfg sort slots start (k * cfg.batchSize) = .ok first ∧
      st.inMatch = first.schedulesPre f := by
  obtain ⟨mid, filled, hmid, -, hcall⟩ := call_of_calls hB1 hB htime h hrun
  obtain ⟨first, hfirst, hkept⟩ := schedulesPre_of_calls hB1 hB htime h k hf hmid
  refine ⟨first, hfirst, ?_⟩
  rw [hcall.inMatch, Nat.mul_add_mod_self_right, Nat.mod_eq_of_lt hf]
  exact hkept f (le_refl f)

/-- The last slot of a batch hands over the table it filled and takes an empty one. -/
theorem swapped_of_calls (hB1 : 1 ≤ cfg.batchSize) (hB : cfg.batchSize ≤ bitmapWidth)
    (htime : start.cfRelTime = 0) (h : Filling cfg 0 start) (k : ℕ) {st : State n m}
    (hrun : calls cfg sort slots start ((k + 1) * cfg.batchSize) = .ok st) :
    ∃ before filled,
      calls cfg sort slots start (k * cfg.batchSize + (cfg.batchSize - 1)) = .ok before ∧
      slotRound cfg sort (slots (k * cfg.batchSize + (cfg.batchSize - 1))).1
        (slots (k * cfg.batchSize + (cfg.batchSize - 1))).2 before = .ok filled ∧
      st.schedulesPre = filled.schedules ∧ st.schedulesSize = cfg.batchSize ∧
      ∀ f < cfg.batchSize, ∀ i, st.schedules f i = none := by
  have hlast : (k + 1) * cfg.batchSize = k * cfg.batchSize + (cfg.batchSize - 1) + 1 := by
    rw [Nat.succ_mul]
    omega
  rw [hlast] at hrun
  obtain ⟨before, filled, hbefore, hround, hcall⟩ := call_of_calls hB1 hB htime h hrun
  have hslot : (k * cfg.batchSize + (cfg.batchSize - 1)) % cfg.batchSize + 1 = cfg.batchSize := by
    rw [Nat.mul_add_mod_self_right, Nat.mod_eq_of_lt (by omega)]
    omega
  refine ⟨before, filled, hbefore, hround, ?_, hcall.filling.schedulesSize, hcall.current hslot⟩
  rw [hcall.schedulesPre, if_pos hslot]

/-- Once `schedules_pre` has its rows and they are empty, every run is a pipeline. -/
theorem pipelined_of_filling (hB1 : 1 ≤ cfg.batchSize) (hB : cfg.batchSize ≤ bitmapWidth)
    (htime : start.cfRelTime = 0) (h : Filling cfg 0 start)
    (hempty : ∀ f < cfg.batchSize, ∀ i, start.schedulesPre f i = none) :
    Pipelined cfg sort slots start where
  inBounds := by
    intro T hfault
    have hpost : Post (calls cfg sort slots start T) _ _ := calls_post hB1 hB htime h T
    rw [hfault] at hpost
    exact nomatch hpost
  firstBatch := by
    intro f hf st hrun i
    rw [← Nat.zero_add f, ← Nat.zero_mul cfg.batchSize] at hrun
    obtain ⟨first, hfirst, hrow⟩ := inMatch_of_calls hB1 hB htime h 0 hf hrun
    rw [Nat.zero_mul] at hfirst
    cases hfirst
    rw [hrow]
    exact hempty f hf i
  nextBatch := by
    intro k f hf before filled st hbefore hround hrun
    obtain ⟨first, hfirst, hrow⟩ := inMatch_of_calls hB1 hB htime h (k + 1) hf hrun
    -- the batch before has been filled in its last slot, and swapped
    obtain ⟨before', filled', hbefore', hround', hpre, -⟩ :=
      swapped_of_calls hB1 hB htime h k hfirst
    cases hbefore.symm.trans hbefore'
    cases hround.symm.trans hround'
    rw [hrow, hpre]
  swapped := by
    intro k st hrun
    obtain ⟨-, -, -, -, -, hsize, hrows⟩ := swapped_of_calls hB1 hB htime h k hrun
    exact ⟨hsize, hrows⟩

end

/-! ### The start of a run -/

/-- With `schedules_pre` given its rows, the state after the constructor or `reset` starts a
    batch. -/
theorem filling_primed {start : State n m}
    (hstart : start = State.initial cfg ∨ ∃ st, start = reset cfg st) :
    Filling cfg 0 (start.primed cfg) := by
  have hzero : ∀ i o, 0 ≤ (State.initial cfg : State n m).inputQueues i o := fun _ _ => le_refl 0
  rcases hstart with rfl | ⟨st, rfl⟩
  · refine ⟨⟨Booking.consistent_empty _ _ _, hzero⟩, rfl, rfl, fun f hf => ?_⟩
    exact absurd hf (Nat.not_lt_zero f)
  · refine ⟨⟨Booking.consistent_empty _ _ _, hzero⟩, rfl, rfl, fun f hf => ?_⟩
    exact absurd hf (Nat.not_lt_zero f)

/-- A call with an empty `schedules_pre` reads past its end. -/
theorem schedule_eq_error (draws : Draws n m) (sw : IQSwitch n m) {st : State n m}
    (h : st.schedulesPreSize = 0) : schedule cfg sort draws sw st = .error .indexOutOfRange := by
  unfold schedule slotRound dispatchPre Foundation.require
  rw [h, if_neg (Nat.not_lt_zero _)]
  rfl

/-- No call of a run that starts with an empty `schedules_pre` returns. -/
theorem calls_eq_error {slots : ℕ → Draws n m × IQSwitch n m} {start : State n m}
    (h : start.schedulesPreSize = 0) (T : ℕ) :
    calls cfg sort slots start (T + 1) = .error .indexOutOfRange :=
  steps_eq_error (schedule_eq_error _ _ h) T

/-- The constructor and `reset` leave `schedules_pre` without rows, so the first call of a run reads
    past its end and the run is no pipeline.  That is all that is missing: with `batchSize` empty
    rows in it, every run from there would be one. -/
theorem never_pipelined (hB1 : 1 ≤ cfg.batchSize) (hB : cfg.batchSize ≤ bitmapWidth)
    (sort : DescSort (Fin n)) (slots : ℕ → Draws n m × IQSwitch n m) {start : State n m}
    (hstart : start = State.initial cfg ∨ ∃ st, start = reset cfg st) :
    (∀ T, calls cfg sort slots start (T + 1) = .error .indexOutOfRange) ∧
      ¬ Pipelined cfg sort slots start ∧ Pipelined cfg sort slots (start.primed cfg) := by
  have hempty : start.schedulesPreSize = 0 ∧ start.cfRelTime = 0 := by
    rcases hstart with rfl | ⟨st, rfl⟩ <;> exact ⟨rfl, rfl⟩
  refine ⟨calls_eq_error hempty.1, fun h => ?_, ?_⟩
  · exact h.inBounds 1 (calls_eq_error hempty.1 0)
  · exact pipelined_of_filling hB1 hB hempty.2 (filling_primed hstart) (fun _ _ _ => rfl)

/-- A switch with one input, one output and batches of one slot, in which no packet arrives. -/
theorem never_pipelined_one :
    calls (n := 1) (m := 1) ⟨1, 1, false⟩ .insertion
        (fun _ => (⟨⟨[0], by decide⟩, fun _ => none⟩, .simplified ⟨fun _ _ => 0, [], []⟩))
        (State.initial ⟨1, 1, false⟩) 1 = .error .indexOutOfRange ∧
      Pipelined (n := 1) (m := 1) ⟨1, 1, false⟩ .insertion
        (fun _ => (⟨⟨[0], by decide⟩, fun _ => none⟩, .simplified ⟨fun _ _ => 0, [], []⟩))
        ((State.initial ⟨1, 1, false⟩).primed ⟨1, 1, false⟩) := by
  obtain ⟨hfault, -, hprimed⟩ := never_pipelined (n := 1) (m := 1)
    (show 1 ≤ (⟨1, 1, false⟩ : Config).batchSize from le_refl 1) (by decide) .insertion
    (fun _ => (⟨⟨[0], by decide⟩, fun _ => none⟩, .simplified ⟨fun _ _ => 0, [], []⟩)) (.inl rfl)
  exact ⟨hfault 0, hprimed⟩

/-- Its first call runs past the end of `schedules_pre`. -/
theorem not_pipelined_one :
    ¬ Pipelined (n := 1) (m := 1) ⟨1, 1, false⟩ .insertion
      (fun _ => (⟨⟨[0], by decide⟩, fun _ => none⟩, .simplified ⟨fun _ _ => 0, [], []⟩))
      (State.initial ⟨1, 1, false⟩) :=
  fun h => h.inBounds 1 rfl

end Fixed

end SbQps

end SschedSimulator
