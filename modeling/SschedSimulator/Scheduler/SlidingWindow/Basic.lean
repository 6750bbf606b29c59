import SschedSimulator.Scheduler.Booking
import SschedSimulator.Scheduler.CircularGenerator
import SschedSimulator.Scheduler.QpSampler
import SschedSimulator.Switch.Switching

namespace SschedSimulator

open Foundation

/-!
# `sliding_window_qps.cpp` — the scheduler `Sliding_Window_QPS`

Each slot runs one round of queue-proportional sampling in which an output grants several
proposals, each at the first frame of the window that is free for both ports; the row of the
slot is then dispatched (with batching: before the round) and cleared.

* `dispatchSchedule`, `qps`, `schedule` — the operations of the source;
* `qps_post` and `dispatchSchedule_post` — what they do, given that the tables are consistent;
* `schedule_post` — one call of `schedule()`.
-/

namespace SlidingWindowQps

variable {n m : ℕ}

/-- The constructor arguments that the scheduling logic reads. -/
structure Config where
  batchSize : ℕ
  maxAccepts : ℤ
  batching : Bool
  debugMode : Bool

/-- The members of `Sliding_Window_QPS` that change; `cfRelTime` is the number of rounds. -/
structure State (n m : ℕ) extends Booking n m where
  inputQueues : Fin n → QueueSampler m
  cfRelTime : ℕ
  inMatch : Fin n → Option (Fin m)

/-- The value of an `int` when it is compared with a `size_t`. -/
def toSizeT (x : ℤ) : ℕ := (x % 2 ^ 64).toNat

/-- The constructor. -/
def State.initial (cfg : Config) : State n m where
  toBooking := Booking.empty cfg.batchSize
  inputQueues := fun _ _ => 0
  cfRelTime := 0
  inMatch := fun _ => none

/-- `reset`: everything but `_in_match`. -/
def reset (cfg : Config) (st : State n m) : State n m :=
  { State.initial cfg with inMatch := st.inMatch }

/-- `handlePacketArrivals`. -/
def handlePacketArrivals (sw : IQSwitch n m) (st : State n m) : State n m :=
  { st with inputQueues := addArrivals st.inputQueues sw.getArrivals }

/-- `handlePacketDepartures`. -/
def handlePacketDepartures (departures : List (Fin n × Fin m)) (st : State n m) :
    Except Fault (State n m) := do
  let queues ← removeDepartures st.inputQueues departures
  .ok { st with inputQueues := queues }

/-- `dispatchSchedule`. -/
def dispatchSchedule (timeSlot : ℕ) (st : State n m) : Except Fault (State n m) := do
  let b ← st.toBooking.dispatchRow timeSlot
  .ok { st with toBooking := b, inMatch := st.schedules timeSlot }

/-- An output keeps up to `maxAccepts` proposals. -/
def keep (cfg : Config) (i : Fin n) (_ : Fin m) (ins : List (Fin n)) : List (Fin n) :=
  if ins.length < toSizeT cfg.maxAccepts then ins ++ [i] else ins

/-- `getQueueLengthForInput`. -/
def getQueueLengthForInput (st : State n m) (i : Fin n) : ℤ := (st.inputQueues i).getQueueLength

/-- Step 2 of `qps`: each output sorts its proposals by VOQ length and tries to grant them. -/
def accept (cfg : Config) (sort : DescSort (Fin n)) (timeSlot : ℕ)
    (outAccepts : Fin m → List (Fin n)) (st : State n m) : Except Fault (Accepting n m) :=
  (List.finRange m).foldlM
    (fun acc out => acc.acceptLoop (fun available => available != 0) cfg.debugMode
      (CircularGenerator.frames timeSlot cfg.batchSize cfg.batching) out
      (sort.run (fun i => st.inputQueues i out) (outAccepts out)))
    { toBooking := st.toBooking, virtualDepartures := [] }

/-- `qps`. -/
def qps (cfg : Config) (sort : DescSort (Fin n)) (draws : Draws n m) (sw : IQSwitch n m)
    (timeSlot : ℕ) (st : State n m) : Except Fault (State n m) := do
  let st := handlePacketArrivals sw st
  let outAccepts ← propose (getQueueLengthForInput st)
    (fun i out => (st.inputQueues i).getPacketNumber out) draws.sample (keep cfg)
    draws.shuffle.val (fun _ => [])
  let acc ← accept cfg sort timeSlot outAccepts st
  handlePacketDepartures acc.virtualDepartures { st with toBooking := acc.toBooking }

/-- The dispatch that `schedule` makes before the round with batching and after it without. -/
def dispatchIf (now : Bool) (timeSlot : ℕ) (st : State n m) : Except Fault (State n m) :=
  if now then dispatchSchedule timeSlot st else .ok st

/-- `schedule`. -/
def schedule (cfg : Config) (sort : DescSort (Fin n)) (draws : Draws n m) (sw : IQSwitch n m)
    (st : State n m) : Except Fault (State n m) := do
  let timeSlot := st.cfRelTime % cfg.batchSize
  -- with batching the frame freed by the dispatch can be granted again in this round
  let st₀ ← dispatchIf cfg.batching timeSlot st
  let st₁ ← qps cfg sort draws sw timeSlot st₀
  let st₂ ← dispatchIf (!cfg.batching) timeSlot st₁
  .ok { st₂ with cfRelTime := st₂.cfRelTime + 1 }

/-- The scheduler as a switch drives it. -/
abbrev model (n m : ℕ) (cfg : Config) (sort : DescSort (Fin n)) : SchedulerModel n m where
  State := State n m
  Input := Draws n m
  schedule := schedule cfg sort
  inMatch := State.inMatch

/-! ### The round -/

/-- The tables and the queues as the operations leave them between calls. -/
structure Sound (cfg : Config) (st : State n m) : Prop where
  tables : st.toBooking.Consistent cfg.batchSize cfg.batchSize cfg.batchSize
  nonneg : ∀ i o, 0 ≤ st.inputQueues i o

/-- The arrivals of the slot are in, and every input samples an output for which it has a
    packet. -/
def GoodDraws (draws : Draws n m) (sw : IQSwitch n m) (st : State n m) : Prop :=
  GoodSample (getQueueLengthForInput (handlePacketArrivals sw st))
    (handlePacketArrivals sw st).inputQueues draws.sample

/-- What a round does: it books the pairs `gs` at frames of its window and takes their packets
    out of the queues. -/
structure Round (cfg : Config) (timeSlot : ℕ) (sw : IQSwitch n m) (st st' : State n m)
    (gs : List (Fin n × Fin m)) : Prop where
  sound : Sound cfg st'
  extended : Extends (Finset.range cfg.batchSize)
    (fun f => f < cfg.batchSize ∧ (cfg.batching = true → f ≤ timeSlot))
    st.schedules st'.schedules gs
  queues : ∀ i o, st'.inputQueues i o
    = st.inputQueues i o + sw.getArrivals.count (i, o) - gs.count (i, o)
  cfRelTime : st'.cfRelTime = st.cfRelTime
  inMatch : st'.inMatch = st.inMatch

/-- An output keeps some of its proposers, in their order. -/
theorem foldl_keep_sublist (cfg : Config) (o : Fin m) (ins kept : List (Fin n)) :
    ∃ l, l.Sublist ins ∧ ins.foldl (fun k i => keep cfg i o k) kept = kept ++ l := by
  induction ins generalizing kept with
  | nil => exact ⟨[], List.Sublist.refl _, by simp⟩
  | cons i rest ih =>
    rw [List.foldl_cons]
    by_cases hroom : kept.length < toSizeT cfg.maxAccepts
    · obtain ⟨l, hl, heq⟩ := ih (kept ++ [i])
      exact ⟨i :: l, hl.cons_cons i, by rw [keep, if_pos hroom, heq]; simp⟩
    · obtain ⟨l, hl, heq⟩ := ih kept
      exact ⟨l, hl.cons i, by rw [keep, if_neg hroom, heq]⟩

theorem handlePacketArrivals_inputQueues (sw : IQSwitch n m) (st : State n m) (i : Fin n)
    (o : Fin m) : (handlePacketArrivals sw st).inputQueues i o
      = st.inputQueues i o + sw.getArrivals.count (i, o) :=
  addArrivals_apply _ _ i o

/-- Departures of pairs that have as many packets change the queues only. -/
theorem handlePacketDepartures_eq_ok {departures : List (Fin n × Fin m)} (st : State n m)
    (h : ∀ i o, (departures.count (i, o) : ℤ) ≤ st.inputQueues i o) :
    ∃ queues, handlePacketDepartures departures st = .ok { st with inputQueues := queues } ∧
      ∀ i o, queues i o = st.inputQueues i o - departures.count (i, o) := by
  obtain ⟨queues, hrun, hqueues⟩ := removeDepartures_eq_ok h
  exact ⟨queues, by rw [handlePacketDepartures, hrun, ok_bind], hqueues⟩

/-- Arrivals keep the state sound. -/
theorem Sound.arrivals {cfg : Config} {st : State n m} (h : Sound cfg st) (sw : IQSwitch n m) :
    Sound cfg (handlePacketArrivals sw st) := by
  refine ⟨h.tables, fun i o => ?_⟩
  rw [handlePacketArrivals_inputQueues]
  have := h.nonneg i o
  omega

/-- So do the departures of distinct pairs that have a packet. -/
theorem Sound.departures {cfg : Config} {st : State n m} (h : Sound cfg st)
    {gs : List (Fin n × Fin m)} (hnodup : gs.Nodup)
    (hpacket : ∀ p ∈ gs, 0 < st.inputQueues p.1 p.2) :
    ∃ queues, handlePacketDepartures gs st = .ok { st with inputQueues := queues } ∧
      Sound cfg { st with inputQueues := queues } ∧
      ∀ i o, queues i o = st.inputQueues i o - gs.count (i, o) := by
  have hle := count_le_of_nodup hnodup hpacket h.nonneg
  obtain ⟨queues, hrun, hqueues⟩ := handlePacketDepartures_eq_ok st hle
  refine ⟨queues, hrun, ⟨h.tables, fun i o => ?_⟩, hqueues⟩
  exact (sub_nonneg.mpr (hle i o)).trans_eq (hqueues i o).symm

/-- A round keeps the state sound; only its sample can stop it. -/
theorem qps_post {cfg : Config} (hB : cfg.batchSize ≤ bitmapWidth) (sort : DescSort (Fin n))
    (draws : Draws n m) (sw : IQSwitch n m) {timeSlot : ℕ} (ht : timeSlot < cfg.batchSize)
    {st : State n m} (h : Sound cfg st) :
    Post (qps cfg sort draws sw timeSlot st)
      (fun e => e = .badSample ∧ ¬ GoodDraws draws sw st)
      (fun st' => ∃ gs, Round cfg timeSlot sw st st' gs) := by
  unfold qps
  refine (propose_post (keep cfg) draws.shuffle.val (fun _ => [])).bind ?_
  rintro outAccepts ⟨hkept, hpos⟩
  -- What an output kept are distinct inputs with a packet for it.
  have hsub : ∀ o, (outAccepts o).Sublist (proposers
      (getQueueLengthForInput (handlePacketArrivals sw st)) draws.sample draws.shuffle.val o) := by
    intro o
    obtain ⟨l, hl, heq⟩ := foldl_keep_sublist cfg o (proposers
      (getQueueLengthForInput (handlePacketArrivals sw st)) draws.sample draws.shuffle.val o) []
    rw [hkept o, heq]
    exact hl
  have hframes : ∀ f ∈ CircularGenerator.frames timeSlot cfg.batchSize cfg.batching,
      f < cfg.batchSize := fun f hf => ((CircularGenerator.mem_frames ht).mp hf).1
  refine ((Accepting.acceptAll_post (Booking.kept_consistent hB
    (fun f hf => ⟨hframes f hf, hframes f hf⟩)) (le_refl cfg.batchSize)
    (fun available => available != 0) cfg.debugMode
    (fun out => sort.run (fun i => (handlePacketArrivals sw st).inputQueues i out)
      (outAccepts out)) (List.finRange m)
    { toBooking := st.toBooking, virtualDepartures := [] } h.tables).mono
    (fun _ he => he.elim) (fun _ hacc => hacc)).bind ?_
  rintro acc ⟨gs, hgs, hcons, hgranted⟩
  have hdep : acc.virtualDepartures = gs := hgranted.departures
  -- The pairs granted are distinct, and each of them has a packet.
  have hnodup : gs.Nodup := hgs.nodup (nodup_proposalPairs (List.nodup_finRange m)
    (fun o => sort.nodup ((nodup_proposers draws.shuffle.nodup o).sublist (hsub o))))
  have hpacket : ∀ p ∈ gs, 0 < (handlePacketArrivals sw st).inputQueues p.1 p.2 := by
    rintro ⟨i, o⟩ hp
    obtain ⟨-, hi⟩ := mem_proposalPairs.mp (hgs.subset hp)
    exact hpos o i ((hsub o).subset (sort.mem.mp hi))
  have hbooked : Sound cfg { handlePacketArrivals sw st with toBooking := acc.toBooking } :=
    ⟨hcons, (h.arrivals sw).nonneg⟩
  obtain ⟨queues, hrun, hsound, hqueues⟩ := hbooked.departures hnodup hpacket
  show Post (handlePacketDepartures acc.virtualDepartures
    { handlePacketArrivals sw st with toBooking := acc.toBooking }) _ _
  rw [hdep, hrun]
  refine ⟨gs, hsound, ?_, fun i o => ?_, rfl, rfl⟩
  · exact hgranted.extended.mono (fun f hf => (CircularGenerator.mem_frames ht).mp hf)
  · exact (hqueues i o).trans (by rw [handlePacketArrivals_inputQueues])

/-- A dispatch keeps the state sound, copies the row of the slot and clears it. -/
theorem dispatchSchedule_eq_ok {cfg : Config} (hB : cfg.batchSize ≤ bitmapWidth) {timeSlot : ℕ}
    (ht : timeSlot < cfg.batchSize) {st : State n m} (h : Sound cfg st) :
    ∃ st', dispatchSchedule timeSlot st = .ok st' ∧ Sound cfg st' ∧
      st'.schedules = Function.update st.schedules timeSlot (fun _ => none) ∧
      st'.inMatch = st.schedules timeSlot ∧ st'.inputQueues = st.inputQueues ∧
      st'.cfRelTime = st.cfRelTime := by
  obtain ⟨b, hrun, hcons, hsched⟩ := Booking.dispatchRow_eq_ok h.tables hB ht
  exact ⟨{ st with toBooking := b, inMatch := st.schedules timeSlot },
    by rw [dispatchSchedule, hrun, ok_bind], ⟨hcons, h.nonneg⟩, hsched, rfl, rfl, rfl⟩

/-- The dispatch of a slot, if it is made now. -/
theorem dispatchIf_eq_ok {cfg : Config} (hB : cfg.batchSize ≤ bitmapWidth) (now : Bool)
    {timeSlot : ℕ} (ht : timeSlot < cfg.batchSize) {st : State n m} (h : Sound cfg st) :
    ∃ st', dispatchIf now timeSlot st = .ok st' ∧ Sound cfg st' ∧
      st'.schedules = (if now then Function.update st.schedules timeSlot (fun _ => none)
        else st.schedules) ∧
      st'.inMatch = (if now then st.schedules timeSlot else st.inMatch) ∧
      st'.inputQueues = st.inputQueues ∧ st'.cfRelTime = st.cfRelTime := by
  cases now with
  | true => exact dispatchSchedule_eq_ok hB ht h
  | false => exact ⟨st, rfl, h, rfl, rfl, rfl, rfl⟩

/-! ### One call -/

/-- A call that returns, with the states `st₀` and `st₁` around its round: the round books the
    pairs `gs`, and the row of the slot is copied out and cleared before the round with
    batching, after it without. -/
structure Call (cfg : Config) (sort : DescSort (Fin n)) (draws : Draws n m) (sw : IQSwitch n m)
    (st st₀ st₁ st' : State n m) (gs : List (Fin n × Fin m)) : Prop where
  entered : dispatchIf cfg.batching (st.cfRelTime % cfg.batchSize) st = .ok st₀
  ran : qps cfg sort draws sw (st.cfRelTime % cfg.batchSize) st₀ = .ok st₁
  booked : Sound cfg st₁
  sound : Sound cfg st'
  cfRelTime : st'.cfRelTime = st.cfRelTime + 1
  start : st₀.schedules = if cfg.batching
    then Function.update st.schedules (st.cfRelTime % cfg.batchSize) (fun _ => none)
    else st.schedules
  round : Extends (Finset.range cfg.batchSize)
    (fun f => f < cfg.batchSize ∧ (cfg.batching = true → f ≤ st.cfRelTime % cfg.batchSize))
    st₀.schedules st₁.schedules gs
  inMatch : st'.inMatch = (if cfg.batching then st.schedules else st₁.schedules)
    (st.cfRelTime % cfg.batchSize)
  matching : IsMatching st'.inMatch
  finish : st'.schedules = if cfg.batching then st₁.schedules
    else Function.update st₁.schedules (st.cfRelTime % cfg.batchSize) (fun _ => none)
  queues : ∀ i o, st'.inputQueues i o
    = st.inputQueues i o + sw.getArrivals.count (i, o) - gs.count (i, o)

/-- One call of `schedule()` on a sound state. -/
theorem schedule_post {cfg : Config} (hB1 : 1 ≤ cfg.batchSize) (hB : cfg.batchSize ≤ bitmapWidth)
    (sort : DescSort (Fin n)) (draws : Draws n m) (sw : IQSwitch n m) {st : State n m}
    (h : Sound cfg st) :
    Post (schedule cfg sort draws sw st)
      (fun e => e = .badSample ∧ ¬ GoodDraws draws sw st)
      (fun st' => ∃ st₀ st₁ gs, Call cfg sort draws sw st st₀ st₁ st' gs) := by
  have ht : st.cfRelTime % cfg.batchSize < cfg.batchSize := Nat.mod_lt _ (by omega)
  obtain ⟨st₀, hdisp₀, hsound₀, hsched₀, hmatch₀, hq₀, htime₀⟩ :=
    dispatchIf_eq_ok hB cfg.batching ht h
  -- The early dispatch does not change the queues, so the same samples are good.
  have hgood : GoodDraws draws sw st₀ ↔ GoodDraws draws sw st := by
    simp only [GoodDraws, handlePacketArrivals, hq₀]
    rfl
  unfold schedule
  simp only [hdisp₀, ok_bind]
  refine ((qps_post hB sort draws sw ht hsound₀).mono
    (fun e he => ⟨he.1, fun hg => he.2 (hgood.mpr hg)⟩) (fun _ hst₁ => hst₁)).and_eq.bind ?_
  rintro st₁ ⟨⟨gs, hround⟩, hqps⟩
  obtain ⟨st₂, hdisp₂, hsound₂, hsched₂, hmatch₂, hq₂, htime₂⟩ :=
    dispatchIf_eq_ok hB (!cfg.batching) ht hround.sound
  have hdone : st₂.inMatch = (if cfg.batching then st.schedules else st₁.schedules)
      (st.cfRelTime % cfg.batchSize) := by
    rw [hmatch₂, hround.inMatch, hmatch₀]
    cases cfg.batching <;> rfl
  simp only [hdisp₂, ok_bind]
  refine ⟨st₀, st₁, gs, ?_⟩
  refine
    { entered := hdisp₀
      ran := hqps
      booked := hround.sound
      sound := ⟨hsound₂.tables, hsound₂.nonneg⟩
      cfRelTime := ?_
      start := hsched₀
      round := hround.extended
      inMatch := hdone
      matching := ?_
      finish := ?_
      queues := ?_ }
  · show st₂.cfRelTime + 1 = _
    rw [htime₂, hround.cfRelTime, htime₀]
  · show IsMatching st₂.inMatch
    rw [hdone]
    split
    · exact h.tables.matching _ ht
    · exact hround.sound.tables.matching _ ht
  · show st₂.schedules = _
    rw [hsched₂]
    cases cfg.batching <;> rfl
  · intro i o
    show st₂.inputQueues i o = _
    rw [hq₂, hround.queues, hq₀]

/-- A reservation outside the row of the slot survives the call. -/
theorem Call.keeps {cfg : Config} {sort : DescSort (Fin n)} {draws : Draws n m}
    {sw : IQSwitch n m} {st st₀ st₁ st' : State n m} {gs : List (Fin n × Fin m)}
    (h : Call cfg sort draws sw st st₀ st₁ st' gs) {f : ℕ}
    (hf : f ≠ st.cfRelTime % cfg.batchSize) {i : Fin n} {o : Fin m}
    (hcell : st.schedules f i = some o) :
    st₁.schedules f i = some o ∧ st'.schedules f i = some o := by
  have hstart : st₀.schedules f i = some o := by
    rw [h.start]
    split
    · rw [Function.update_of_ne hf, hcell]
    · exact hcell
  have hround := h.round.kept hstart
  refine ⟨hround, ?_⟩
  rw [h.finish]
  split
  · exact hround
  · rw [Function.update_of_ne hf, hround]

end SlidingWindowQps

end SschedSimulator
