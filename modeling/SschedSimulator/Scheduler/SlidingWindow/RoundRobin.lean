import SschedSimulator.Scheduler.RrSampler
import SschedSimulator.Scheduler.SlidingWindow.Invariant

namespace SschedSimulator

open Foundation

/-!
# `sliding_window_rr.cpp` — the scheduler `Sliding_Window_RR`

A round is that of `Sliding_Window_QPS`, with two differences: an input samples its outputs in round
robin, and an output sorts its proposals in circular order from the input it preferred last.

* `propose_post` — every proposal kept is of the output at the back of the deque of its input;
* `qps_post` — so the departures of a round are at the back when they are removed;
* `inStep_of_run` — the deques and the packet counts are in step in every run.
-/

namespace SlidingWindowRr

variable {n m : ℕ}

/-- The constructor arguments that the scheduling logic reads. -/
abbrev Config := SlidingWindowQps.Config

/-- The members of `Sliding_Window_RR` that change; `previousLargestInput` has an element for each
    input. -/
structure State (n m : ℕ) extends Booking n m where
  inputQueues : Fin n → RoundRobinSampler m
  previousLargestInput : Fin n → ℕ
  cfRelTime : ℕ
  inMatch : Fin n → Option (Fin m)

/-- The constructor. -/
def State.initial (cfg : Config) : State n m where
  toBooking := Booking.empty cfg.batchSize
  inputQueues := fun _ => .empty
  previousLargestInput := fun _ => 0
  cfRelTime := 0
  inMatch := fun _ => none

/-- `reset`: everything but `previousLargestInput` and `_in_match`. -/
def reset (cfg : Config) (st : State n m) : State n m :=
  { State.initial cfg with
    previousLargestInput := st.previousLargestInput
    inMatch := st.inMatch }

/-- `handlePacketArrivals`. -/
def handlePacketArrivals (sw : IQSwitch n m) (st : State n m) : State n m :=
  { st with inputQueues := RoundRobinSampler.addArrivals st.inputQueues sw.getArrivals }

/-- `handlePacketDepartures`. -/
def handlePacketDepartures (departures : List (Fin n × Fin m)) (st : State n m) :
    Except Fault (State n m) := do
  let queues ← RoundRobinSampler.removeDepartures st.inputQueues departures
  .ok { st with inputQueues := queues }

/-- `dispatchSchedule`. -/
def dispatchSchedule (timeSlot : ℕ) (st : State n m) : Except Fault (State n m) := do
  let b ← st.toBooking.dispatchRow timeSlot
  .ok { st with toBooking := b, inMatch := st.schedules timeSlot }

/-- The state of step 1 of `qps`: the samplers, and `out_accepts`. -/
structure Proposing (n m : ℕ) where
  inputQueues : Fin n → RoundRobinSampler m
  outAccepts : Fin m → List (Fin n)

/-- One input of step 1. -/
def proposeInput (cfg : Config) (acc : Proposing n m) (i : Fin n) :
    Except Fault (Proposing n m) :=
  if (acc.inputQueues i).getQueueLength = 0 then .ok acc
  else
    match (acc.inputQueues i).sample with
    | (none, _) => .error .badSample
    | (some out, q) => do
      require (0 < q.getPacketNumber out) .badSample
      .ok
        { inputQueues := Function.update acc.inputQueues i q
          outAccepts := Function.update acc.outAccepts out
            (SlidingWindowQps.keep cfg i out (acc.outAccepts out)) }

/-- Step 1 of `qps`. -/
def propose (cfg : Config) (shuffle : Shuffle n) (queues : Fin n → RoundRobinSampler m) :
    Except Fault (Proposing n m) :=
  shuffle.val.foldlM (proposeInput cfg) { inputQueues := queues, outAccepts := fun _ => [] }

/-- The place of an input in circular order from `previous` on. -/
def rank (n previous : ℕ) (i : Fin n) : ℕ := (n - previous + i) % n

/-- The sort of step 2; different inputs have different ranks, so that it has one outcome. -/
def sortProposals (previous : ℕ) (ins : List (Fin n)) : List (Fin n) :=
  ins.insertionSort (fun in1 in2 => rank n previous in1 ≤ rank n previous in2)

/-- The state of step 2 of `qps`. -/
structure RoundRobinAccepting (n m : ℕ) extends Accepting n m where
  previousLargestInput : Fin n → ℕ

/-- One output of step 2. -/
def acceptOutput (cfg : Config) (timeSlot : ℕ) (outAccepts : Fin m → List (Fin n))
    (acc : RoundRobinAccepting n m) (out : Fin m) : Except Fault (RoundRobinAccepting n m) :=
  if outAccepts out = [] then .ok acc
  else if h : (out : ℕ) < n then do
    let ins := sortProposals (acc.previousLargestInput ⟨out, h⟩) (outAccepts out)
    let acc' ← acc.toAccepting.acceptLoop (fun available => available != 0) cfg.debugMode
      (CircularGenerator.frames timeSlot cfg.batchSize cfg.batching) out ins
    .ok
      { toAccepting := acc'
        previousLargestInput := Function.update acc.previousLargestInput ⟨out, h⟩
          ((ins.map Fin.val).headD 0) }
  else .error .indexOutOfRange

/-- Step 2 of `qps`. -/
def accept (cfg : Config) (timeSlot : ℕ) (outAccepts : Fin m → List (Fin n)) (st : State n m) :
    Except Fault (RoundRobinAccepting n m) :=
  (List.finRange m).foldlM (acceptOutput cfg timeSlot outAccepts)
    { toBooking := st.toBooking
      virtualDepartures := []
      previousLargestInput := st.previousLargestInput }

/-- `qps`. -/
def qps (cfg : Config) (shuffle : Shuffle n) (sw : IQSwitch n m) (timeSlot : ℕ)
    (st : State n m) : Except Fault (State n m) := do
  let st := handlePacketArrivals sw st
  let proposed ← propose cfg shuffle st.inputQueues
  let acc ← accept cfg timeSlot proposed.outAccepts st
  handlePacketDepartures acc.virtualDepartures
    { st with
      toBooking := acc.toBooking
      inputQueues := proposed.inputQueues
      previousLargestInput := acc.previousLargestInput }

/-- The dispatch that `schedule` makes before the round with batching and after it without. -/
def dispatchIf (now : Bool) (timeSlot : ℕ) (st : State n m) : Except Fault (State n m) :=
  if now then dispatchSchedule timeSlot st else .ok st

/-- `schedule`. -/
def schedule (cfg : Config) (shuffle : Shuffle n) (sw : IQSwitch n m) (st : State n m) :
    Except Fault (State n m) := do
  let timeSlot := st.cfRelTime % cfg.batchSize
  let st₀ ← dispatchIf cfg.batching timeSlot st
  let st₁ ← qps cfg shuffle sw timeSlot st₀
  let st₂ ← dispatchIf (!cfg.batching) timeSlot st₁
  .ok { st₂ with cfRelTime := st₂.cfRelTime + 1 }

/-- The scheduler as a switch drives it. -/
abbrev model (n m : ℕ) (cfg : Config) : SchedulerModel n m where
  State := State n m
  Input := Shuffle n
  schedule := schedule cfg
  inMatch := State.inMatch

/-! ### Proposing -/

/-- Step 1 in the middle: the inputs of `rest` are still to propose, and `queues` are the samplers
    before the round. -/
structure Proposed (queues : Fin n → RoundRobinSampler m) (rest : List (Fin n))
    (acc : Proposing n m) : Prop where
  nodup : rest.Nodup
  inStep : ∀ i, (acc.inputQueues i).InStep
  queue : ∀ i, (acc.inputQueues i).queue = (queues i).queue
  back : ∀ o, ∀ i ∈ acc.outAccepts o, (acc.inputQueues i).rrqueue.getLast? = some o
  distinct : ∀ o, (acc.outAccepts o).Nodup
  fresh : ∀ o, ∀ i ∈ acc.outAccepts o, i ∉ rest

/-- An output keeps the new proposal behind the others, or drops it. -/
theorem keep_cases (cfg : Config) (i : Fin n) (out : Fin m) (ins : List (Fin n)) :
    SlidingWindowQps.keep cfg i out ins = ins ++ [i] ∨
      SlidingWindowQps.keep cfg i out ins = ins := by
  unfold SlidingWindowQps.keep
  split
  · exact .inl rfl
  · exact .inr rfl

/-- A proposal kept by some output is an old one, or the new one. -/
theorem mem_update_keep {cfg : Config} {outAccepts : Fin m → List (Fin n)} {i j : Fin n}
    {out o : Fin m}
    (hj : j ∈ Function.update outAccepts out
      (SlidingWindowQps.keep cfg i out (outAccepts out)) o) :
    j ∈ outAccepts o ∨ (j = i ∧ o = out) := by
  by_cases ho : o = out
  · rw [ho, Function.update_self] at hj
    rcases keep_cases cfg i out (outAccepts out) with hkeep | hkeep
    · rw [hkeep, List.mem_append, List.mem_singleton] at hj
      rw [ho]
      exact hj.imp_right (fun hji => ⟨hji, rfl⟩)
    · rw [hkeep] at hj
      rw [ho]
      exact .inl hj
  · rw [Function.update_of_ne ho] at hj
    exact .inl hj

/-- The proposals of an output stay distinct when the new one comes from an input that has made
    none. -/
theorem nodup_update_keep (cfg : Config) {outAccepts : Fin m → List (Fin n)} {i : Fin n}
    (out : Fin m) (hdistinct : ∀ o, (outAccepts o).Nodup)
    (hnew : ∀ o, ∀ j ∈ outAccepts o, j ≠ i) (o : Fin m) :
    (Function.update outAccepts out
      (SlidingWindowQps.keep cfg i out (outAccepts out)) o).Nodup := by
  by_cases ho : o = out
  · rw [ho, Function.update_self]
    rcases keep_cases cfg i out (outAccepts out) with hkeep | hkeep
    · rw [hkeep]
      refine (hdistinct out).append (List.nodup_singleton i) (fun j hj hji => ?_)
      exact hnew out j hj (List.mem_singleton.mp hji)
    · rw [hkeep]
      exact hdistinct out
  · rw [Function.update_of_ne ho]
    exact hdistinct o

/-- One input: it samples an output for which it has a packet and proposes to it. -/
theorem Proposed.step {cfg : Config} {queues : Fin n → RoundRobinSampler m} {i : Fin n}
    {rest : List (Fin n)} {acc : Proposing n m} (h : Proposed queues (i :: rest) acc) :
    Post (proposeInput cfg acc i) (fun _ => False) (Proposed queues rest) := by
  obtain ⟨hi, hrest⟩ := List.nodup_cons.mp h.nodup
  have hfresh : ∀ o, ∀ j ∈ acc.outAccepts o, j ≠ i ∧ j ∉ rest := by
    intro o j hj
    have hnot := h.fresh o j hj
    rwa [List.mem_cons, not_or] at hnot
  unfold proposeInput
  split
  · -- an input without packets proposes nothing
    exact ⟨hrest, h.inStep, h.queue, h.back, h.distinct, fun o j hj => (hfresh o j hj).2⟩
  · rename_i hlen
    obtain ⟨out, q, hsample, hpos, hback, hq, hqueue⟩ := (h.inStep i).sample_eq hlen
    have hpos' : 0 < q.getPacketNumber out := by
      rw [RoundRobinSampler.getPacketNumber, hqueue]
      exact hpos
    rw [hsample]
    dsimp only
    rw [require_pos hpos', ok_bind]
    refine
      { nodup := hrest
        inStep := fun j => ?_
        queue := fun j => ?_
        back := fun o j hj => ?_
        distinct := nodup_update_keep cfg out h.distinct (fun o j hj => (hfresh o j hj).1)
        fresh := fun o j hj => ?_ }
    · show (Function.update acc.inputQueues i q j).InStep
      by_cases hj : j = i
      · rw [hj, Function.update_self]
        exact hq
      · rw [Function.update_of_ne hj]
        exact h.inStep j
    · show (Function.update acc.inputQueues i q j).queue = _
      by_cases hj : j = i
      · rw [hj, Function.update_self, hqueue, h.queue]
      · rw [Function.update_of_ne hj, h.queue]
    · show (Function.update acc.inputQueues i q j).rrqueue.getLast? = _
      rcases mem_update_keep hj with hold | ⟨rfl, rfl⟩
      · rw [Function.update_of_ne (hfresh o j hold).1]
        exact h.back o j hold
      · rw [Function.update_self]
        exact hback
    · rcases mem_update_keep hj with hold | ⟨rfl, -⟩
      · exact (hfresh o j hold).2
      · exact hi

/-- Step 1 fails no assertion, and every proposal kept is of the output at the back of the deque. -/
theorem propose_post (cfg : Config) (shuffle : Shuffle n) {queues : Fin n → RoundRobinSampler m}
    (h : ∀ i, (queues i).InStep) :
    Post (propose cfg shuffle queues) (fun _ => False) (Proposed queues []) := by
  have hstart : Proposed queues shuffle.val
      { inputQueues := queues, outAccepts := fun _ : Fin m => [] } :=
    ⟨shuffle.nodup, h, fun _ => rfl, fun _ _ hi => absurd hi List.not_mem_nil,
      fun _ => List.nodup_nil, fun _ _ hi => absurd hi List.not_mem_nil⟩
  exact Post.foldlM_rest (Proposed queues) shuffle.val _ hstart (fun _ _ _ hacc => hacc.step)

/-! ### Accepting -/

/-- The only fault of step 2 is to look for the preferred input of an output beyond the last
    input. -/
abbrev BeyondInputs (n m : ℕ) (e : Fault) : Prop := e = .indexOutOfRange ∧ ¬ m ≤ n

variable {cfg : Config} {timeSlot : ℕ} {outAccepts : Fin m → List (Fin n)}

theorem perm_sortProposals (previous : ℕ) (ins : List (Fin n)) :
    (sortProposals previous ins).Perm ins := List.perm_insertionSort _ ins

/-- One output: some of its proposals are granted, each at most once. -/
theorem acceptOutput_post (hB : cfg.batchSize ≤ bitmapWidth) (ht : timeSlot < cfg.batchSize)
    (acc : RoundRobinAccepting n m) (out : Fin m)
    (h : acc.toBooking.Consistent cfg.batchSize cfg.batchSize cfg.batchSize) :
    Post (acceptOutput cfg timeSlot outAccepts acc out) (BeyondInputs n m) (fun acc' =>
      ∃ gs, gs.Subperm ((outAccepts out).map (·, out)) ∧
        acc'.toBooking.Consistent cfg.batchSize cfg.batchSize cfg.batchSize ∧
        Granted cfg.batchSize
          (· ∈ CircularGenerator.frames timeSlot cfg.batchSize cfg.batching)
          acc.schedules acc'.schedules acc.virtualDepartures acc'.virtualDepartures gs) := by
  have hframes : ∀ f ∈ CircularGenerator.frames timeSlot cfg.batchSize cfg.batching,
      f < cfg.batchSize := fun f hf => ((CircularGenerator.mem_frames ht).mp hf).1
  unfold acceptOutput
  split
  · exact ⟨[], List.nil_subperm, h, Granted.refl ..⟩
  · split
    · rename_i hout
      refine ((Accepting.acceptLoop_post (Booking.kept_consistent hB
        (fun f hf => ⟨hframes f hf, hframes f hf⟩)) (le_refl cfg.batchSize)
        (fun available => available != 0) cfg.debugMode out _ h).mono
        (fun _ he => he.elim) (fun _ hacc => hacc)).bind ?_
      rintro acc' ⟨gs, hsub, hcons, hgranted⟩
      refine ⟨gs, hsub.subperm.trans ?_, hcons, hgranted⟩
      exact ((perm_sortProposals _ (outAccepts out)).map (·, out)).subperm
    · rename_i hout
      exact ⟨rfl, fun hmn => hout (lt_of_lt_of_le out.isLt hmn)⟩

/-- All outputs in turn. -/
theorem acceptOutputs_post (hB : cfg.batchSize ≤ bitmapWidth) (ht : timeSlot < cfg.batchSize)
    (outs : List (Fin m)) (acc : RoundRobinAccepting n m)
    (h : acc.toBooking.Consistent cfg.batchSize cfg.batchSize cfg.batchSize) :
    Post (outs.foldlM (acceptOutput cfg timeSlot outAccepts) acc) (BeyondInputs n m) (fun acc' =>
      ∃ gs, gs.Subperm (proposalPairs outAccepts outs) ∧
        acc'.toBooking.Consistent cfg.batchSize cfg.batchSize cfg.batchSize ∧
        Granted cfg.batchSize
          (· ∈ CircularGenerator.frames timeSlot cfg.batchSize cfg.batching)
          acc.schedules acc'.schedules acc.virtualDepartures acc'.virtualDepartures gs) := by
  induction outs generalizing acc with
  | nil => exact ⟨[], List.nil_subperm, h, Granted.refl ..⟩
  | cons out rest ih =>
    rw [List.foldlM_cons]
    refine (acceptOutput_post hB ht acc out h).bind ?_
    rintro acc' ⟨gs, hsub, hcons, hgs⟩
    refine (ih acc' hcons).imp ?_
    rintro acc'' ⟨gs', hsub', hcons', hgs'⟩
    exact ⟨gs ++ gs', hsub.append hsub', hcons', hgs.trans hgs'⟩

/-- Step 2 books what it lets depart: outputs at the back of their deques, of different inputs. -/
theorem accept_post (hB : cfg.batchSize ≤ bitmapWidth) (ht : timeSlot < cfg.batchSize)
    {st : State n m} (h : st.toBooking.Consistent cfg.batchSize cfg.batchSize cfg.batchSize)
    {queues : Fin n → RoundRobinSampler m} {proposed : Proposing n m}
    (hproposed : Proposed queues [] proposed) :
    Post (accept cfg timeSlot proposed.outAccepts st) (BeyondInputs n m) (fun acc =>
      acc.toBooking.Consistent cfg.batchSize cfg.batchSize cfg.batchSize ∧
      Extends (Finset.range cfg.batchSize)
        (· ∈ CircularGenerator.frames timeSlot cfg.batchSize cfg.batching)
        st.schedules acc.schedules acc.virtualDepartures ∧
      (acc.virtualDepartures.map Prod.fst).Nodup ∧
      ∀ p ∈ acc.virtualDepartures,
        (proposed.inputQueues p.1).rrqueue.getLast? = some p.2) := by
  refine (acceptOutputs_post hB ht (List.finRange m) _ h).imp ?_
  rintro acc ⟨gs, hsub, hcons, hgranted⟩
  have hdep : acc.virtualDepartures = gs := hgranted.departures
  have hback : ∀ p ∈ gs, (proposed.inputQueues p.1).rrqueue.getLast? = some p.2 := by
    rintro ⟨i, o⟩ hp
    exact hproposed.back o i (mem_proposalPairs.mp (hsub.subset hp)).2
  have hnodup : gs.Nodup := by
    obtain ⟨l, hperm, hl⟩ := hsub
    exact hperm.nodup_iff.mp
      (hl.nodup (nodup_proposalPairs (List.nodup_finRange m) hproposed.distinct))
  -- An input has one output at the back of its deque.
  have hinputs : (gs.map Prod.fst).Nodup := by
    refine hnodup.map_on (fun p hp p' hp' heq => Prod.ext heq ?_)
    have hp₂ := hback p hp
    rw [heq, hback p' hp', Option.some.injEq] at hp₂
    exact hp₂.symm
  rw [hdep]
  exact ⟨hcons, hgranted.extended, hinputs, hback⟩

/-! ### The round -/

/-- The tables and the samplers as the operations leave them between calls. -/
structure Sound (cfg : Config) (st : State n m) : Prop where
  tables : st.toBooking.Consistent cfg.batchSize cfg.batchSize cfg.batchSize
  inStep : ∀ i, (st.inputQueues i).InStep

/-- The packets from `i` to `o` that the scheduler accounts for: those its sampler counts and
    those promised to pending reservations. -/
def held (cfg : Config) (st : State n m) (i : Fin n) (o : Fin m) : ℤ :=
  (st.inputQueues i).getPacketNumber o
    + pending (Finset.range cfg.batchSize) st.schedules i o

/-- What a round does: it adds the arrivals to what is held. -/
structure Round (cfg : Config) (sw : IQSwitch n m) (st st' : State n m) : Prop where
  sound : Sound cfg st'
  held : ∀ i o, held cfg st' i o = held cfg st i o + sw.getArrivals.count (i, o)
  cfRelTime : st'.cfRelTime = st.cfRelTime
  inMatch : st'.inMatch = st.inMatch

/-- A round keeps the state sound. -/
theorem qps_post (hB : cfg.batchSize ≤ bitmapWidth) (ht : timeSlot < cfg.batchSize)
    (shuffle : Shuffle n) (sw : IQSwitch n m) {st : State n m} (h : Sound cfg st) :
    Post (qps cfg shuffle sw timeSlot st) (BeyondInputs n m) (Round cfg sw st) := by
  have harr := RoundRobinSampler.addArrivals_queue st.inputQueues sw.getArrivals
  unfold qps
  refine ((propose_post cfg shuffle (RoundRobinSampler.addArrivals_inStep h.inStep
    sw.getArrivals)).mono (fun _ he => he.elim) (fun _ hp => hp)).bind (fun proposed hp => ?_)
  have htables : (handlePacketArrivals sw st).toBooking.Consistent cfg.batchSize cfg.batchSize
      cfg.batchSize := h.tables
  refine (accept_post hB ht htables hp).bind ?_
  rintro acc ⟨hcons, hextends, hinputs, hback⟩
  obtain ⟨queues, hrun, hinStep, hqueue, -⟩ :=
    RoundRobinSampler.removeDepartures_eq_ok hp.inStep hinputs hback
  simp only [handlePacketDepartures, hrun, ok_bind]
  refine ⟨⟨hcons, hinStep⟩, fun i o => ?_, rfl, rfl⟩
  have hpending := hextends.pending_eq i o
  have hleft := hqueue i o
  rw [hp.queue, harr] at hleft
  show (queues i).queue o + (pending (Finset.range cfg.batchSize) acc.schedules i o : ℤ)
    = (st.inputQueues i).queue o + (pending (Finset.range cfg.batchSize) st.schedules i o : ℤ)
      + sw.getArrivals.count (i, o)
  change pending (Finset.range cfg.batchSize) acc.schedules i o
    = pending (Finset.range cfg.batchSize) st.schedules i o
      + acc.virtualDepartures.count (i, o) at hpending
  omega

/-- A dispatch keeps the state sound, and takes what it copies out of what is held. -/
theorem dispatchSchedule_eq_ok (hB : cfg.batchSize ≤ bitmapWidth) (ht : timeSlot < cfg.batchSize)
    {st : State n m} (h : Sound cfg st) :
    ∃ st', dispatchSchedule timeSlot st = .ok st' ∧ Sound cfg st' ∧
      (∀ i o, held cfg st' i o + (if st'.inMatch i = some o then 1 else 0) = held cfg st i o) ∧
      IsMatching st'.inMatch ∧ st'.cfRelTime = st.cfRelTime := by
  obtain ⟨b, hrun, hcons, hsched⟩ := Booking.dispatchRow_eq_ok h.tables hB ht
  refine ⟨{ st with toBooking := b, inMatch := st.schedules timeSlot },
    by rw [dispatchSchedule, hrun, ok_bind], ⟨hcons, h.inStep⟩, fun i o => ?_,
    h.tables.matching timeSlot ht, rfl⟩
  have hclear := pending_clear (Finset.mem_range.mpr ht) st.schedules i o
  show (st.inputQueues i).getPacketNumber o
    + (pending (Finset.range cfg.batchSize) b.schedules i o : ℤ)
    + (if st.schedules timeSlot i = some o then 1 else 0) = held cfg st i o
  rw [hsched, add_assoc, hclear]
  rfl

/-- One call of `schedule()` on a sound state. -/
theorem schedule_post (hB1 : 1 ≤ cfg.batchSize) (hB : cfg.batchSize ≤ bitmapWidth)
    (shuffle : Shuffle n) (sw : IQSwitch n m) {st : State n m} (h : Sound cfg st) :
    Post (schedule cfg shuffle sw st) (BeyondInputs n m) (fun st' =>
      Sound cfg st' ∧ IsMatching st'.inMatch ∧
      ∀ i o, held cfg st' i o + (if st'.inMatch i = some o then 1 else 0)
        = held cfg st i o + sw.getArrivals.count (i, o)) := by
  have ht : st.cfRelTime % cfg.batchSize < cfg.batchSize := Nat.mod_lt _ (by omega)
  unfold schedule
  cases hb : cfg.batching with
  | true =>
    obtain ⟨st₀, hdisp, hsound, hheld, hmatch, -⟩ := dispatchSchedule_eq_ok hB ht h
    have hdisp' : dispatchIf true (st.cfRelTime % cfg.batchSize) st = .ok st₀ := hdisp
    simp only [hdisp', ok_bind]
    refine (qps_post hB ht shuffle sw hsound).bind (fun st₁ hround => ?_)
    refine ⟨⟨hround.sound.tables, hround.sound.inStep⟩, ?_, fun i o => ?_⟩
    · show IsMatching st₁.inMatch
      rw [hround.inMatch]
      exact hmatch
    · show held cfg st₁ i o + (if st₁.inMatch i = some o then 1 else 0) = _
      rw [hround.inMatch, hround.held, ← hheld i o]
      exact add_right_comm _ _ _
  | false =>
    refine (qps_post hB ht shuffle sw h).bind (fun st₁ hround => ?_)
    obtain ⟨st₂, hdisp, hsound, hheld, hmatch, -⟩ := dispatchSchedule_eq_ok hB ht hround.sound
    have hdisp' : dispatchIf (!false) (st.cfRelTime % cfg.batchSize) st₁ = .ok st₂ := hdisp
    rw [hdisp', ok_bind]
    exact ⟨⟨hsound.tables, hsound.inStep⟩, hmatch, fun i o => (hheld i o).trans (hround.held i o)⟩

/-! ### Runs -/

/-- The states between calls: from construction or a reset by calls that return. -/
inductive Reachable (cfg : Config) : State n m → Prop where
  | initial : Reachable cfg (State.initial cfg)
  | reset {st : State n m} : Reachable cfg st → Reachable cfg (reset cfg st)
  | schedule {st st' : State n m} (shuffle : Shuffle n) (sw : IQSwitch n m) :
      Reachable cfg st → schedule cfg shuffle sw st = .ok st' → Reachable cfg st'

theorem sound_initial (cfg : Config) : Sound cfg (State.initial cfg : State n m) where
  tables := Booking.consistent_empty _ _ _
  inStep := fun _ => RoundRobinSampler.inStep_empty

theorem sound_reset (cfg : Config) (st : State n m) : Sound cfg (reset cfg st) :=
  ⟨(sound_initial cfg).tables, (sound_initial cfg).inStep⟩

theorem sound_of_reachable (hB1 : 1 ≤ cfg.batchSize) (hB : cfg.batchSize ≤ bitmapWidth)
    {st : State n m} (h : Reachable cfg st) : Sound cfg st := by
  induction h with
  | initial => exact sound_initial cfg
  | reset _ _ => exact sound_reset cfg _
  | schedule shuffle sw _ hrun ih => exact ((schedule_post hB1 hB shuffle sw ih).of_ok hrun).1

/-- `schedule()` conserves packets. -/
theorem conserves (hB1 : 1 ≤ cfg.batchSize) (hB : cfg.batchSize ≤ bitmapWidth) :
    Conserves (model n m cfg) (fun _ _ _ => True) (Sound cfg) (held cfg)
      (fun _ _ _ => BeyondInputs n m) where
  post := by
    intro shuffle sw st hsound _
    refine (schedule_post hB1 hB shuffle sw hsound).imp ?_
    rintro st' ⟨hsound', hmatch, hheld⟩
    refine ⟨hsound', fun hne => absurd hmatch hne, fun i o => ⟨?_, hheld i o⟩⟩
    exact add_nonneg ((hsound'.inStep i).nonneg o) (Int.natCast_nonneg _)

/-- A round seen from its samplers: every input with packets samples an output that has one, and
    whenever a packet is removed, its output is the one at the back of the deque. -/
structure RoundInStep (cfg : Config) (shuffle : Shuffle n) (sw : IQSwitch n m) (timeSlot : ℕ)
    (st : State n m) : Prop where
  sampled : ∀ i, ((handlePacketArrivals sw st).inputQueues i).getQueueLength ≠ 0 →
    ∃ out q, ((handlePacketArrivals sw st).inputQueues i).sample = (some out, q) ∧
      0 < q.getPacketNumber out
  removed : ∃ proposed acc,
    propose cfg shuffle (handlePacketArrivals sw st).inputQueues = .ok proposed ∧
    accept cfg timeSlot proposed.outAccepts (handlePacketArrivals sw st) = .ok acc ∧
    ∀ done p rest, acc.virtualDepartures = done ++ p :: rest →
      ∃ queues, RoundRobinSampler.removeDepartures proposed.inputQueues done = .ok queues ∧
        (queues p.1).rrqueue.getLast? = some p.2

theorem Sound.roundInStep (hB : cfg.batchSize ≤ bitmapWidth) (ht : timeSlot < cfg.batchSize)
    (hmn : m ≤ n) (shuffle : Shuffle n) (sw : IQSwitch n m) {st : State n m} (h : Sound cfg st) :
    RoundInStep cfg shuffle sw timeSlot st := by
  have harrived := RoundRobinSampler.addArrivals_inStep h.inStep sw.getArrivals
  refine ⟨fun i hlen => ?_, ?_⟩
  · obtain ⟨out, q, hsample, hpos, -, -, hqueue⟩ := (harrived i).sample_eq hlen
    refine ⟨out, q, hsample, ?_⟩
    rw [RoundRobinSampler.getPacketNumber, hqueue]
    exact hpos
  · obtain ⟨proposed, hrun, hp⟩ := (propose_post cfg shuffle harrived).exists_ok (fun _ _ he => he)
    have htables : (handlePacketArrivals sw st).toBooking.Consistent cfg.batchSize cfg.batchSize
        cfg.batchSize := h.tables
    obtain ⟨acc, hrun', -, -, hinputs, hback⟩ :=
      (accept_post hB ht htables hp).exists_ok (fun _ _ he => he.2 hmn)
    refine ⟨proposed, acc, hrun, hrun', fun done p rest hsplit => ?_⟩
    rw [hsplit] at hinputs hback
    rw [List.map_append, List.map_cons] at hinputs
    -- The removals before that of `p` are from other samplers.
    obtain ⟨hdone, -, hdisjoint⟩ := List.nodup_append.mp hinputs
    obtain ⟨queues, hremove, -, -, hframe⟩ := RoundRobinSampler.removeDepartures_eq_ok hp.inStep
      hdone (fun p' hp' => hback p' (List.mem_append_left _ hp'))
    refine ⟨queues, hremove, ?_⟩
    rw [hframe p.1 (fun hmem => hdisjoint _ hmem _ List.mem_cons_self rfl)]
    exact hback p (List.mem_append_right done List.mem_cons_self)

/-- The states in which a run starts. -/
inductive Start (cfg : Config) : State n m → Prop where
  | initial : Start cfg (State.initial cfg)
  | reset (st : State n m) : Start cfg (reset cfg st)

/-- Between calls every deque lists each output once for each of its packets.  So a call fails no
    assertion, every input samples an output that has a packet, and every packet removed is one
    of the departing output.  In a run from an empty switch, each queue holds the packets that the
    sampler counts and those promised to pending reservations. -/
theorem inStep_of_run (hB1 : 1 ≤ cfg.batchSize) (hB : cfg.batchSize ≤ bitmapWidth) :
    (∀ st : State n n, Reachable cfg st →
      (∀ i d, ((st.inputQueues i).rrqueue.count d : ℤ) = (st.inputQueues i).queue d) ∧
      (∀ i d, d ∈ (st.inputQueues i).rrqueue ↔ 0 < (st.inputQueues i).queue d) ∧
      ∀ shuffle sw, ∃ st₀ st',
        dispatchIf cfg.batching (st.cfRelTime % cfg.batchSize) st = .ok st₀ ∧
        RoundInStep cfg shuffle sw (st.cfRelTime % cfg.batchSize) st₀ ∧
        schedule cfg shuffle sw st = .ok st') ∧
    ∀ (st₀ : State n n) (sw : IQSwitch n n), Start cfg st₀ → sw.Empty →
      ∀ sys, Run (model n n cfg) ⟨sw, st₀⟩ sys →
        (∀ s d, (sys.switch.getQueueLength s d : ℤ)
          = (sys.scheduler.inputQueues s).queue d
            + pending (Finset.range cfg.batchSize) sys.scheduler.schedules s d) ∧
        ∀ shuffle channels, ∃ next, switching (model n n cfg) shuffle channels sys = .ok next := by
  refine ⟨fun st hreach => ?_, fun st₀ sw hstart hsw sys hrun => ?_⟩
  · have hsound := sound_of_reachable hB1 hB hreach
    have ht : st.cfRelTime % cfg.batchSize < cfg.batchSize := Nat.mod_lt _ (by omega)
    refine ⟨hsound.inStep, fun i => (hsound.inStep i).mem_iff, fun shuffle sw => ?_⟩
    -- every output has an input with its number, so that nothing can fail
    obtain ⟨st', hrun, -⟩ := (schedule_post hB1 hB shuffle sw hsound).exists_ok
      (fun _ _ he => he.2 (le_refl n))
    obtain ⟨st₀, hdisp, hsound₀⟩ : ∃ st₀,
        dispatchIf cfg.batching (st.cfRelTime % cfg.batchSize) st = .ok st₀ ∧ Sound cfg st₀ := by
      cases cfg.batching with
      | true =>
        obtain ⟨st₀, hdisp, hsound₀, -⟩ := dispatchSchedule_eq_ok hB ht hsound
        exact ⟨st₀, hdisp, hsound₀⟩
      | false => exact ⟨st, rfl, hsound⟩
    exact ⟨st₀, st', hdisp, hsound₀.roundInStep hB ht (le_refl n) shuffle sw, hrun⟩
  · have hcons := conserves (n := n) (m := n) hB1 hB
    have hsound₀ : Sound cfg st₀ := by
      cases hstart with
      | initial => exact sound_initial cfg
      | reset st => exact sound_reset cfg st
    have hbal₀ : Balanced (held cfg) (⟨sw, st₀⟩ : System (model n n cfg)) := by
      intro i o
      show (sw.getQueueLength i o : ℤ) = held cfg st₀ i o
      rw [hsw i o]
      cases hstart with
      | initial => rw [held, pending_eq_zero (fun _ _ => rfl)]; rfl
      | reset st => rw [held, pending_eq_zero (fun _ _ => rfl)]; rfl
    obtain ⟨hsound, hbal⟩ := hcons.run hrun hsound₀ hbal₀
    refine ⟨hbal, fun shuffle channels => ?_⟩
    obtain ⟨next, hok, -⟩ := (hcons.switching_post shuffle channels hsound trivial hbal).exists_ok
      (fun _ _ he => he.2 (le_refl n))
    exact ⟨next, hok⟩

/-- Both inputs propose to output 0: one packet leaves at once, the other waits for its frame, and a
    second one of input 1 stays in its deque. -/
theorem inStep_after_slot :
    ∃ sys : System (model 2 2 ⟨2, 3, false, false⟩),
      sys.scheduler.schedules 1 1 = some 0 ∧
      (sys.scheduler.inputQueues 1).rrqueue = [0] ∧
      ∀ s d, (sys.switch.getQueueLength s d : ℤ)
        = (sys.scheduler.inputQueues s).queue d
          + pending (Finset.range 2) sys.scheduler.schedules s d := by
  obtain ⟨sys, hrun, hsys⟩ := exists_of_returns
    (x := switching (model 2 2 ⟨2, 3, false, false⟩) (Shuffle.inOrder 2)
      (packetsFor 0 (fun i => i + 1)) ⟨IQSwitch.empty 2 2, State.initial ⟨2, 3, false, false⟩⟩)
    (p := fun sys => decide (sys.scheduler.schedules 1 1 = some 0 ∧
      (sys.scheduler.inputQueues 1).rrqueue = [0])) (by decide)
  obtain ⟨hcell, hdeque⟩ := of_decide_eq_true hsys
  exact ⟨sys, hcell, hdeque, ((inStep_of_run (by decide) (by decide)).2 _ _ .initial
    (IQSwitch.empty_empty 2 2) sys (.step _ _ .refl hrun)).1⟩

end SlidingWindowRr

end SschedSimulator
