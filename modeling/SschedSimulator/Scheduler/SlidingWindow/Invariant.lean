import SschedSimulator.Scheduler.SlidingWindow.Basic

namespace SschedSimulator

open Foundation

/-!
# `Sliding_Window_QPS` — the reservation tables and the packets

Two invariants over whole runs, both obtained from what one call does (`schedule_post`):

* `reservationInvariant_of_reachable` — the schedule rows, the bitmaps of the ports and the
  availability counters describe the same reservations, so every dispatched row is a partial
  matching;
* `queueLength_eq_of_run` — a packet queued in the switch is either counted by the sampler of
  its input or promised to exactly one pending reservation.
-/

namespace SlidingWindowQps

variable {n m : ℕ} {cfg : Config} {sort : DescSort (Fin n)}

/-- The states between calls: from construction or a reset by calls that return. -/
inductive Reachable (cfg : Config) (sort : DescSort (Fin n)) : State n m → Prop where
  | initial : Reachable cfg sort (State.initial cfg)
  | reset {st : State n m} : Reachable cfg sort st → Reachable cfg sort (reset cfg st)
  | schedule {st st' : State n m} (draws : Draws n m) (sw : IQSwitch n m) :
      Reachable cfg sort st → schedule cfg sort draws sw st = .ok st' → Reachable cfg sort st'

/-- The four representations of the reservations agree. -/
structure ReservationInvariant (B : ℕ) (b : Booking n m) : Prop where
  matching : ∀ f < B, IsMatching (b.schedules f)
  inputBit : ∀ f < B, ∀ i, b.inFlag i f = true ↔ b.schedules f i ≠ none
  outputBit : ∀ f < B, ∀ o, b.outFlag o f = true ↔ ∃ i, b.schedules f i = some o
  inputAvailable : ∀ i, b.inputAvailability i = freeFrames (Finset.range B) (b.inFlag i)
  outputAvailable : ∀ o, b.outputAvailability o = freeFrames (Finset.range B) (b.outFlag o)
  noHighBit : ∀ f, B ≤ f → (∀ i, b.inFlag i f = false) ∧ ∀ o, b.outFlag o f = false

theorem reservationInvariant_of_consistent {B : ℕ} {b : Booking n m} (h : b.Consistent B B B) :
    ReservationInvariant B b where
  matching := h.matching
  inputBit := fun _ hf i => h.toTracks.inFlag_iff hf i
  outputBit := fun _ hf o => h.toTracks.outFlag_iff hf o
  inputAvailable := h.inputAvailable
  outputAvailable := h.outputAvailable
  noHighBit := fun _ hf =>
    ⟨h.covers.inFlag_eq_false (not_lt.mpr hf), h.covers.outFlag_eq_false (not_lt.mpr hf)⟩

theorem sound_initial (cfg : Config) : Sound cfg (State.initial cfg : State n m) where
  tables := Booking.consistent_empty _ _ _
  nonneg := fun _ _ => le_refl 0

theorem sound_of_reachable (hB1 : 1 ≤ cfg.batchSize) (hB : cfg.batchSize ≤ bitmapWidth)
    {st : State n m} (h : Reachable cfg sort st) : Sound cfg st := by
  induction h with
  | initial => exact sound_initial cfg
  | reset _ ih => exact ⟨(sound_initial cfg).tables, (sound_initial cfg).nonneg⟩
  | schedule draws sw _ hrun ih =>
    obtain ⟨_, _, _, hcall⟩ := (schedule_post hB1 hB sort draws sw ih).of_ok hrun
    exact hcall.sound

/-- Between calls the tables agree.  A call stops only at a bad sample, in particular it never
    meets an occupied cell, and the row it dispatches is a partial matching. -/
theorem reservationInvariant_of_reachable (hB1 : 1 ≤ cfg.batchSize)
    (hB : cfg.batchSize ≤ bitmapWidth) {st : State n m} (h : Reachable cfg sort st) :
    ReservationInvariant cfg.batchSize st.toBooking ∧
      ∀ draws sw, Post (schedule cfg sort draws sw st)
        (fun e => e = .badSample ∧ ¬ GoodDraws draws sw st)
        (fun st' => IsMatching st'.inMatch) := by
  have hsound := sound_of_reachable hB1 hB h
  refine ⟨reservationInvariant_of_consistent hsound.tables, fun draws sw => ?_⟩
  refine (schedule_post hB1 hB sort draws sw hsound).imp ?_
  rintro st' ⟨_, _, _, hcall⟩
  exact hcall.matching

/-- The tables agree after a round in which both inputs of a switch propose to the same output:
    one is served at once, the other holds a reservation. -/
theorem reservationInvariant_after_round :
    ∃ st : State 2 2, (st.inMatch 1 = some 0 ∧ st.schedules 1 0 = some 0) ∧
      ReservationInvariant 2 st.toBooking := by
  obtain ⟨st, hrun, hst⟩ := exists_of_returns
    (x := schedule ⟨2, 3, false, false⟩ .insertion ⟨⟨[1, 0], by decide⟩, fun _ => some 0⟩
      (.simplified ⟨fun _ _ => 1, [some (0, 0), some (1, 0)], []⟩)
      (State.initial ⟨2, 3, false, false⟩ : State 2 2))
    (p := fun st => decide (st.inMatch 1 = some 0 ∧ st.schedules 1 0 = some 0)) (by decide)
  exact ⟨st, of_decide_eq_true hst,
    (reservationInvariant_of_reachable (by decide) (by decide) (.schedule _ _ .initial hrun)).1⟩

/-! ### Conservation -/

/-- The packets from `i` to `o` that the scheduler accounts for: those its sampler counts and
    those promised to pending reservations. -/
def held (cfg : Config) (st : State n m) (i : Fin n) (o : Fin m) : ℤ :=
  (st.inputQueues i).getPacketNumber o
    + pending (Finset.range cfg.batchSize) st.schedules i o

/-- A call adds the arrivals to what is held and takes away what it dispatches. -/
theorem Call.held_eq {draws : Draws n m} {sw : IQSwitch n m} {st st₀ st₁ st' : State n m}
    {gs : List (Fin n × Fin m)} (h : Call cfg sort draws sw st st₀ st₁ st' gs)
    (hB1 : 1 ≤ cfg.batchSize) (i : Fin n) (o : Fin m) :
    held cfg st' i o + (if st'.inMatch i = some o then 1 else 0)
      = held cfg st i o + sw.getArrivals.count (i, o) := by
  have ht : st.cfRelTime % cfg.batchSize ∈ Finset.range cfg.batchSize :=
    Finset.mem_range.mpr (Nat.mod_lt _ (by omega))
  have hround := h.round.pending_eq i o
  have hq := h.queues i o
  unfold held QueueSampler.getPacketNumber
  rw [h.finish, h.inMatch, hq]
  have hstart := h.start
  -- The dispatched row is cleared before the round with batching, after it without.
  cases hb : cfg.batching with
  | true =>
    rw [hb, if_pos rfl] at hstart
    have hclear := pending_clear ht st.schedules i o
    rw [← hstart] at hclear
    simp only [if_true]
    omega
  | false =>
    rw [hb, if_neg Bool.false_ne_true] at hstart
    have hclear := pending_clear ht st₁.schedules i o
    rw [hstart] at hround
    simp only [Bool.false_eq_true, if_false]
    omega

/-- `schedule()` conserves packets. -/
theorem conserves (hB1 : 1 ≤ cfg.batchSize) (hB : cfg.batchSize ≤ bitmapWidth)
    (sort : DescSort (Fin n)) :
    Conserves (model n m cfg sort) (fun _ _ _ => True) (Sound cfg) (held cfg)
      (fun draws sw st e => e = .badSample ∧ ¬ GoodDraws draws sw st) where
  post := by
    intro draws sw st hsound _
    refine (schedule_post hB1 hB sort draws sw hsound).imp ?_
    rintro st' ⟨_, _, _, hcall⟩
    refine ⟨hcall.sound, fun hne => absurd hcall.matching hne,
      fun i o => ⟨?_, hcall.held_eq hB1 i o⟩⟩
    exact add_nonneg (hcall.sound.nonneg i o) (Int.natCast_nonneg _)

/-- In every run of an initially empty switch, each queue holds the packets that the sampler
    counts and those promised to pending reservations.  A slot stops only at a bad sample, and
    every dispatched pair finds a packet. -/
theorem queueLength_eq_of_run (hB1 : 1 ≤ cfg.batchSize) (hB : cfg.batchSize ≤ bitmapWidth)
    {sw : IQSwitch n m} (hsw : sw.Empty) {sys : System (model n m cfg sort)}
    (hrun : Run (model n m cfg sort) ⟨sw, State.initial cfg⟩ sys) :
    (∀ s d, (sys.switch.getQueueLength s d : ℤ)
      = (sys.scheduler.inputQueues s).getPacketNumber d
        + pending (Finset.range cfg.batchSize) sys.scheduler.schedules s d) ∧
    (∀ draws channels, Post (switching (model n m cfg sort) draws channels sys)
      (fun e => e = .badSample ∧
        ¬ GoodDraws draws (sys.switch.readInputs channels) sys.scheduler) (fun _ => True)) ∧
    ∀ draws channels st',
      schedule cfg sort draws (sys.switch.readInputs channels) sys.scheduler = .ok st' →
      ∀ s d, st'.inMatch s = some d →
        0 < (sys.switch.readInputs channels).getQueueLength s d := by
  have hcons := conserves (m := m) hB1 hB sort
  have hbal₀ : Balanced (held cfg) (⟨sw, State.initial cfg⟩ : System (model n m cfg sort)) := by
    intro i o
    show (sw.getQueueLength i o : ℤ) = held cfg (State.initial cfg : State n m) i o
    rw [hsw i o, held, pending_eq_zero (fun _ _ => rfl)]
    rfl
  obtain ⟨hsound, hbal⟩ := hcons.run hrun (sound_initial cfg) hbal₀
  refine ⟨hbal, fun draws channels => ?_, fun draws channels st' hok s d hsd => ?_⟩
  · exact (hcons.switching_post draws channels hsound trivial hbal).imp (fun _ _ => trivial)
  · exact hcons.served draws channels hsound trivial hbal hok hsd

/-- The balance after a slot in which one of two packets leaves and the other holds a
    reservation. -/
theorem queueLength_after_slot :
    ∃ sys : System (model 2 2 ⟨2, 3, false, false⟩ .insertion),
      sys.switch.getQueueLength 0 0 = 1 ∧
      ∀ s d, (sys.switch.getQueueLength s d : ℤ)
        = (sys.scheduler.inputQueues s).getPacketNumber d
          + pending (Finset.range 2) sys.scheduler.schedules s d := by
  obtain ⟨sys, hrun, hsys⟩ := exists_of_returns
    (x := switching (model 2 2 ⟨2, 3, false, false⟩ .insertion)
      ⟨⟨[1, 0], by decide⟩, fun _ => some 0⟩ (fun i => [⟨i, 0, 0, 0⟩])
      ⟨.simplified ⟨fun _ _ => 0, [], []⟩, State.initial ⟨2, 3, false, false⟩⟩)
    (p := fun sys => decide (sys.switch.getQueueLength 0 0 = 1)) (by decide)
  exact ⟨sys, of_decide_eq_true hsys,
    (queueLength_eq_of_run (by decide) (by decide) (fun _ _ => rfl) (.step _ _ .refl hrun)).1⟩

end SlidingWindowQps

end SschedSimulator
