import SschedSimulator.Foundation.Lockstep
import SschedSimulator.Simulator.Simulator

namespace SschedSimulator

open Foundation

/-!
# `IQSwitchSimulator` — simulating either class of switch

The departures of a generic switch are packets on its output channels, those of a simplified one
pairs in its departure buffer.  The simulator counts either.

* `Paired` — what relates the two simulations after an iteration;
* `Paired.iteration` — an iteration keeps it, or both fault;
* `statistics_agree` — the counters and the sampled lengths do not depend on the class.
-/

variable {n m : ℕ} {S : SchedulerModel n m}

/-- The simulator with another switch. -/
def Simulator.withSystem (sim : Simulator S) (sys : System S) : Simulator S :=
  { sim with system := sys }

namespace SimulatorLoop

/-- A simplified and a generic switch with the same queues, and one state of the scheduler. -/
structure PairedSystem (sys sys' : System S) : Prop where
  switch : ∃ sw gw, sys.switch = .simplified sw ∧ sys'.switch = .generic gw ∧ Refines sw gw
  scheduler : sys'.scheduler = sys.scheduler

/-- Two simulations, one of either class; the generic switch also samples delays. -/
structure Paired (st st' : SimulatorLoop S) : Prop where
  account : Accounted st
  account' : Accounted st'
  system : PairedSystem st.sim.system st'.sim.system
  slots : st'.n = st.n
  arrivals : st'.sim.totalArrivals = st.sim.totalArrivals
  lengths : st'.sim.totalQueueLength = st.sim.totalQueueLength
  delay : st'.sim.delay = none ↔ st.sim.delay = none

/-- The statistics that both classes have. -/
structure SameStatistics (st st' : SimulatorLoop S) : Prop where
  slots : st'.n = st.n
  arrivals : st'.sim.totalArrivals = st.sim.totalArrivals
  departures : st'.sim.totalDepartures = st.sim.totalDepartures
  stall : st'.numStallPackets = st.numStallPackets
  lengths : st'.sim.totalQueueLength = st.sim.totalQueueLength
  scheduler : st'.sim.system.scheduler = st.sim.system.scheduler
  queues : ∀ s d, st'.sim.system.switch.getQueueLength s d
    = st.sim.system.switch.getQueueLength s d

/-! ### Paired systems -/

/-- The lengths are the same. -/
theorem PairedSystem.queueLength {sys sys' : System S} (h : PairedSystem sys sys') :
    sys'.switch.getQueueLength = sys.switch.getQueueLength := by
  obtain ⟨sw, gw, hsw, hgw, hrefines⟩ := h.switch
  rw [hsw, hgw]
  exact hrefines.queueLen.symm

theorem PairedSystem.queued_eq {sys sys' : System S} (h : PairedSystem sys sys') :
    queued sys'.switch = queued sys.switch := by
  unfold queued
  rw [h.queueLength]

theorem Paired.stall_eq {st st' : SimulatorLoop S} (h : Paired st st') :
    st'.numStallPackets = st.numStallPackets := by
  rw [h.account.stall, h.account'.stall, h.system.queued_eq]

/-- The statistics are the same. -/
theorem Paired.sameStatistics {st st' : SimulatorLoop S} (h : Paired st st') :
    SameStatistics st st' where
  slots := h.slots
  arrivals := h.arrivals
  departures := by
    have hcount := h.account.counters
    have hcount' := h.account'.counters
    have harrivals := h.arrivals
    have hstall := h.stall_eq
    omega
  stall := h.stall_eq
  lengths := h.lengths
  scheduler := h.system.scheduler
  queues := fun s d => congrFun₂ h.system.queueLength s d

/-! ### One iteration -/

section

variable {st st' : SimulatorLoop S} {input : S.Input}

/-- The scheduler returns a matching for one of the switches as it does for the other. -/
theorem Paired.matches (hS : S.Extensional) (h : Paired st st') {inject : Fin n → Option (Fin m)}
    (hmatch : Matches st' input inject) : Matches st input inject := by
  obtain ⟨sw, gw, hsw, hgw, hrefines⟩ := h.system.switch
  have hchannels : st'.sim.inputChannels = st.sim.inputChannels :=
    funext (fun s => (h.account'.inputChannels s).trans (h.account.inputChannels s).symm)
  intro s' hs'
  apply hmatch s'
  rw [hgw, hchannels, h.system.scheduler]
  rw [hsw] at hs'
  obtain ⟨harrivals, hlen⟩ :=
    hrefines.readInputs (Simulator.arriving inject st.sim.inputChannels).1
  exact (hS input _ _ st.sim.system.scheduler harrivals hlen).symm.trans hs'

/-- A slot of the loop. -/
theorem PairedSystem.slot (hS : S.Extensional) {sys sys' : System S} (h : PairedSystem sys sys')
    (channels : Fin n → List (Packet n m)) :
    Lockstep PairedSystem (slot input channels sys) (slot input channels sys') := by
  obtain ⟨switch, s⟩ := sys
  obtain ⟨switch', s'⟩ := sys'
  obtain ⟨sw, gw, rfl, rfl, hrefines⟩ := h.switch
  obtain rfl : s' = s := h.scheduler
  unfold SimulatorLoop.slot
  rcases hrefines.switching hS input channels s' with ⟨e, hs, hg⟩ | ⟨sw', gw', s'', hs, hg, hnext⟩
  · rw [hs, hg]
    rfl
  · rw [hs, hg]
    exact ⟨⟨sw', gw', rfl, rfl, hnext⟩, rfl⟩

/-- Counting the departures leaves the queues alone. -/
theorem PairedSystem.departing {sys sys' : System S} (h : PairedSystem sys sys')
    (hone : Post (Simulator.departing sys'.switch) (fun _ => False) (fun _ => True)) :
    Lockstep (fun r r' => PairedSystem (S := S) ⟨r.1, sys.scheduler⟩ ⟨r'.1, sys'.scheduler⟩)
      (Simulator.departing sys.switch) (Simulator.departing sys'.switch) := by
  obtain ⟨sw, gw, hsw, hgw, hrefines⟩ := h.switch
  rw [hsw]
  rw [hgw] at hone ⊢
  obtain ⟨r', hr', -⟩ := hone.exists_ok (fun _ _ => not_false)
  have hr'' := hr'
  obtain ⟨acc, -, hacc⟩ := bind_eq_ok.mp hr''
  obtain rfl := Except.ok.inj hacc
  rw [hr']
  exact ⟨⟨sw, _, rfl, rfl, hrefines.info, hrefines.sorted, hrefines.queueLen, hrefines.arrivals,
    hrefines.departures⟩, h.scheduler⟩

/-- An iteration of both simulations, before their accounts are compared. -/
theorem Paired.lockstep (hS : S.Extensional) (h : Paired st st')
    {inject : Fin n → Option (Fin m)} (hmatch : Matches st' input inject) :
    Lockstep (fun a b => PairedSystem a.sim.system b.sim.system ∧ b.n = a.n ∧
        b.sim.totalArrivals = a.sim.totalArrivals ∧
        a.sim.totalQueueLength = st.sim.totalQueueLength.map (· ++ [a.numStallPackets]) ∧
        b.sim.totalQueueLength = st.sim.totalQueueLength.map (· ++ [b.numStallPackets]) ∧
        (b.sim.delay = none ↔ a.sim.delay = none))
      (iteration input inject st) (iteration input inject st') := by
  have hchannels : st'.sim.inputChannels = st.sim.inputChannels :=
    funext (fun s => (h.account'.inputChannels s).trans (h.account.inputChannels s).symm)
  have hdrains := slot_departing h.account'.outputChannels hmatch
  rw [iteration_eq, iteration_eq]
  rw [hchannels] at hdrains ⊢
  refine ((h.system.slot hS _).and_post (Post.top _) hdrains).bind (fun sys sys' hsys => ?_)
  obtain ⟨hpaired, -, hdrain⟩ := hsys
  refine (hpaired.departing (hdrain.imp (fun _ _ => trivial))).bind (fun r r' hr => ?_)
  refine ⟨hr, congrArg (· + 1) h.slots, congrArg (· + _) h.arrivals, rfl, ?_, ?_⟩
  · exact congrArg (Option.map (· ++ _)) h.lengths
  · show Option.map _ st'.sim.delay = none ↔ Option.map _ st.sim.delay = none
    rw [Option.map_eq_none_iff, Option.map_eq_none_iff]
    exact h.delay

/-- An iteration of the loop. -/
theorem Paired.iteration (hS : S.Extensional) (h : Paired st st')
    {inject : Fin n → Option (Fin m)} (hmatch : Matches st' input inject) :
    Lockstep Paired (iteration input inject st) (iteration input inject st') := by
  refine ((h.lockstep hS hmatch).and_post (iteration_post h.account (h.matches hS hmatch))
    (iteration_post h.account' hmatch)).mono (fun a b hab => ?_)
  obtain ⟨⟨hsystem, hslots, harrivals, hlengths, hlengths', hdelay⟩, hacc, hacc'⟩ := hab
  refine ⟨hacc, hacc', hsystem, hslots, harrivals, ?_, hdelay⟩
  rw [hlengths, hlengths', hacc.stall, hacc'.stall, hsystem.queued_eq]

end

/-! ### Runs -/

/-- After `reset` the checks at the beginning of a simulation hold. -/
theorem start_reset (resetScheduler : S.State → S.State) (sim : Simulator S) :
    start (sim.reset resetScheduler)
      = .ok { sim := sim.reset resetScheduler, n := 0, numStallPackets := 0 } := by
  have hqueues : ∀ s d,
      (sim.reset resetScheduler).system.switch.getQueueLength s d = 0 := by
    intro s d
    show (Simulator.resetSwitch sim.system.switch).getQueueLength s d = 0
    cases sim.system.switch <;> rfl
  have hinputs : ∀ s, ((sim.reset resetScheduler).inputChannels s).length = 0 := fun _ => rfl
  have houtputs : ∀ d, (Simulator.outputChannel (sim.reset resetScheduler).outputChannels
      (sim.reset resetScheduler).system.switch d).length = 0 := by
    intro d
    show (Simulator.outputChannel (fun _ => []) (Simulator.resetSwitch sim.system.switch) d).length
      = 0
    cases sim.system.switch <;> rfl
  rw [start, require_pos hqueues, ok_bind, require_pos hinputs, ok_bind, require_pos houtputs,
    ok_bind]

/-- Both simulators after `reset`. -/
theorem paired_start (sim : Simulator S) (resetScheduler : S.State → S.State)
    (sw : SIQSwitch n m) {gw : GIQSwitch n m} (hinfo : gw.enableDepartureInfo = true)
    (st : S.State) :
    Lockstep Paired (start ((sim.withSystem ⟨.simplified sw, st⟩).reset resetScheduler))
      (start ((sim.withSystem ⟨.generic gw, st⟩).reset resetScheduler)) := by
  have hpairs : ∀ buf : SdBuffer n m,
      SdBuffer.pairs (buf.map (fun _ => none) : SdBuffer n m) = [] := by
    intro buf
    cases buf with
    | nil => rfl
    | cons p rest => rfl
  have hsystem : PairedSystem (S := S)
      ((sim.withSystem ⟨.simplified sw, st⟩).reset resetScheduler).system
      ((sim.withSystem ⟨.generic gw, st⟩).reset resetScheduler).system := by
    refine ⟨⟨_, _, rfl, rfl, hinfo, fun _ _ _ h => absurd h List.not_mem_nil, rfl, ?_, ?_⟩, rfl⟩
    · exact (hpairs _).trans (hpairs _).symm
    · exact (hpairs _).trans (hpairs _).symm
  have hstart := start_post (isReset_reset resetScheduler (sim.withSystem ⟨.simplified sw, st⟩))
  have hstart' := start_post (isReset_reset resetScheduler (sim.withSystem ⟨.generic gw, st⟩))
  rw [start_reset] at hstart hstart' ⊢
  rw [start_reset]
  exact ⟨hstart, hstart', hsystem, rfl, rfl, rfl, Iff.rfl⟩

/-- Simulating a simplified switch or a generic one with departure information, after `reset`, under
    a scheduler that looks at the arrivals and the queue lengths and returns matchings: after every
    iteration the counters, the sampled lengths and the queues are the same, or both simulations
    have stopped at the same fault. -/
theorem statistics_agree (hS : S.Extensional) (sim : Simulator S)
    (resetScheduler : S.State → S.State) (sw : SIQSwitch n m) {gw : GIQSwitch n m}
    (hinfo : gw.enableDepartureInfo = true) (s : S.State) (inputs : ℕ → S.Input)
    (injects : ℕ → Fin n → Option (Fin m))
    (hmatch : ∀ k st,
      simulateOn ((sim.withSystem ⟨.generic gw, s⟩).reset resetScheduler) inputs injects k
        = .ok st → Matches st (inputs k) (injects k)) (k : ℕ) :
    Lockstep SameStatistics
      (simulateOn ((sim.withSystem ⟨.simplified sw, s⟩).reset resetScheduler) inputs injects k)
      (simulateOn ((sim.withSystem ⟨.generic gw, s⟩).reset resetScheduler) inputs injects k) := by
  have hrun : Lockstep Paired
      (simulateOn ((sim.withSystem ⟨.simplified sw, s⟩).reset resetScheduler) inputs injects k)
      (simulateOn ((sim.withSystem ⟨.generic gw, s⟩).reset resetScheduler) inputs injects k) := by
    induction k with
    | zero => exact paired_start sim resetScheduler sw hinfo s
    | succ k ih =>
      refine (ih.and_post (Post.top _) (Post.top _).and_eq).bind (fun st st' hst => ?_)
      obtain ⟨hpaired, -, -, hok⟩ := hst
      refine Lockstep.bind (R := fun a b => a = st ∧ b = st') ?_ (fun a b hab => ?_)
      · unfold goOn
        -- the assertion on the instruments reads what both simulations share
        by_cases hdelay : st.n = 0 ∨ st.sim.delay ≠ none
        · have hdelay' : st'.n = 0 ∨ st'.sim.delay ≠ none := by
            rwa [hpaired.slots, Ne, hpaired.delay]
          rw [require_pos hdelay, require_pos hdelay']
          exact ⟨rfl, rfl⟩
        · have hdelay' : ¬ (st'.n = 0 ∨ st'.sim.delay ≠ none) := by
            rwa [hpaired.slots, Ne, hpaired.delay]
          rw [Foundation.require, Foundation.require, if_neg hdelay, if_neg hdelay']
          rfl
      · obtain ⟨rfl, rfl⟩ := hab
        exact hpaired.iteration hS (hmatch k b hok)
  exact hrun.mono (fun _ _ h => h.sameStatistics)

/-- Both inputs have a packet for the output in the first slot and are matched in turn. -/
theorem statistics_agree_two :
    ∃ st st' : SimulatorLoop (decisions 2 1),
      simulateOn ((twoToOne.withSystem ⟨.simplified (SIQSwitch.construct 2 1), fun _ => none⟩).reset
          id) inTurn (fun k _ => if k = 0 then some 0 else none) 2 = .ok st ∧
      simulateOn ((twoToOne.withSystem ⟨.generic (GIQSwitch.construct true (fun _ => [])),
          fun _ => none⟩).reset id) inTurn (fun k _ => if k = 0 then some 0 else none) 2 = .ok st' ∧
      SameStatistics st st' ∧ st'.sim.totalDepartures = 2 := by
  have hagree := @statistics_agree 2 1 (decisions 2 1) (fun _ _ _ _ _ _ => rfl) twoToOne id
    (SIQSwitch.construct 2 1) (GIQSwitch.construct true (fun _ => [])) rfl (fun _ => none)
    inTurn (fun k _ => if k = 0 then some 0 else none)
    (fun k _ _ s' hs' => by
      cases hs'
      exact isMatching_inTurn k) 2
  obtain ⟨st, hrun, -⟩ := exists_of_returns
    (x := simulateOn ((twoToOne.withSystem ⟨.simplified (SIQSwitch.construct 2 1),
        fun _ => none⟩).reset id) inTurn (fun k _ => if k = 0 then some 0 else none) 2)
    (p := fun _ => true) (by decide)
  obtain ⟨st', hrun', hst'⟩ := exists_of_returns
    (x := simulateOn ((twoToOne.withSystem ⟨.generic (GIQSwitch.construct true (fun _ => [])),
        fun _ => none⟩).reset id) inTurn (fun k _ => if k = 0 then some 0 else none) 2)
    (p := fun st => decide (st.sim.totalDepartures = 2)) (by decide)
  rw [hrun, hrun'] at hagree
  exact ⟨st, st', hrun, hrun', hagree, of_decide_eq_true hst'⟩

end SimulatorLoop

end SschedSimulator
