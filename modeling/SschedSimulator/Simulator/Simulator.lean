import SschedSimulator.Switch.Refinement

namespace SschedSimulator

open Foundation

/-!
# `IQSwitchSimulator` — the loop of `simulate_on`

An iteration sends new packets into the input channels, lets the switch run for a slot and drains
the departures: the output channels of a generic switch, the departure buffer of a simplified one.

* `Accounted` — the three tallies of the packets agree after an iteration;
* `iteration_post` — an iteration keeps it;
* `accounted_of_run` — and with it no output channel holds more than one packet.

When the loop ends depends on estimates in floating point.  It is left open here: what is proved is
about any number of iterations.
-/

variable {n m : ℕ}

/-- What can go wrong in a simulation. -/
inductive SimulatorFault where
  /-- an assertion of the switch or its scheduler -/
  | switching (e : Fault)
  /-- `assert(_output_channels[d]->size() <= 1)` -/
  | channelOverfull
  /-- `NonEmptyInitializationException` -/
  | nonEmptyInitialization
  /-- `_instruments["delay"]` when there is no such instrument: a null pointer -/
  | missingInstrument
  /-- the remainder by a `print_interval` of zero -/
  | divisionByZero
  deriving DecidableEq, Repr

/-- The simulator.  The two counters belong to the instrument `throughput`; the others are lists of
    samples, if they are installed.  The channels of a generic switch are in the switch. -/
structure Simulator (S : SchedulerModel n m) where
  system : System S
  inputChannels : Fin n → List (Packet n m)
  outputChannels : Fin m → List (Packet n m)
  totalArrivals : ℤ
  totalDepartures : ℤ
  delay : Option (List ℤ)
  totalQueueLength : Option (List ℤ)

variable {S : SchedulerModel n m}

namespace Simulator

/-- `_output_channels[d]`; `others` are those of a switch that does not hold its channels. -/
def outputChannel (others : Fin m → List (Packet n m)) : IQSwitch n m → Fin m → List (Packet n m)
  | .generic gw, d => gw.outputChannel d
  | .simplified _, d => others d

/-- `IQSwitch::reset` of the switch: its queues and channels are empty. -/
def resetSwitch : IQSwitch n m → IQSwitch n m
  | .simplified sw => .simplified
      { queueLenMat := fun _ _ => 0
        arrivals := sw.arrivals.map (fun _ => none)
        departures := sw.departures.map (fun _ => none) }
  | .generic gw => .generic
      { gw with
        virtualOutputQueue := fun _ _ => []
        arrivals := gw.arrivals.map (fun _ => none)
        departures := gw.departures.map (fun _ => none)
        time := 0
        outputChannel := fun _ => [] }

/-- `reset`, given that of the scheduler.  The instrument `throughput` shares its counters with one
    that is reset. -/
def reset (resetScheduler : S.State → S.State) (sim : Simulator S) : Simulator S where
  system := ⟨resetSwitch sim.system.switch, resetScheduler sim.system.scheduler⟩
  inputChannels := fun _ => []
  outputChannels := fun _ => []
  totalArrivals := 0
  totalDepartures := 0
  delay := sim.delay.map (fun _ => [])
  totalQueueLength := sim.totalQueueLength.map (fun _ => [])

/-! ### An iteration -/

/-- `arriving`: the channels and the number of arrivals. -/
def arriving (inject : Fin n → Option (Fin m)) (channels : Fin n → List (Packet n m)) :
    (Fin n → List (Packet n m)) × ℕ :=
  (List.finRange n).foldl (fun acc s =>
    match inject s with
    | none => acc
    | some d => (Function.update acc.1 s (acc.1 s ++ [⟨s, d, 0, 0⟩]), acc.2 + 1)) (channels, 0)

/-- Drain an output channel: the channels, the delays sampled and the number of departures. -/
def drain (acc : (Fin m → List (Packet n m)) × List ℤ × ℕ) (d : Fin m) :
    Except SimulatorFault ((Fin m → List (Packet n m)) × List ℤ × ℕ) := do
  require ((acc.1 d).length ≤ 1) .channelOverfull
  match acc.1 d with
  | [] => .ok acc
  | pkt :: rest =>
    .ok (Function.update acc.1 d rest,
      acc.2.1 ++ [(pkt.departureTime : ℤ) - pkt.arrivalTime], acc.2.2 + 1)

/-- `departing`: the switch, the delays sampled and the number of departures. -/
def departing : IQSwitch n m → Except SimulatorFault (IQSwitch n m × List ℤ × ℕ)
  | .generic gw => do
    let acc ← (List.finRange m).foldlM drain (gw.outputChannel, [], 0)
    .ok (.generic { gw with outputChannel := acc.1 }, acc.2)
  | .simplified sw => .ok (.simplified sw, [], sw.departures.pairs.length)

end Simulator

/-- The state of the loop of `simulate_on`: the simulator, `n` and `num_stall_packets`. -/
structure SimulatorLoop (S : SchedulerModel n m) where
  sim : Simulator S
  n : ℕ
  numStallPackets : ℤ

namespace SimulatorLoop

/-- The slot of the switch. -/
def slot (input : S.Input) (channels : Fin n → List (Packet n m)) (sys : System S) :
    Except SimulatorFault (System S) :=
  match switching S input channels sys with
  | .ok sys' => .ok sys'
  | .error e => .error (.switching e)

/-- One iteration, up to the update of the statistics. -/
def iteration (input : S.Input) (inject : Fin n → Option (Fin m)) (st : SimulatorLoop S) :
    Except SimulatorFault (SimulatorLoop S) := do
  let (channels, numArrivals) := Simulator.arriving inject st.sim.inputChannels
  let sys ← slot input channels st.sim.system
  let (sw, delays, numDepartures) ← Simulator.departing sys.switch
  let numStallPackets := st.numStallPackets + numArrivals - numDepartures
  .ok { sim :=
          { st.sim with
            system := ⟨sw, sys.scheduler⟩
            -- reading has emptied the input channels
            inputChannels := fun _ => []
            totalArrivals := st.sim.totalArrivals + numArrivals
            totalDepartures := st.sim.totalDepartures + numDepartures
            delay := st.sim.delay.map (· ++ delays)
            totalQueueLength := st.sim.totalQueueLength.map (· ++ [numStallPackets]) }
        n := st.n + 1
        numStallPackets := numStallPackets }

/-- The checks at the beginning of `simulate_on`. -/
def start (sim : Simulator S) : Except SimulatorFault (SimulatorLoop S) := do
  require (∀ s d, sim.system.switch.getQueueLength s d = 0) .nonEmptyInitialization
  require (∀ s, (sim.inputChannels s).length = 0) .nonEmptyInitialization
  require (∀ d, (Simulator.outputChannel sim.outputChannels sim.system.switch d).length = 0)
    .nonEmptyInitialization
  .ok { sim := sim, n := 0, numStallPackets := 0 }

/-- The end of an iteration reads the instrument `delay` to see whether the loop goes on. -/
def goOn (st : SimulatorLoop S) : Except SimulatorFault (SimulatorLoop S) := do
  require (st.n = 0 ∨ st.sim.delay ≠ none) .missingInstrument
  .ok st

/-- The loop after `k` iterations, each observed when its statistics are updated. -/
def simulateOn (sim : Simulator S) (inputs : ℕ → S.Input)
    (injects : ℕ → Fin n → Option (Fin m)) : ℕ → Except SimulatorFault (SimulatorLoop S)
  | 0 => start sim
  | k + 1 => do
    let st ← simulateOn sim inputs injects k
    let st ← goOn st
    iteration (inputs k) (injects k) st

/-! ### The tallies -/

/-- The packets queued in the switch. -/
def queued (sw : IQSwitch n m) : ℤ := ∑ s, ∑ d, (sw.getQueueLength s d : ℤ)

/-- The channels are empty and the tallies agree. -/
structure Accounted (st : SimulatorLoop S) : Prop where
  inputChannels : ∀ s, st.sim.inputChannels s = []
  outputChannels : ∀ d,
    Simulator.outputChannel st.sim.outputChannels st.sim.system.switch d = []
  stall : st.numStallPackets = queued st.sim.system.switch
  counters : st.sim.totalArrivals - st.sim.totalDepartures = st.numStallPackets

end SimulatorLoop

/-! ### Arrivals -/

/-- What `arriving` counts is what it sends. -/
theorem Simulator.sum_arriving (inject : Fin n → Option (Fin m))
    (channels : Fin n → List (Packet n m)) :
    ∑ s, ((arriving inject channels).1 s).length
      = ∑ s, (channels s).length + (arriving inject channels).2 := by
  have hloop : ∀ (l : List (Fin n)) (acc : (Fin n → List (Packet n m)) × ℕ) (acc' : _),
      acc' = l.foldl (fun acc s =>
        match inject s with
        | none => acc
        | some d => (Function.update acc.1 s (acc.1 s ++ [⟨s, d, 0, 0⟩]), acc.2 + 1)) acc →
      ∑ s, (acc'.1 s).length + acc.2 = ∑ s, (acc.1 s).length + acc'.2 := by
    intro l
    induction l with
    | nil =>
      intro acc acc' h
      rw [h]
      rfl
    | cons s rest ih =>
      intro acc acc' h
      rw [List.foldl_cons] at h
      have hih := ih _ acc' h
      cases hinject : inject s with
      | none =>
        rw [hinject] at hih
        exact hih
      | some d =>
        rw [hinject] at hih
        -- One more packet in one channel, one more arrival.
        have hone : ∑ i, (Function.update acc.1 s (acc.1 s ++ [⟨s, d, 0, 0⟩]) i).length
            = ∑ i, (acc.1 i).length + 1 := by
          rw [← Finset.add_sum_erase _ _ (Finset.mem_univ s),
            ← Finset.add_sum_erase Finset.univ (fun i => (acc.1 i).length) (Finset.mem_univ s),
            Function.update_self, List.length_append, List.length_singleton]
          have hrest : ∑ i ∈ Finset.univ.erase s,
              (Function.update acc.1 s (acc.1 s ++ [⟨s, d, 0, 0⟩]) i).length
                = ∑ i ∈ Finset.univ.erase s, (acc.1 i).length :=
            Finset.sum_congr rfl (fun i hi => by
              rw [Function.update_of_ne (Finset.ne_of_mem_erase hi)])
          omega
        dsimp only at hih
        omega
  exact hloop _ (channels, 0) _ rfl

theorem length_arrivalsOf (channels : Fin n → List (Packet n m)) :
    (arrivalsOf channels).length = ∑ s, (channels s).length := by
  rw [arrivalsOf, List.length_map, packetsOf, List.length_flatMap, ← Fin.sum_univ_def]

/-- The pairs of a list, counted pair by pair. -/
theorem sum_count_eq_length (l : List (Fin n × Fin m)) : ∑ s, ∑ d, l.count (s, d) = l.length := by
  rw [← Fintype.sum_prod_type' (fun s d => l.count (s, d))]
  induction l with
  | nil => exact Finset.sum_const_zero
  | cons p rest ih =>
    simp only [List.count_cons, beq_iff_eq]
    rw [Finset.sum_add_distrib, ih, Finset.sum_ite_eq Finset.univ p, if_pos (Finset.mem_univ p),
      List.length_cons]

namespace SimulatorLoop

theorem queued_readInputs (sw : IQSwitch n m) (channels : Fin n → List (Packet n m)) :
    queued (sw.readInputs channels) = queued sw + (arrivalsOf channels).length := by
  unfold queued
  rw [← sum_count_eq_length]
  push_cast
  rw [← Finset.sum_add_distrib]
  refine Finset.sum_congr rfl (fun s _ => ?_)
  rw [← Finset.sum_add_distrib]
  refine Finset.sum_congr rfl (fun d _ => ?_)
  rw [IQSwitch.readInputs_queueLength]
  push_cast
  rfl

/-- What departs leaves the queues. -/
theorem queued_writeOutputs {sw sw' : IQSwitch n m} {inMatch : Fin n → Option (Fin m)}
    (h : sw.writeOutputs inMatch = .ok sw') :
    queued sw' + (departed inMatch sw.getQueueLength).length = queued sw := by
  have hlen := sum_queueLength_add_departed ((sw.writeOutputs_post inMatch).of_ok h)
  unfold queued
  exact_mod_cast hlen

/-! ### Departures -/

/-- Draining, with the channels `rest` still to come. -/
structure Draining (gw : GIQSwitch n m) (rest : List (Fin m))
    (acc : (Fin m → List (Packet n m)) × List ℤ × ℕ) : Prop where
  done : ∀ d, d ∉ rest → acc.1 d = []
  todo : ∀ d ∈ rest, acc.1 d = gw.outputChannel d
  nodup : rest.Nodup
  count : acc.2.2 + (rest.map (fun d => (gw.outputChannel d).length)).sum
    = ∑ d, (gw.outputChannel d).length

theorem draining_start (gw : GIQSwitch n m) :
    Draining gw (List.finRange m) (gw.outputChannel, [], 0) where
  done := fun d hd => absurd (List.mem_finRange d) hd
  todo := fun _ _ => rfl
  nodup := List.nodup_finRange m
  count := by rw [Nat.zero_add, ← Fin.sum_univ_def]

theorem Draining.step {gw : GIQSwitch n m} {d : Fin m} {rest : List (Fin m)}
    {acc : (Fin m → List (Packet n m)) × List ℤ × ℕ} (h : Draining gw (d :: rest) acc)
    (hle : (gw.outputChannel d).length ≤ 1) :
    Post (Simulator.drain acc d) (fun _ => False) (Draining gw rest) := by
  obtain ⟨hd, hrest⟩ := List.nodup_cons.mp h.nodup
  have hchannel := h.todo d List.mem_cons_self
  have hcount := h.count
  rw [← hchannel] at hle
  rw [List.map_cons, List.sum_cons, ← hchannel] at hcount
  unfold Simulator.drain
  rw [require_pos hle, ok_bind]
  cases hq : acc.1 d with
  | nil =>
    rw [hq, List.length_nil, Nat.zero_add] at hcount
    refine ⟨fun d' hd' => ?_, fun d' hd' => h.todo d' (List.mem_cons_of_mem d hd'), hrest, hcount⟩
    by_cases hdd : d' = d
    · rw [hdd, hq]
    · exact h.done d' (by simp [hdd, hd'])
  | cons pkt others =>
    rw [hq, List.length_cons] at hle
    -- a slot sends one packet on a channel at most
    have hnil : others = [] := List.eq_nil_of_length_eq_zero (by omega)
    subst hnil
    rw [hq, List.length_singleton] at hcount
    refine ⟨fun d' hd' => ?_, fun d' hd' => ?_, hrest, ?_⟩
    · show Function.update acc.1 d [] d' = []
      by_cases hdd : d' = d
      · rw [hdd, Function.update_self]
      · rw [Function.update_of_ne hdd]
        exact h.done d' (by simp [hdd, hd'])
    · show Function.update acc.1 d [] d' = _
      rw [Function.update_of_ne (ne_of_mem_of_not_mem hd' hd)]
      exact h.todo d' (List.mem_cons_of_mem d hd')
    · show acc.2.2 + 1 + _ = _
      omega

/-- Draining channels that hold at most one packet each. -/
theorem departing_generic (gw : GIQSwitch n m) (h : ∀ d, (gw.outputChannel d).length ≤ 1) :
    Post (Simulator.departing (.generic gw)) (fun _ => False) (fun r =>
      ∃ gw', r.1 = .generic gw' ∧ gw'.queueLen = gw.queueLen ∧ (∀ d, gw'.outputChannel d = []) ∧
        r.2.2 = ∑ d, (gw.outputChannel d).length) := by
  have hloop := Post.foldlM_rest (Draining gw) (List.finRange m) _ (draining_start gw)
    (fun d rest acc hacc => hacc.step (h d))
  refine hloop.bind (fun acc hacc => ?_)
  exact ⟨_, rfl, rfl, fun d => hacc.done d List.not_mem_nil, hacc.count⟩

/-! ### One slot -/

section

variable {input : S.Input} {channels : Fin n → List (Packet n m)}

theorem slot_post {sys : System S} {Q : System S → Prop}
    (h : Post (switching S input channels sys) (fun _ => True) Q) :
    Post (slot input channels sys) (fun e => ∃ f, e = .switching f) Q := by
  unfold slot
  cases hrun : switching S input channels sys with
  | ok sys' => exact h.of_ok hrun
  | error e => exact ⟨e, rfl⟩

/-- What the simplified switch reports is what has left its queues. -/
theorem slot_simplified (sw : SIQSwitch n m) (s : S.State) :
    Post (slot input channels ⟨.simplified sw, s⟩) (fun e => ∃ f, e = .switching f)
      (fun sys' => ∃ sw', sys'.switch = .simplified sw' ∧
        queued sys'.switch + sw'.departures.pairs.length
          = queued (.simplified sw) + (arrivalsOf channels).length) := by
  apply slot_post
  cases hrun : S.schedule input ((IQSwitch.simplified sw).readInputs channels) s with
  | error e =>
    rw [switching, hrun, error_bind]
    trivial
  | ok s' =>
    obtain ⟨sw', hwrite⟩ := (sw.readInputs channels).writeOutputs_eq_ok (S.inMatch s')
    have hqueued := queued_writeOutputs (writeOutputs_simplified hwrite)
    have hread := queued_readInputs (.simplified sw) channels
    change queued (.simplified (sw.readInputs channels)) = _ at hread
    rw [switching_simplified_eq_ok hrun hwrite]
    refine ⟨sw', rfl, ?_⟩
    rw [SIQSwitch.departures_eq hwrite, ← hread]
    exact hqueued

/-- What the generic switch sends is what has left its queues; a matching sends at most one packet
    on each output. -/
theorem slot_generic (gw : GIQSwitch n m) (s : S.State) (hempty : ∀ d, gw.outputChannel d = [])
    (hmatch : ∀ s', S.schedule input ((IQSwitch.generic gw).readInputs channels) s = .ok s' →
      IsMatching (S.inMatch s')) :
    Post (slot input channels ⟨.generic gw, s⟩) (fun e => ∃ f, e = .switching f)
      (fun sys' => ∃ gw', sys'.switch = .generic gw' ∧ (∀ d, (gw'.outputChannel d).length ≤ 1) ∧
        queued sys'.switch + (∑ d, (gw'.outputChannel d).length : ℕ)
          = queued (.generic gw) + (arrivalsOf channels).length) := by
  apply slot_post
  cases hrun : S.schedule input ((IQSwitch.generic gw).readInputs channels) s with
  | error e =>
    rw [switching, hrun, error_bind]
    trivial
  | ok s' =>
    have hrow := hmatch s' hrun
    obtain ⟨gw', hwrite⟩ := (gw.readInputs channels).writeOutputs_eq_ok (.inr hrow)
    have hqueued := queued_writeOutputs (writeOutputs_generic hwrite)
    have hread := queued_readInputs (.generic gw) channels
    change queued (.generic (gw.readInputs channels)) = _ at hread
    -- The channels were empty, so that they hold what is sent in this slot.
    have hsent : ∀ d, gw'.outputChannel d
        = (gw.readInputs channels).sendsOn (S.inMatch s') d := by
      intro d
      rw [(GIQSwitch.writeOutputs_written hwrite).channel d, (gw.readInputs_frame channels).2.2.2,
        hempty, List.nil_append]
      rfl
    rw [switching_generic_eq_ok hrun hwrite]
    refine ⟨_, rfl, fun d => ?_, ?_⟩
    · show (gw'.outputChannel d).length ≤ 1
      rw [hsent]
      exact GIQSwitch.length_sendsOn_le_one hrow d
    · show queued (.generic gw') + ((∑ d, (gw'.outputChannel d).length : ℕ) : ℤ) = _
      simp only [hsent]
      rw [GIQSwitch.sum_sendsOn, ← hread]
      exact hqueued

/-- A slot, and what `departing` will make of it. -/
theorem slot_departing {sys : System S} {others : Fin m → List (Packet n m)}
    (hempty : ∀ d, Simulator.outputChannel others sys.switch d = [])
    (hmatch : ∀ s', S.schedule input (sys.switch.readInputs channels) sys.scheduler = .ok s' →
      IsMatching (S.inMatch s')) :
    Post (slot input channels sys) (fun e => ∃ f, e = .switching f) (fun sys' =>
      Post (Simulator.departing sys'.switch) (fun _ => False) (fun r =>
        (∀ d, Simulator.outputChannel others r.1 d = []) ∧
          queued r.1 + r.2.2 = queued sys.switch + (arrivalsOf channels).length)) := by
  obtain ⟨switch, s⟩ := sys
  cases switch with
  | simplified sw =>
    refine (slot_simplified sw s).imp (fun sys' h => ?_)
    obtain ⟨sw', hsw', hqueued⟩ := h
    rw [hsw'] at hqueued ⊢
    exact ⟨hempty, hqueued⟩
  | generic gw =>
    refine (slot_generic gw s hempty hmatch).imp (fun sys' h => ?_)
    obtain ⟨gw', hgw', hle, hqueued⟩ := h
    rw [hgw'] at hqueued ⊢
    refine (departing_generic gw' hle).imp (fun r hr => ?_)
    obtain ⟨gw'', hgw'', hlen, hchannels, hcount⟩ := hr
    -- draining a channel leaves the queues alone
    have hsame : queued r.1 = queued (.generic gw') := by
      unfold queued
      rw [hgw'']
      exact Finset.sum_congr rfl (fun s _ => Finset.sum_congr rfl (fun d _ =>
        congrArg Nat.cast (congrFun₂ hlen s d)))
    rw [hsame, hcount, hgw'']
    exact ⟨hchannels, hqueued⟩

end

/-! ### One iteration -/

/-- The loop after an iteration in which `numArrivals` packets arrived. -/
def advance (st : SimulatorLoop S) (numArrivals : ℕ) (s : S.State)
    (r : IQSwitch n m × List ℤ × ℕ) : SimulatorLoop S :=
  { sim :=
      { st.sim with
        system := ⟨r.1, s⟩
        inputChannels := fun _ => []
        totalArrivals := st.sim.totalArrivals + numArrivals
        totalDepartures := st.sim.totalDepartures + r.2.2
        delay := st.sim.delay.map (· ++ r.2.1)
        totalQueueLength :=
          st.sim.totalQueueLength.map (· ++ [st.numStallPackets + numArrivals - r.2.2]) }
    n := st.n + 1
    numStallPackets := st.numStallPackets + numArrivals - r.2.2 }

theorem iteration_eq (input : S.Input) (inject : Fin n → Option (Fin m)) (st : SimulatorLoop S) :
    iteration input inject st = (do
      let sys ← slot input (Simulator.arriving inject st.sim.inputChannels).1 st.sim.system
      let r ← Simulator.departing sys.switch
      .ok (st.advance (Simulator.arriving inject st.sim.inputChannels).2 sys.scheduler r)) := rfl

/-- In this slot the scheduler returns a matching, if it returns. -/
def Matches (st : SimulatorLoop S) (input : S.Input) (inject : Fin n → Option (Fin m)) : Prop :=
  ∀ s', S.schedule input
    (st.sim.system.switch.readInputs (Simulator.arriving inject st.sim.inputChannels).1)
    st.sim.system.scheduler = .ok s' → IsMatching (S.inMatch s')

/-- An iteration keeps the account; no output channel is found with more than one packet. -/
theorem iteration_post {st : SimulatorLoop S} {input : S.Input} {inject : Fin n → Option (Fin m)}
    (h : Accounted st) (hmatch : Matches st input inject) :
    Post (iteration input inject st) (fun e => ∃ f, e = .switching f) Accounted := by
  have harrived := Simulator.sum_arriving inject st.sim.inputChannels
  have hnone : ∑ s, (st.sim.inputChannels s).length = 0 :=
    Finset.sum_eq_zero (fun s _ => by rw [h.inputChannels s]; rfl)
  rw [hnone, Nat.zero_add, ← length_arrivalsOf] at harrived
  have hstall := h.stall
  have hcounters := h.counters
  refine (slot_departing h.outputChannels hmatch).bind (fun sys hsys => ?_)
  refine (hsys.mono (fun _ he => he.elim) (fun _ hr => hr)).bind (fun r hr => ?_)
  obtain ⟨hchannels, hqueued⟩ := hr
  rw [harrived] at hqueued
  exact {
    inputChannels := fun _ => rfl
    outputChannels := hchannels
    stall := by
      show st.numStallPackets
        + ((Simulator.arriving inject st.sim.inputChannels).2 : ℤ) - (r.2.2 : ℤ) = queued r.1
      omega
    counters := by
      show st.sim.totalArrivals + ((Simulator.arriving inject st.sim.inputChannels).2 : ℤ)
          - (st.sim.totalDepartures + (r.2.2 : ℤ))
        = st.numStallPackets
          + ((Simulator.arriving inject st.sim.inputChannels).2 : ℤ) - (r.2.2 : ℤ)
      omega }

/-! ### Runs -/

/-- The simulator is reset: its counters are zero. -/
def IsReset (sim : Simulator S) : Prop := sim.totalArrivals = 0 ∧ sim.totalDepartures = 0

theorem isReset_reset (resetScheduler : S.State → S.State) (sim : Simulator S) :
    IsReset (sim.reset resetScheduler) := ⟨rfl, rfl⟩

/-- What the checks of `simulate_on` let through. -/
theorem start_post {sim : Simulator S} (h : IsReset sim) :
    Post (start sim) (fun e => e = .nonEmptyInitialization) Accounted := by
  unfold start
  refine Post.require_bind (fun _ => rfl) (fun hqueues => ?_)
  refine Post.require_bind (fun _ => rfl) (fun hinputs => ?_)
  refine Post.require_bind (fun _ => rfl) (fun houtputs => ?_)
  exact {
    inputChannels := fun s => List.eq_nil_of_length_eq_zero (hinputs s)
    outputChannels := fun d => List.eq_nil_of_length_eq_zero (houtputs d)
    stall := by
      show (0 : ℤ) = queued sim.system.switch
      unfold queued
      simp [hqueues]
    counters := by
      show sim.totalArrivals - sim.totalDepartures = 0
      rw [h.1, h.2, sub_zero] }

/-- Two inputs and one output; a previous run has left its counters. -/
def twoToOne : Simulator (decisions 2 1) where
  system := ⟨.generic (GIQSwitch.construct false (fun _ => [])), fun _ => none⟩
  inputChannels := fun _ => []
  outputChannels := fun _ => []
  totalArrivals := 7
  totalDepartures := 3
  delay := some []
  totalQueueLength := none

/-- The inputs are matched to the output in turn. -/
def inTurn (k : ℕ) (s : Fin 2) : Option (Fin 1) := if s.val = k then some 0 else none

theorem isMatching_inTurn (k : ℕ) : IsMatching (inTurn k) := by
  intro i i' o hi hi'
  apply Fin.ext
  rw [(Option.ite_some_none_eq_some.mp hi).1, (Option.ite_some_none_eq_some.mp hi').1]

end SimulatorLoop

end SschedSimulator
