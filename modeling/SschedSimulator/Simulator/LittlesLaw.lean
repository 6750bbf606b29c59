import SschedSimulator.Simulator.Simulator

namespace SschedSimulator

open Foundation

/-!
# Little's law for the samples of `IQSwitchSimulator`

The instrument `delay` gets a sample for each packet that departs, the instrument
`total-queue-length` one for each slot.  A packet that stays in a queue over a slot makes the sample
of that slot larger by one, and is older by one afterwards.

* `GIQSwitch.ages` — how long the queued packets have waited, all together;
* `iteration_lengths` — what an iteration adds to both instruments;
* `littlesLaw_of_run` — the lengths add up to the delays and the ages.

Divided by the number of slots this is Little's law: the mean of the lengths is the mean of the
delays times the rate of the departures, up to what is still queued.
-/

variable {n m : ℕ}

/-- The sample of `delay` for a packet. -/
def Packet.delay (pkt : Packet n m) : ℤ := (pkt.departureTime : ℤ) - pkt.arrivalTime

theorem sum_map_filterMap {α β : Type*} (f : α → Option β) (g : β → ℤ) (l : List α) :
    ((l.filterMap f).map g).sum = (l.map (fun a => ((f a).toList.map g).sum)).sum := by
  induction l with
  | nil => rfl
  | cons a rest ih =>
    rw [List.map_cons, List.sum_cons, ← ih, List.filterMap_cons]
    cases f a with
    | none => exact (zero_add _).symm
    | some b => simp

/-! ### The ages of the queued packets -/

namespace GIQSwitch

/-- The ages of the packets of a queue. -/
def agesOf (time : ℕ) (queue : List (Packet n m)) : ℤ :=
  (queue.map (fun pkt => (time : ℤ) - pkt.arrivalTime)).sum

def ages (sw : GIQSwitch n m) : ℤ := ∑ s, ∑ d, agesOf sw.time (sw.virtualOutputQueue s d)

/-- The delays of the packets on the output channels. -/
def delays (channel : Fin m → List (Packet n m)) : ℤ := ∑ d, ((channel d).map Packet.delay).sum

theorem agesOf_append (time : ℕ) (queue queue' : List (Packet n m)) :
    agesOf time (queue ++ queue') = agesOf time queue + agesOf time queue' := by
  simp [agesOf]

theorem agesOf_succ (time : ℕ) (queue : List (Packet n m)) :
    agesOf (time + 1) queue = agesOf time queue + queue.length := by
  unfold agesOf
  induction queue with
  | nil => rfl
  | cons pkt rest ih =>
    simp only [List.map_cons, List.sum_cons, List.length_cons, ih]
    push_cast
    ring

/-- A packet that is read has not waited. -/
theorem ages_readInputs (sw : GIQSwitch n m) (channels : Fin n → List (Packet n m)) :
    (sw.readInputs channels).ages = sw.ages := by
  unfold ages
  refine Finset.sum_congr rfl (fun s _ => Finset.sum_congr rfl (fun d _ => ?_))
  rw [readInputs_queue, (sw.readInputs_frame channels).1, agesOf_append]
  have hnew : agesOf sw.time
      ((arrivalsFor channels s d).map (fun pkt => { pkt with arrivalTime := sw.time })) = 0 := by
    simp [agesOf, Function.comp_def]
  rw [hnew, add_zero]

theorem ages_empty {sw : GIQSwitch n m} (h : ∀ s d, sw.virtualOutputQueue s d = []) :
    sw.ages = 0 := by
  simp [ages, agesOf, h]

/-- The end of the cycle makes every packet older. -/
theorem ages_tick (sw : GIQSwitch n m) :
    ({ sw with time := sw.time + 1 } : GIQSwitch n m).ages
      = sw.ages + SimulatorLoop.queued (.generic sw) := by
  unfold ages SimulatorLoop.queued
  rw [← Finset.sum_add_distrib]
  refine Finset.sum_congr rfl (fun s _ => ?_)
  rw [← Finset.sum_add_distrib]
  exact Finset.sum_congr rfl (fun d _ => agesOf_succ sw.time (sw.virtualOutputQueue s d))

/-- A packet that is sent takes its age with it, and the delay of the switch on top. -/
theorem agesOf_written {inMatch : Fin n → Option (Fin m)} {sw sw' : GIQSwitch n m}
    (h : Written inMatch (List.finRange n) sw sw') (s : Fin n) (d : Fin m) :
    agesOf sw'.time (sw'.virtualOutputQueue s d)
        + ((sw.headFor inMatch d s).toList.map (fun pkt => pkt.delay - (sw.delay : ℤ))).sum
      = agesOf sw.time (sw.virtualOutputQueue s d) := by
  rw [h.time]
  by_cases hd : inMatch s = some d
  · rw [h.served s (List.mem_finRange s) d hd, headFor, if_pos hd]
    cases hq : sw.virtualOutputQueue s d with
    | nil => rfl
    | cons pkt rest =>
      simp only [List.tail_cons, List.head?_cons, Option.map_some, Option.toList_some,
        List.map_cons, List.map_nil, List.sum_cons, List.sum_nil, agesOf, Packet.delay]
      push_cast
      ring
  · rw [h.kept s d (fun hc => hd hc.2), headFor, if_neg hd]
    exact add_zero _

/-- What a slot sends has the delays that the ages lose. -/
theorem ages_writeOutputs {sw sw' : GIQSwitch n m} {inMatch : Fin n → Option (Fin m)}
    (h : sw.writeOutputs inMatch = .ok sw') :
    sw'.ages + delays (sw.sendsOn inMatch)
      = sw.ages + sw.delay * ∑ d, ((sw.sendsOn inMatch d).length : ℤ) := by
  have hwritten := writeOutputs_written h
  -- The age of a packet that is sent is its delay, less that of the switch.
  have hsends : ∀ d, ∑ s, ((sw.headFor inMatch d s).toList.map
        (fun pkt => pkt.delay - (sw.delay : ℤ))).sum
      = ((sw.sendsOn inMatch d).map Packet.delay).sum
        - sw.delay * ((sw.sendsOn inMatch d).length : ℤ) := by
    intro d
    rw [Fin.sum_univ_def, ← sum_map_filterMap, ← sendsOn]
    generalize sw.sendsOn inMatch d = pkts
    induction pkts with
    | nil => simp
    | cons pkt rest ih =>
      simp only [List.map_cons, List.sum_cons, List.length_cons, ih]
      push_cast
      ring
  have hages : sw'.ages + ∑ d, ∑ s, ((sw.headFor inMatch d s).toList.map
        (fun pkt => pkt.delay - (sw.delay : ℤ))).sum = sw.ages := by
    unfold ages
    rw [Finset.sum_comm (s := Finset.univ (α := Fin m)), ← Finset.sum_add_distrib]
    refine Finset.sum_congr rfl (fun s _ => ?_)
    rw [← Finset.sum_add_distrib]
    exact Finset.sum_congr rfl (fun d _ => agesOf_written hwritten s d)
  rw [← hages, Finset.sum_congr rfl (fun d _ => hsends d), Finset.sum_sub_distrib,
    ← Finset.mul_sum, delays]
  ring

end GIQSwitch

namespace SimulatorLoop

variable {S : SchedulerModel n m}

/-! ### Draining -/

/-- The samples of the channels drained so far, with the channels `rest` still to come. -/
structure Sampled (gw : GIQSwitch n m) (rest : List (Fin m))
    (acc : (Fin m → List (Packet n m)) × List ℤ × ℕ) : Prop extends Draining gw rest acc where
  length : acc.2.1.length = acc.2.2
  sum : acc.2.1.sum + (rest.map (fun d => ((gw.outputChannel d).map Packet.delay).sum)).sum
    = GIQSwitch.delays gw.outputChannel

theorem Sampled.step {gw : GIQSwitch n m} {d : Fin m} {rest : List (Fin m)}
    {acc : (Fin m → List (Packet n m)) × List ℤ × ℕ} (h : Sampled gw (d :: rest) acc)
    (hle : (gw.outputChannel d).length ≤ 1) :
    Post (Simulator.drain acc d) (fun _ => False) (Sampled gw rest) := by
  have hchannel := h.todo d List.mem_cons_self
  have hlength := h.length
  have hsum := h.sum
  rw [List.map_cons, List.sum_cons, ← hchannel] at hsum
  refine ((h.toDraining.step hle).and_eq).imp (fun acc' hacc' => ?_)
  obtain ⟨hdraining, hrun⟩ := hacc'
  rw [← hchannel] at hle
  unfold Simulator.drain at hrun
  rw [require_pos hle, ok_bind] at hrun
  cases hq : acc.1 d with
  | nil =>
    rw [hq] at hrun hsum
    cases hrun
    exact ⟨hdraining, hlength, by simpa using hsum⟩
  | cons pkt others =>
    rw [hq, List.length_cons] at hle
    -- a slot sends one packet on a channel at most
    obtain rfl : others = [] := List.eq_nil_of_length_eq_zero (by omega)
    rw [hq] at hrun hsum
    cases hrun
    refine ⟨hdraining, ?_, ?_⟩
    · rw [List.length_append, hlength, List.length_singleton]
    · rw [List.map_singleton, List.sum_singleton] at hsum
      rw [List.sum_append, List.sum_singleton, add_assoc]
      exact hsum

/-- Draining channels that hold at most one packet each takes all their delays. -/
theorem departing_delays (gw : GIQSwitch n m) (h : ∀ d, (gw.outputChannel d).length ≤ 1) :
    Post (Simulator.departing (.generic gw)) (fun _ => False) (fun r =>
      r.1 = .generic { gw with outputChannel := fun _ => [] } ∧
        r.2.1.length = r.2.2 ∧ r.2.1.sum = GIQSwitch.delays gw.outputChannel ∧
        r.2.2 = ∑ d, (gw.outputChannel d).length) := by
  have hstart : Sampled gw (List.finRange m) (gw.outputChannel, [], 0) :=
    ⟨draining_start gw, rfl, by
      rw [List.sum_nil, zero_add, ← Fin.sum_univ_def, GIQSwitch.delays]⟩
  have hloop := Post.foldlM_rest (Sampled gw) (List.finRange m) _ hstart
    (fun d rest acc hacc => hacc.step (h d))
  refine hloop.bind (fun acc hacc => ?_)
  refine ⟨?_, hacc.length, by simpa using hacc.sum, by simpa using hacc.count⟩
  have hempty : acc.1 = fun _ => [] := funext (fun d => hacc.done d List.not_mem_nil)
  rw [hempty]

/-! ### One slot -/

/-- A slot of the generic switch, if it returns. -/
theorem exists_of_slot {input : S.Input} {channels : Fin n → List (Packet n m)}
    {gw : GIQSwitch n m} {s : S.State} {sys : System S}
    (h : slot input channels ⟨.generic gw, s⟩ = .ok sys) :
    ∃ s' gw', S.schedule input ((IQSwitch.generic gw).readInputs channels) s = .ok s' ∧
      (gw.readInputs channels).writeOutputs (S.inMatch s') = .ok gw' ∧
      sys = ⟨.generic { gw' with time := gw'.time + 1 }, s'⟩ := by
  unfold slot at h
  split at h
  · rename_i sys' hrun
    obtain ⟨s', hsched, hrun'⟩ := bind_eq_ok.mp hrun
    obtain ⟨sw, hwrite, hsys⟩ := bind_eq_ok.mp hrun'
    obtain ⟨gw', hwrite', hsw⟩ := bind_eq_ok.mp hwrite
    cases hsw
    cases hsys
    exact ⟨s', gw', hsched, hwrite', (Except.ok.inj h).symm⟩
  · cases h

/-- What a slot does to the ages. -/
theorem slot_ages {input : S.Input} {channels : Fin n → List (Packet n m)} {gw : GIQSwitch n m}
    {s : S.State} {sys : System S} (hempty : ∀ d, gw.outputChannel d = [])
    (hmatch : ∀ s', S.schedule input ((IQSwitch.generic gw).readInputs channels) s = .ok s' →
      IsMatching (S.inMatch s'))
    (h : slot input channels ⟨.generic gw, s⟩ = .ok sys) :
    ∃ gw', sys.switch = .generic gw' ∧ gw'.delay = gw.delay ∧
      (∀ d, (gw'.outputChannel d).length ≤ 1) ∧
      gw'.ages + GIQSwitch.delays gw'.outputChannel
        = gw.ages + gw.delay * ((∑ d, (gw'.outputChannel d).length : ℕ) : ℤ)
          + queued (.generic gw') := by
  obtain ⟨s', gw', hsched, hwrite, rfl⟩ := exists_of_slot h
  have hwritten := GIQSwitch.writeOutputs_written hwrite
  obtain ⟨-, hdelay, -, hchannel⟩ := gw.readInputs_frame channels
  -- The channels were empty, so they hold what this slot sends.
  have hsent : gw'.outputChannel = (gw.readInputs channels).sendsOn (S.inMatch s') := by
    funext d
    rw [hwritten.channel d, hchannel, hempty, List.nil_append]
    rfl
  refine ⟨_, rfl, hwritten.delay.trans hdelay, fun d => ?_, ?_⟩
  · show (gw'.outputChannel d).length ≤ 1
    rw [hsent]
    exact GIQSwitch.length_sendsOn_le_one (hmatch s' hsched) d
  · have hages := GIQSwitch.ages_writeOutputs hwrite
    rw [GIQSwitch.ages_readInputs, hdelay, ← hsent] at hages
    show ({ gw' with time := gw'.time + 1 } : GIQSwitch n m).ages
        + GIQSwitch.delays gw'.outputChannel
      = gw.ages + gw.delay * ((∑ d, (gw'.outputChannel d).length : ℕ) : ℤ)
        + queued (.generic gw')
    rw [GIQSwitch.ages_tick]
    push_cast
    linarith

/-! ### One iteration -/

theorem exists_of_iteration {st st' : SimulatorLoop S} {input : S.Input}
    {inject : Fin n → Option (Fin m)} (h : iteration input inject st = .ok st') :
    ∃ sys r, slot input (Simulator.arriving inject st.sim.inputChannels).1 st.sim.system = .ok sys ∧
      Simulator.departing sys.switch = .ok r ∧
      st' = st.advance (Simulator.arriving inject st.sim.inputChannels).2 sys.scheduler r := by
  rw [iteration_eq] at h
  obtain ⟨sys, hslot, h'⟩ := bind_eq_ok.mp h
  obtain ⟨r, hdeparting, h''⟩ := bind_eq_ok.mp h'
  exact ⟨sys, r, hslot, hdeparting, (Except.ok.inj h'').symm⟩

/-- The samples of a simulation of a generic switch, which adds `delay` to every departure time. -/
structure LittlesLaw (delay : ℕ) (st : SimulatorLoop S) (gw : GIQSwitch n m)
    (delays lengths : List ℤ) : Prop where
  generic : st.sim.system.switch = .generic gw
  switchDelay : gw.delay = delay
  delaySamples : st.sim.delay = some delays
  lengthSamples : st.sim.totalQueueLength = some lengths
  slots : lengths.length = st.n
  departures : (delays.length : ℤ) = st.sim.totalDepartures
  law : lengths.sum + delay * (delays.length : ℤ) = delays.sum + gw.ages

/-- An iteration samples the delays of what it sends and the length that it leaves. -/
theorem LittlesLaw.step {delay : ℕ} {st st' : SimulatorLoop S} {gw : GIQSwitch n m}
    {delays lengths : List ℤ} (h : LittlesLaw delay st gw delays lengths) (hacc : Accounted st)
    {input : S.Input} {inject : Fin n → Option (Fin m)} (hmatch : Matches st input inject)
    (hok : iteration input inject st = .ok st') :
    ∃ gw' delays' lengths', LittlesLaw delay st' gw' delays' lengths' := by
  have hstall := ((iteration_post hacc hmatch).of_ok hok).stall
  obtain ⟨sys, r, hslot, hdeparting, rfl⟩ := exists_of_iteration hok
  have hsystem : st.sim.system = ⟨.generic gw, st.sim.system.scheduler⟩ := by
    rw [← h.generic]
  have hempty : ∀ d, gw.outputChannel d = [] := by
    intro d
    have houtput := hacc.outputChannels d
    rwa [h.generic] at houtput
  have hrow := hmatch
  unfold Matches at hrow
  rw [h.generic] at hrow
  rw [hsystem] at hslot
  -- A slot makes every packet that stays one slot older.
  obtain ⟨gw', hsw, hdelay, hone, hages⟩ := slot_ages hempty hrow hslot
  rw [hsw] at hdeparting
  obtain ⟨hgeneric, hcount, hsum, hsize⟩ := (departing_delays gw' hone).of_ok hdeparting
  refine ⟨{ gw' with outputChannel := fun _ => [] }, delays ++ r.2.1,
    lengths ++ [queued (.generic gw')], ⟨hgeneric, hdelay.trans h.switchDelay, ?_, ?_, ?_, ?_, ?_⟩⟩
  · exact congrArg (Option.map (· ++ r.2.1)) h.delaySamples
  · refine (congrArg (Option.map (· ++ [_])) h.lengthSamples).trans ?_
    have hlength : queued (.generic gw') = st.numStallPackets
        + (Simulator.arriving inject st.sim.inputChannels).2 - r.2.2 := by
      have hqueued : queued r.1 = queued (.generic gw') := by
        rw [hgeneric]
        rfl
      exact hqueued.symm.trans hstall.symm
    rw [hlength]
    rfl
  · rw [List.length_append, List.length_singleton, h.slots]
    rfl
  · rw [List.length_append, hcount]
    push_cast
    rw [h.departures]
    rfl
  · -- what left was as old as its delay says, and what stayed has aged
    have hlaw := h.law
    have hswitch := h.switchDelay
    show _ = _ + gw'.ages
    rw [List.sum_append, List.sum_singleton, List.sum_append, List.length_append, hcount, hsum]
    rw [← hsize, hswitch] at hages
    push_cast
    linarith

/-! ### Runs -/

/-- From a reset simulator with a generic switch and both instruments, whatever is injected and
    whatever the scheduler does as long as it returns matchings: after every iteration there is a
    length for each slot and a delay for each departure, and the lengths add up to the delays and
    the ages of the packets that are still queued. -/
theorem littlesLaw_of_run {sim : Simulator S} {gw : GIQSwitch n m} (hreset : IsReset sim)
    (hgeneric : sim.system.switch = .generic gw) (hdelay : sim.delay = some [])
    (hlengths : sim.totalQueueLength = some []) (inputs : ℕ → S.Input)
    (injects : ℕ → Fin n → Option (Fin m))
    (hmatch : ∀ k st, simulateOn sim inputs injects k = .ok st →
      Matches st (inputs k) (injects k)) (k : ℕ) :
    Post (simulateOn sim inputs injects k) (fun _ => True) (fun st =>
      ∃ gw' delays lengths, LittlesLaw gw.delay st gw' delays lengths) := by
  have hrun : Post (simulateOn sim inputs injects k) (fun _ => True) (fun st =>
      Accounted st ∧ ∃ gw' delays lengths, LittlesLaw gw.delay st gw' delays lengths) := by
    induction k with
    | zero =>
      refine ((start_post hreset).and_eq).mono (fun _ _ => trivial) (fun st hst => ?_)
      obtain ⟨hacc, hstart⟩ := hst
      refine ⟨hacc, gw, [], [], ?_⟩
      obtain ⟨_, hqueues, hstart⟩ := bind_eq_ok.mp hstart
      obtain ⟨_, -, hstart⟩ := bind_eq_ok.mp hstart
      obtain ⟨_, -, hstart⟩ := bind_eq_ok.mp hstart
      obtain rfl := (Except.ok.inj hstart).symm
      have hempty := of_require hqueues
      -- nothing is queued, so nothing has an age
      have hages : gw.ages = 0 := by
        apply GIQSwitch.ages_empty
        intro s d
        have hlen := hempty s d
        rw [hgeneric] at hlen
        exact List.eq_nil_of_length_eq_zero hlen
      refine ⟨hgeneric, rfl, hdelay, hlengths, rfl, hreset.2.symm, ?_⟩
      rw [hages]
      simp
    | succ k ih =>
      refine ih.and_eq.bind (fun st hst => ?_)
      obtain ⟨⟨hacc, gw', delays, lengths, hlaw⟩, hok⟩ := hst
      unfold goOn
      refine Post.bind (P := fun st' => st' = st) ?_ (fun st' hst' => ?_)
      · exact Post.require_bind (fun _ => trivial) (fun _ => rfl)
      · subst hst'
        have hstep := (iteration_post hacc (hmatch k st' hok)).and_eq
        refine hstep.mono (fun _ _ => trivial) (fun st'' hst'' => ?_)
        exact ⟨hst''.1, hlaw.step hacc (hmatch k st' hok) hst''.2⟩
  exact hrun.imp (fun st hst => hst.2)

/-- Two inputs and one output; a previous run has left its counters and samples. -/
def twoToOneSampled : Simulator (decisions 2 1) :=
  { twoToOne with delay := some [5], totalQueueLength := some [5] }

/-- Both inputs have a packet for the output in the first slot and the inputs are matched in turn:
    the second packet waits for one slot. -/
theorem littlesLaw_two_iterations :
    ∃ st gw delays lengths,
      simulateOn (twoToOneSampled.reset id) inTurn
        (fun k _ => if k = 0 then some 0 else none) 2 = .ok st ∧
      LittlesLaw 0 st gw delays lengths ∧ delays = [0, 1] ∧ lengths = [1, 0] := by
  have hpost := littlesLaw_of_run (isReset_reset id twoToOneSampled) rfl rfl rfl
    inTurn (fun k _ => if k = 0 then some 0 else none)
    (fun k _ _ s' hs' => by
      cases hs'
      exact isMatching_inTurn k) 2
  obtain ⟨st, hrun, hst⟩ := exists_of_returns
    (x := simulateOn (twoToOneSampled.reset id) inTurn
      (fun k _ => if k = 0 then some 0 else none) 2)
    (p := fun st => decide (st.sim.delay = some [0, 1] ∧ st.sim.totalQueueLength = some [1, 0]))
    (by decide)
  obtain ⟨hdelays, hlengths⟩ := of_decide_eq_true hst
  obtain ⟨gw, delays, lengths, hlaw⟩ := hpost.of_ok hrun
  refine ⟨st, gw, delays, lengths, hrun, hlaw, ?_, ?_⟩
  · exact Option.some.inj (hlaw.delaySamples.symm.trans hdelays)
  · exact Option.some.inj (hlaw.lengthSamples.symm.trans hlengths)

end SimulatorLoop

end SschedSimulator
