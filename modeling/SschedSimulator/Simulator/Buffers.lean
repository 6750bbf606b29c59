import SschedSimulator.Simulator.Simulator

namespace SschedSimulator

open Foundation

/-!
# The buffers of a switch over many calls

The buffers of arrivals and departures are written from their start in every slot and never shrink;
the sentinel, written behind the last pair, is all that separates a slot from what earlier slots
left behind.

* `count_departed` — a slot reports each departure once;
* `switching_reports` — after one slot, the buffers report that slot;
* `buffers_of_calls` — so they do after any calls of `switching` and `reset`.
-/

variable {n m : ℕ}

namespace IQSwitch

/-- `get_departures`, up to the sentinel. -/
def getDepartures : IQSwitch n m → List (Fin n × Fin m)
  | simplified sw => sw.departures.pairs
  | generic sw => sw.departures.pairs

/-- A new switch that reports its departures; a simplified one may start with queues. -/
inductive Constructed : IQSwitch n m → Prop where
  | simplified (initialQueueLen : Fin n → Fin m → ℕ) :
      Constructed (.simplified { SIQSwitch.construct n m with queueLenMat := initialQueueLen })
  | generic (outputChannel : Fin m → List (Packet n m)) :
      Constructed (.generic (GIQSwitch.construct true outputChannel))

/-- The switch reports its departures, and a packet waits in the queue of its ports. -/
def Reporting : IQSwitch n m → Prop
  | simplified _ => True
  | generic sw => sw.enableDepartureInfo = true ∧ sw.Sorted

theorem Constructed.reporting {sw : IQSwitch n m} (h : Constructed sw) : sw.Reporting := by
  cases h with
  | simplified => trivial
  | generic out => exact ⟨rfl, fun _ _ _ hpkt => absurd hpkt List.not_mem_nil⟩

end IQSwitch

/-- The switch after calls of `switching` and `reset`. -/
inductive Calls (S : SchedulerModel n m) (resetScheduler : S.State → S.State) (sys : System S) :
    System S → Prop where
  | refl : Calls S resetScheduler sys sys
  | switching {mid sys' : System S} (input : S.Input) (channels : Fin n → List (Packet n m)) :
      Calls S resetScheduler sys mid → switching S input channels mid = .ok sys' →
      Calls S resetScheduler sys sys'
  | reset {mid : System S} : Calls S resetScheduler sys mid →
      Calls S resetScheduler sys ⟨Simulator.resetSwitch mid.switch, resetScheduler mid.scheduler⟩

/-! ### One slot -/

section

variable {inMatch : Fin n → Option (Fin m)} {len : Fin n → Fin m → ℕ}

theorem mem_departed {s : Fin n} {d : Fin m} :
    (s, d) ∈ departed inMatch len ↔ inMatch s = some d ∧ len s d ≠ 0 := by
  unfold departed
  rw [List.mem_filterMap]
  constructor
  · rintro ⟨s', -, hdeparts⟩
    unfold departs at hdeparts
    split at hdeparts
    · cases hdeparts
    · rename_i hmatch
      split at hdeparts
      · rename_i hlen
        cases hdeparts
        exact ⟨hmatch, hlen⟩
      · cases hdeparts
  · rintro ⟨hmatch, hlen⟩
    exact ⟨s, List.mem_finRange s, departs_of_some hmatch hlen⟩

/-- Each matched pair with a packet departs once. -/
theorem count_departed (s : Fin n) (d : Fin m) :
    (departed inMatch len).count (s, d) = if inMatch s = some d ∧ len s d ≠ 0 then 1 else 0 := by
  have hnodup : (departed inMatch len).Nodup := by
    refine (List.nodup_finRange n).filterMap (fun s s' p hp hp' => ?_)
    have hfst : ∀ {s : Fin n}, p ∈ departs inMatch len s → p.1 = s := by
      intro s hp
      unfold departs at hp
      split at hp
      · cases hp
      · split at hp
        · cases hp
          rfl
        · cases hp
    exact (hfst hp).symm.trans (hfst hp')
  split
  · rename_i h
    exact List.count_eq_one_of_mem hnodup (mem_departed.mpr h)
  · rename_i h
    exact List.count_eq_zero_of_not_mem (fun hmem => h (mem_departed.mp hmem))

end

/-- What is reported after a slot that read `channels`: the pairs read, in the order of the
    channels, and the pairs sent, in the order of the inputs; the queues are shorter by these. -/
structure Reports (inMatch : Fin n → Option (Fin m)) (channels : Fin n → List (Packet n m))
    (sw sw' : IQSwitch n m) : Prop where
  arrivals : sw'.getArrivals = arrivalsOf channels
  departures : sw'.getDepartures = departed inMatch (sw.readInputs channels).getQueueLength
  sent : ∀ s d, sw'.getQueueLength s d + sw'.getDepartures.count (s, d)
    = sw.getQueueLength s d + (arrivalsOf channels).count (s, d)

section

variable {S : SchedulerModel n m} {sys sys' : System S}

/-- What `write_outputs` leaves in the buffers. -/
theorem buffers_of_writeOutputs {sw sw' : IQSwitch n m} {inMatch : Fin n → Option (Fin m)}
    (h : sw.Reporting) (hrun : sw.writeOutputs inMatch = .ok sw') :
    sw'.getArrivals = sw.getArrivals ∧ sw'.getDepartures = departed inMatch sw.getQueueLength ∧
      sw'.Reporting := by
  cases sw with
  | simplified sw =>
    obtain ⟨sw', hwrite, hsw'⟩ := bind_eq_ok.mp hrun
    cases hsw'
    exact ⟨congrArg SdBuffer.pairs (SIQSwitch.arrivals_of_writeOutputs hwrite),
      SIQSwitch.departures_eq hwrite, trivial⟩
  | generic gw =>
    obtain ⟨hinfo, hsorted⟩ := h
    obtain ⟨gw', hwrite, hgw'⟩ := bind_eq_ok.mp hrun
    cases hgw'
    have hwritten := GIQSwitch.writeOutputs_written hwrite
    exact ⟨congrArg SdBuffer.pairs (GIQSwitch.arrivals_of_writeOutputs hinfo hwrite),
      GIQSwitch.departures_eq hinfo hsorted hwrite, hwritten.info.trans hinfo,
      GIQSwitch.sorted_of_written hwritten hsorted⟩

theorem IQSwitch.Reporting.readInputs {sw : IQSwitch n m} (h : sw.Reporting)
    (channels : Fin n → List (Packet n m)) : (sw.readInputs channels).Reporting := by
  cases sw with
  | simplified sw => trivial
  | generic gw =>
    exact ⟨(gw.readInputs_frame channels).2.2.1.trans h.1, GIQSwitch.sorted_readInputs h.2 channels⟩

/-- Whatever the buffers held before a slot. -/
theorem switching_reports (h : sys.switch.Reporting) {input : S.Input}
    {channels : Fin n → List (Packet n m)} (hok : switching S input channels sys = .ok sys') :
    Reports (S.inMatch sys'.scheduler) channels sys.switch sys'.switch ∧ sys'.switch.Reporting := by
  obtain ⟨st, -, hrest⟩ := bind_eq_ok.mp hok
  obtain ⟨sw, hwrite, hsys'⟩ := bind_eq_ok.mp hrest
  cases hsys'
  obtain ⟨harrivals, hdepartures, hreporting⟩ := buffers_of_writeOutputs (h.readInputs channels)
    hwrite
  have hlen := (IQSwitch.writeOutputs_post _ _).of_ok hwrite
  rw [IQSwitch.readInputs_arrivals] at harrivals
  have hreports : Reports (S.inMatch st) channels sys.switch sw := by
    refine ⟨harrivals, hdepartures, fun s d => ?_⟩
    rw [hlen, hdepartures, count_departed, ← IQSwitch.readInputs_queueLength]
    by_cases hmatch : S.inMatch st s = some d
    · rw [if_pos hmatch]
      -- A matched queue without packets sends none.
      by_cases hempty : (sys.switch.readInputs channels).getQueueLength s d = 0
      · rw [if_neg (fun hc => hc.2 hempty)]
        omega
      · rw [if_pos ⟨hmatch, hempty⟩]
        omega
    · rw [if_neg hmatch, if_neg (fun hc => hmatch hc.1)]
      omega
  cases sw with
  | simplified sw => exact ⟨hreports, hreporting⟩
  | generic gw =>
    exact ⟨⟨hreports.arrivals, hreports.departures, hreports.sent⟩, hreporting⟩

end

/-! ### Sequences of calls -/

theorem SdBuffer.pairs_cleared (buf : SdBuffer n m) :
    SdBuffer.pairs (buf.map (fun _ => none) : SdBuffer n m) = [] := by
  cases buf <;> rfl

/-- After `reset` both buffers are empty. -/
theorem reset_reports {sw : IQSwitch n m} (h : sw.Reporting) :
    (Simulator.resetSwitch sw).getArrivals = [] ∧ (Simulator.resetSwitch sw).getDepartures = [] ∧
      (Simulator.resetSwitch sw).Reporting := by
  cases sw with
  | simplified sw =>
    exact ⟨SdBuffer.pairs_cleared sw.arrivals, SdBuffer.pairs_cleared sw.departures, trivial⟩
  | generic gw =>
    exact ⟨SdBuffer.pairs_cleared gw.arrivals, SdBuffer.pairs_cleared gw.departures, h.1,
      fun _ _ _ hpkt => absurd hpkt List.not_mem_nil⟩

section

variable {S : SchedulerModel n m} {resetScheduler : S.State → S.State} {sys sys' : System S}

theorem Calls.reporting (h : Calls S resetScheduler sys sys') (hstart : sys.switch.Reporting) :
    sys'.switch.Reporting := by
  induction h with
  | refl => exact hstart
  | switching input channels _ hok ih => exact (switching_reports ih hok).2
  | reset _ ih => exact (reset_reports ih).2.2

/-- After any calls of `switching` and `reset`, with any scheduler: the buffers report the next slot
    and nothing else, and `reset` empties them. -/
theorem buffers_of_calls (hstart : sys.switch.Constructed)
    (hcalls : Calls S resetScheduler sys sys') :
    (∀ (input : S.Input) (channels : Fin n → List (Packet n m)) (next : System S),
      switching S input channels sys' = .ok next →
      Reports (S.inMatch next.scheduler) channels sys'.switch next.switch) ∧
    (Simulator.resetSwitch sys'.switch).getArrivals = [] ∧
    (Simulator.resetSwitch sys'.switch).getDepartures = [] := by
  have hreporting := hcalls.reporting hstart.reporting
  obtain ⟨harrivals, hdepartures, -⟩ := reset_reports hreporting
  exact ⟨fun input channels next hok => (switching_reports hreporting hok).1, harrivals,
    hdepartures⟩

end

/-- A slot with two packets at each of two inputs, then one without arrivals: the buffers report the
    second slot only. -/
theorem buffers_after_two_slots :
    ∃ sys sys' : System (decisions 2 2),
      sys.switch.getArrivals = [(0, 1), (0, 1), (1, 1), (1, 1)] ∧ sys'.switch.getArrivals = [] ∧
      sys'.switch.getDepartures = [(1, 1)] := by
  let start : System (decisions 2 2) :=
    ⟨.generic (GIQSwitch.construct true (fun _ => [])), fun _ => none⟩
  obtain ⟨sys', hrun, hdepartures⟩ := exists_of_returns
    (x := switching (decisions 2 2) (fun _ => none) (packetsFor 1 (fun _ => 2)) start >>=
      switching (decisions 2 2) (fun i => if i = 1 then some 1 else none)
        (packetsFor 1 (fun _ => 0)))
    (p := fun sys' => decide (sys'.switch.getDepartures = [(1, 1)])) (by decide)
  obtain ⟨sys, hok, hok'⟩ := bind_eq_ok.mp hrun
  have hstart : start.switch.Constructed := .generic (fun _ => [])
  have hrefl : Calls (decisions 2 2) id start start := .refl
  have hfirst := (buffers_of_calls hstart hrefl).1 _ _ _ hok
  have hsecond := (buffers_of_calls hstart (hrefl.switching _ _ hok)).1 _ _ _ hok'
  exact ⟨sys, sys', hfirst.arrivals.trans (by decide), hsecond.arrivals.trans (by decide),
    of_decide_eq_true hdepartures⟩

end SschedSimulator
