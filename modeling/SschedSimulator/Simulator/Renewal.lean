import SschedSimulator.Scheduler.Extensional
import SschedSimulator.Scheduler.Reset
import SschedSimulator.Simulator.Buffers

namespace SschedSimulator

open Foundation

/-!
# Simulators that have been reset

A simulator that has been reset differs from a new one in the buffers of its switch, which keep
their sizes, and in what its scheduler keeps over a reset.  Neither can be seen from outside.

* `IQSwitch.Alike`, `Simulator.Alike` — the states agree in all that matters;
* `SimulatorLoop.Alike.iteration` — two simulators stay so in an iteration;
* `SimulatorLoop.Alike.simulateOn` — so they do in any number of them;
* `Simulator.Renewable` — what is kept of a new simulator, so that a reset leads back to it.
-/

variable {n m : ℕ} {S : SchedulerModel n m}

/-! ### Schedulers -/

/-- One call of two schedulers that no continuation tells apart. -/
theorem SchedulerModel.Indistinguishable.schedule {st st' : S.State}
    (h : S.Indistinguishable st st') (input : S.Input) (sw : IQSwitch n m) :
    Lockstep (fun a b => S.inMatch a = S.inMatch b ∧ S.Indistinguishable a b)
      (S.schedule input sw st) (S.schedule input sw st') := by
  have hfirst : Lockstep (fun a b => S.inMatch a = S.inMatch b)
      (S.schedule input sw st) (S.schedule input sw st') := h (fun _ => (input, sw)) 0
  rcases hfirst.cases with ⟨a, b, ha, hb, hmatch⟩ | ⟨e, ha, hb⟩
  · rw [ha, hb]
    refine ⟨hmatch, fun slots T => ?_⟩
    -- A continuation of the call is one of the states before it.
    have hall := h (fun t => t.casesOn (input, sw) slots) (T + 1)
    rw [steps_succ_eq_bind, steps_succ_eq_bind] at hall
    change Lockstep _ (S.schedule input sw st >>= _) (S.schedule input sw st' >>= _) at hall
    rw [ha, hb] at hall
    exact hall
  · rw [ha, hb]
    exact rfl

/-- With switches that look the same. -/
theorem SchedulerModel.Indistinguishable.schedule_congr (hS : S.Extensional) {st st' : S.State}
    (h : S.Indistinguishable st st') (input : S.Input) {sw sw' : IQSwitch n m}
    (harrivals : sw.getArrivals = sw'.getArrivals)
    (hlength : sw.getQueueLength = sw'.getQueueLength) :
    Lockstep (fun a b => S.inMatch a = S.inMatch b ∧ S.Indistinguishable a b)
      (S.schedule input sw st) (S.schedule input sw' st') := by
  rw [hS input sw sw' st harrivals hlength]
  exact h.schedule input sw'

/-! ### Switches -/

/-- The switches agree in all but their buffers. -/
structure GIQSwitch.Alike (a b : GIQSwitch n m) : Prop where
  info : a.enableDepartureInfo = b.enableDepartureInfo
  queue : a.virtualOutputQueue = b.virtualOutputQueue
  delay : a.delay = b.delay
  time : a.time = b.time
  channel : a.outputChannel = b.outputChannel

/-- The switches are of one class and agree in all but their buffers. -/
inductive IQSwitch.Alike : IQSwitch n m → IQSwitch n m → Prop where
  | simplified {a b : SIQSwitch n m} (length : a.queueLenMat = b.queueLenMat) :
      IQSwitch.Alike (.simplified a) (.simplified b)
  | generic {a b : GIQSwitch n m} (alike : a.Alike b) : IQSwitch.Alike (.generic a) (.generic b)

namespace GIQSwitch

variable {a b : GIQSwitch n m}

/-- A switch is like itself. -/
theorem Alike.refl (a : GIQSwitch n m) : a.Alike a := ⟨rfl, rfl, rfl, rfl, rfl⟩

theorem Alike.trans {c : GIQSwitch n m} (h : a.Alike b) (h' : b.Alike c) : a.Alike c :=
  ⟨h.info.trans h'.info, h.queue.trans h'.queue, h.delay.trans h'.delay, h.time.trans h'.time,
    h.channel.trans h'.channel⟩

/-- The departure buffers may hold anything. -/
theorem Alike.of_buffers (h : a.Alike b) (buf buf' : SdBuffer n m) :
    ({ a with departures := buf } : GIQSwitch n m).Alike { b with departures := buf' } :=
  ⟨h.info, h.queue, h.delay, h.time, h.channel⟩

/-- Reading the same packets keeps switches alike. -/
theorem Alike.readInputs (h : a.Alike b) (channels : Fin n → List (Packet n m)) :
    (a.readInputs channels).Alike (b.readInputs channels) := by
  obtain ⟨htime, hdelay, hinfo, hchannel⟩ := a.readInputs_frame channels
  obtain ⟨htime', hdelay', hinfo', hchannel'⟩ := b.readInputs_frame channels
  refine ⟨by rw [hinfo, hinfo', h.info], funext₂ (fun s d => ?_), by rw [hdelay, hdelay', h.delay],
    by rw [htime, htime', h.time], by rw [hchannel, hchannel', h.channel]⟩
  rw [readInputs_queue, readInputs_queue, h.queue, h.time]

/-- The same packet leaves, with the same stamp. -/
theorem Alike.sendHead (h : a.Alike b) (src : Fin n) (dst : Fin m) (pkt : Packet n m)
    (rest : List (Packet n m)) :
    (a.sendHead src dst pkt rest).Alike (b.sendHead src dst pkt rest) := by
  unfold GIQSwitch.sendHead
  refine ⟨h.info, ?_, h.delay, h.time, ?_⟩
  · show update₂ _ _ _ _ = update₂ _ _ _ _
    rw [h.queue]
  · show Function.update _ _ _ = Function.update _ _ _
    rw [h.channel, h.time, h.delay]

/-- Both switches serve the same row, or stop with the same fault. -/
theorem Alike.writeOutputs (h : a.Alike b) (inMatch : Fin n → Option (Fin m)) :
    Lockstep GIQSwitch.Alike (a.writeOutputs inMatch) (b.writeOutputs inMatch) := by
  unfold GIQSwitch.writeOutputs
  rw [h.info]
  -- both loops look at the queues alone; the buffer of departures is written and never read
  split
  · have hloop : Lockstep (fun acc acc' : GIQSwitch n m × ℕ => acc.1.Alike acc'.1)
        ((List.finRange n).foldlM (writeInputEnabled inMatch) (a, 0))
        ((List.finRange n).foldlM (writeInputEnabled inMatch) (b, 0)) := by
      refine Lockstep.foldlM h (fun src _ acc acc' hacc => ?_)
      unfold writeInputEnabled
      cases inMatch src with
      | none => exact hacc.of_buffers _ _
      | some dst =>
        dsimp only
        rw [hacc.queue]
        cases acc'.1.virtualOutputQueue src dst with
        | nil => exact hacc.of_buffers _ _
        | cons pkt rest => exact (hacc.sendHead src dst pkt rest).of_buffers _ _
    exact hloop.bind (fun _ _ hacc => hacc)
  · have hloop : Lockstep (fun acc acc' : GIQSwitch n m × (Fin m → Bool) =>
          acc.1.Alike acc'.1 ∧ acc.2 = acc'.2)
        ((List.finRange n).foldlM (writeInputDisabled inMatch) (a, fun _ => false))
        ((List.finRange n).foldlM (writeInputDisabled inMatch) (b, fun _ => false)) := by
      refine Lockstep.foldlM ⟨h, rfl⟩ (fun src _ acc acc' hacc => ?_)
      obtain ⟨halike, hused⟩ := hacc
      unfold writeInputDisabled
      cases inMatch src with
      | none => exact ⟨halike, hused⟩
      | some dst =>
        dsimp only
        rw [halike.queue, hused]
        cases acc'.1.virtualOutputQueue src dst with
        | nil => exact ⟨halike, hused⟩
        | cons pkt rest =>
          exact Lockstep.bind_same _ (fun _ => ⟨halike.sendHead src dst pkt rest, rfl⟩)
    exact hloop.bind (fun _ _ hacc => hacc.1)

end GIQSwitch

namespace IQSwitch

variable {sw sw' : IQSwitch n m}

theorem Alike.refl (sw : IQSwitch n m) : sw.Alike sw := by
  cases sw with
  | simplified a => exact .simplified rfl
  | generic a => exact .generic (.refl a)

theorem Alike.trans {sw'' : IQSwitch n m} (h : sw.Alike sw') (h' : sw'.Alike sw'') :
    sw.Alike sw'' := by
  cases h with
  | simplified hlength =>
    cases h' with
    | simplified hlength' => exact .simplified (hlength.trans hlength')
  | generic halike =>
    cases h' with
    | generic halike' => exact .generic (halike.trans halike')

/-- Schedulers see the same lengths. -/
theorem Alike.getQueueLength (h : sw.Alike sw') : sw.getQueueLength = sw'.getQueueLength := by
  cases h with
  | simplified hlength => exact hlength
  | generic halike =>
    funext s d
    exact congrArg List.length (congrFun₂ halike.queue s d)

/-- Switches that are alike stay so when they read. -/
theorem Alike.readInputs (h : sw.Alike sw') (channels : Fin n → List (Packet n m)) :
    (sw.readInputs channels).Alike (sw'.readInputs channels) := by
  cases h with
  | @simplified a b hlength =>
    -- the lengths grow by the same arrivals
    refine .simplified (funext₂ (fun s d => ?_))
    have ha := readInputs_queueLength (.simplified a) channels s d
    have hb := readInputs_queueLength (.simplified b) channels s d
    exact ha.trans ((congrArg (· + _) (congrFun₂ hlength s d)).trans hb.symm)
  | generic halike => exact .generic (halike.readInputs channels)

/-- Both timers go on. -/
theorem Alike.tick (h : sw.Alike sw') : sw.tick.Alike sw'.tick := by
  cases h with
  | simplified hlength => exact .simplified hlength
  | generic halike =>
    exact .generic ⟨halike.info, halike.queue, halike.delay, congrArg (· + 1) halike.time,
      halike.channel⟩

/-- A simplified switch that has written reports the same as another. -/
def SameReport : IQSwitch n m → IQSwitch n m → Prop
  | simplified a, simplified b => a.departures.pairs = b.departures.pairs
  | _, _ => True

/-- Writing the same matching. -/
theorem Alike.writeOutputs (h : sw.Alike sw') (inMatch : Fin n → Option (Fin m)) :
    Lockstep (fun a b => a.Alike b ∧ a.SameReport b) (sw.writeOutputs inMatch)
      (sw'.writeOutputs inMatch) := by
  cases h with
  | @simplified a b hlength =>
    obtain ⟨a', ha⟩ := a.writeOutputs_eq_ok inMatch
    obtain ⟨b', hb⟩ := b.writeOutputs_eq_ok inMatch
    rw [writeOutputs_simplified ha, writeOutputs_simplified hb]
    refine ⟨.simplified (funext₂ (fun s d => ?_)), ?_⟩
    · have ha' := (writeOutputs_post (.simplified a) inMatch).of_ok (writeOutputs_simplified ha) s d
      have hb' := (writeOutputs_post (.simplified b) inMatch).of_ok (writeOutputs_simplified hb) s d
      exact ha'.trans ((congrArg (· - _) (congrFun₂ hlength s d)).trans hb'.symm)
    · show a'.departures.pairs = b'.departures.pairs
      rw [SIQSwitch.departures_eq ha, SIQSwitch.departures_eq hb, hlength]
  | generic halike =>
    exact (halike.writeOutputs inMatch).bind (fun _ _ hab => ⟨.generic hab, trivial⟩)

end IQSwitch

/-! ### Systems -/

/-- The switches agree in all but their buffers, and no continuation tells the schedulers apart. -/
structure System.Alike (sys sys' : System S) : Prop where
  switch : sys.switch.Alike sys'.switch
  scheduler : S.Indistinguishable sys.scheduler sys'.scheduler

/-- One slot. -/
theorem System.Alike.switching (hS : S.Extensional) {sys sys' : System S} (h : sys.Alike sys')
    (input : S.Input) (channels : Fin n → List (Packet n m)) :
    Lockstep (fun a b => a.Alike b ∧ a.switch.SameReport b.switch)
      (SschedSimulator.switching S input channels sys)
      (SschedSimulator.switching S input channels sys') := by
  have hread := h.switch.readInputs channels
  -- what a scheduler asks a switch for does not depend on the buffers before the slot
  have harrivals : (sys.switch.readInputs channels).getArrivals
      = (sys'.switch.readInputs channels).getArrivals := by
    rw [IQSwitch.readInputs_arrivals, IQSwitch.readInputs_arrivals]
  refine (h.scheduler.schedule_congr hS input harrivals hread.getQueueLength).bind
    (fun st st' hst => ?_)
  obtain ⟨hmatch, hsched⟩ := hst
  rw [hmatch]
  refine (hread.writeOutputs (S.inMatch st')).bind (fun sw sw' hsw => ?_)
  obtain ⟨hsw, hreport⟩ := hsw
  refine ⟨⟨hsw.tick, hsched⟩, ?_⟩
  cases hsw with
  | simplified _ => exact hreport
  | generic _ => trivial

/-! ### Simulators -/

namespace Simulator

/-- `departing` of two switches that have just written. -/
theorem departing_lockstep {sw sw' : IQSwitch n m} (h : sw.Alike sw')
    (hreport : sw.SameReport sw') :
    Lockstep (fun r r' => r.1.Alike r'.1 ∧ r.2 = r'.2) (departing sw) (departing sw') := by
  cases h with
  | @simplified a b hlength =>
    refine ⟨.simplified hlength, ?_⟩
    show (([], a.departures.pairs.length) : List ℤ × ℕ) = ([], b.departures.pairs.length)
    rw [show a.departures.pairs = b.departures.pairs from hreport]
  | @generic a b halike =>
    unfold departing
    dsimp only
    rw [halike.channel]
    exact Lockstep.bind_same _ (fun acc =>
      ⟨.generic ⟨halike.info, halike.queue, halike.delay, halike.time, rfl⟩, rfl⟩)

/-- The simulators agree in all that an iteration reads. -/
structure Alike (sim sim' : Simulator S) : Prop where
  system : sim.system.Alike sim'.system
  inputChannels : sim.inputChannels = sim'.inputChannels
  outputChannels : sim.outputChannels = sim'.outputChannels
  totalArrivals : sim.totalArrivals = sim'.totalArrivals
  totalDepartures : sim.totalDepartures = sim'.totalDepartures
  delay : sim.delay = sim'.delay
  totalQueueLength : sim.totalQueueLength = sim'.totalQueueLength

theorem Alike.refl (sim : Simulator S) : sim.Alike sim where
  system := ⟨.refl _, .of_schedule_eq (fun _ _ => rfl)⟩
  inputChannels := rfl
  outputChannels := rfl
  totalArrivals := rfl
  totalDepartures := rfl
  delay := rfl
  totalQueueLength := rfl

/-- The output channels hold the same packets. -/
theorem outputChannel_congr {sw sw' : IQSwitch n m} (h : sw.Alike sw')
    (others : Fin m → List (Packet n m)) : outputChannel others sw = outputChannel others sw' := by
  cases h with
  | simplified _ => rfl
  | generic halike => exact halike.channel

end Simulator

namespace SimulatorLoop

/-- Two loops that have come equally far. -/
structure Alike (st st' : SimulatorLoop S) : Prop where
  sim : st.sim.Alike st'.sim
  n : st.n = st'.n
  numStallPackets : st.numStallPackets = st'.numStallPackets

/-- A slot of the loop, with a scheduler that reads no more than arrivals and lengths. -/
theorem Alike.slot (hS : S.Extensional) {sys sys' : System S} (h : sys.Alike sys')
    (input : S.Input) (channels : Fin n → List (Packet n m)) :
    Lockstep (fun a b => a.Alike b ∧ a.switch.SameReport b.switch)
      (SimulatorLoop.slot input channels sys) (SimulatorLoop.slot input channels sys') := by
  have hslot := h.switching hS input channels
  unfold SimulatorLoop.slot
  rcases hslot.cases with ⟨a, b, ha, hb, hab⟩ | ⟨e, ha, hb⟩
  · rw [ha, hb]
    exact hab
  · rw [ha, hb]
    exact rfl

/-- An iteration of the loop, the injected packets and the instruments included. -/
theorem Alike.iteration (hS : S.Extensional) {st st' : SimulatorLoop S} (h : st.Alike st')
    (input : S.Input) (inject : Fin n → Option (Fin m)) :
    Lockstep Alike (SimulatorLoop.iteration input inject st)
      (SimulatorLoop.iteration input inject st') := by
  rw [iteration_eq, iteration_eq, h.sim.inputChannels]
  refine (Alike.slot hS h.sim.system input _).bind (fun sys sys' hsys => ?_)
  obtain ⟨hsys, hreport⟩ := hsys
  refine (Simulator.departing_lockstep hsys.switch hreport).bind (fun r r' hr => ?_)
  obtain ⟨hswitch, hcounts⟩ := hr
  unfold advance
  rw [hcounts, h.n, h.numStallPackets]
  exact
    { sim :=
        { system := ⟨hswitch, hsys.scheduler⟩
          inputChannels := rfl
          outputChannels := h.sim.outputChannels
          totalArrivals := congrArg (· + _) h.sim.totalArrivals
          totalDepartures := congrArg (· + _) h.sim.totalDepartures
          delay := congrArg (Option.map _) h.sim.delay
          totalQueueLength := congrArg (Option.map _) h.sim.totalQueueLength }
      n := rfl
      numStallPackets := rfl }

/-- What is done before the first iteration. -/
theorem Alike.start {sim sim' : Simulator S} (h : sim.Alike sim') :
    Lockstep Alike (SimulatorLoop.start sim) (SimulatorLoop.start sim') := by
  unfold SimulatorLoop.start
  rw [h.system.switch.getQueueLength, h.inputChannels, h.outputChannels,
    Simulator.outputChannel_congr h.system.switch]
  exact Lockstep.bind_same _ (fun _ => Lockstep.bind_same _ (fun _ =>
    Lockstep.bind_same _ (fun _ => ⟨h, rfl, rfl⟩)))

/-- Both loops go on, or both stop. -/
theorem Alike.goOn {st st' : SimulatorLoop S} (h : st.Alike st') :
    Lockstep Alike (SimulatorLoop.goOn st) (SimulatorLoop.goOn st') := by
  unfold SimulatorLoop.goOn
  rw [h.n, h.sim.delay]
  exact Lockstep.bind_same _ (fun _ => h)

/-- Any number of iterations. -/
theorem Alike.simulateOn (hS : S.Extensional) {sim sim' : Simulator S} (h : sim.Alike sim')
    (inputs : ℕ → S.Input) (injects : ℕ → Fin n → Option (Fin m)) (k : ℕ) :
    Lockstep Alike (SimulatorLoop.simulateOn sim inputs injects k)
      (SimulatorLoop.simulateOn sim' inputs injects k) := by
  induction k with
  | zero => exact Alike.start h
  | succ k ih =>
    refine ih.bind (fun st st' hst => ?_)
    exact hst.goOn.bind (fun a b hab => hab.iteration hS (inputs k) (injects k))

end SimulatorLoop

/-! ### Resets -/

namespace Simulator

/-- A reset forgets what was read, -/
theorem resetSwitch_readInputs (sw : IQSwitch n m) (channels : Fin n → List (Packet n m)) :
    (resetSwitch (sw.readInputs channels)).Alike (resetSwitch sw) := by
  cases sw with
  | simplified a => exact .simplified rfl
  | generic a =>
    obtain ⟨-, hdelay, hinfo, -⟩ := a.readInputs_frame channels
    exact .generic ⟨hinfo, rfl, hdelay, rfl, rfl⟩

/-- what was written -/
theorem resetSwitch_writeOutputs {sw sw' : IQSwitch n m} {inMatch : Fin n → Option (Fin m)}
    (h : sw.writeOutputs inMatch = .ok sw') : (resetSwitch sw').Alike (resetSwitch sw) := by
  cases sw with
  | simplified a =>
    obtain ⟨a', -, ha'⟩ := bind_eq_ok.mp h
    obtain rfl := Except.ok.inj ha'
    exact .simplified rfl
  | generic a =>
    obtain ⟨a', hwrite, ha'⟩ := bind_eq_ok.mp h
    obtain rfl := Except.ok.inj ha'
    have hwritten := GIQSwitch.writeOutputs_written hwrite
    exact .generic ⟨hwritten.info, rfl, hwritten.delay, rfl, rfl⟩

/-- A reset forgets how far the timer has come. -/
theorem resetSwitch_tick (sw : IQSwitch n m) : (resetSwitch sw.tick).Alike (resetSwitch sw) := by
  cases sw with
  | simplified a => exact .simplified rfl
  | generic a => exact .generic ⟨rfl, rfl, rfl, rfl, rfl⟩

/-- and what was drained. -/
theorem resetSwitch_departing {sw : IQSwitch n m} {r : IQSwitch n m × List ℤ × ℕ}
    (h : departing sw = .ok r) : (resetSwitch r.1).Alike (resetSwitch sw) := by
  cases sw with
  | simplified a =>
    cases h
    exact .simplified rfl
  | generic a =>
    obtain ⟨acc, -, hacc⟩ := bind_eq_ok.mp h
    cases hacc
    exact .generic ⟨rfl, rfl, rfl, rfl, rfl⟩

/-- A reset forgets the slots that a switch has gone through. -/
theorem resetSwitch_switching {input : S.Input} {channels : Fin n → List (Packet n m)}
    {sys next : System S} (h : switching S input channels sys = .ok next) :
    (resetSwitch next.switch).Alike (resetSwitch sys.switch) := by
  obtain ⟨st, -, h'⟩ := bind_eq_ok.mp h
  obtain ⟨sw, hwrite, h''⟩ := bind_eq_ok.mp h'
  obtain rfl := Except.ok.inj h''
  exact (resetSwitch_tick sw).trans
    ((resetSwitch_writeOutputs hwrite).trans (resetSwitch_readInputs sys.switch channels))

/-- A simulator as the constructor builds it: a reset would not change it. -/
structure New (conf : SchedulerConf n m) (sim : Simulator conf.model) : Prop where
  switch : (resetSwitch sim.system.switch).Alike sim.system.switch
  scheduler : sim.system.scheduler = conf.create
  inputChannels : sim.inputChannels = fun _ => []
  outputChannels : sim.outputChannels = fun _ => []
  totalArrivals : sim.totalArrivals = 0
  totalDepartures : sim.totalDepartures = 0
  delay : sim.delay.map (fun _ => []) = sim.delay
  totalQueueLength : sim.totalQueueLength.map (fun _ => []) = sim.totalQueueLength

/-- What simulations keep of the simulator `new`. -/
structure Renewable (conf : SchedulerConf n m) (new sim : Simulator conf.model) : Prop where
  switch : (resetSwitch sim.system.switch).Alike new.system.switch
  scheduler : conf.Reachable sim.system.scheduler
  delay : sim.delay.map (fun _ => []) = new.delay
  totalQueueLength : sim.totalQueueLength.map (fun _ => []) = new.totalQueueLength

variable {conf : SchedulerConf n m} {new sim : Simulator conf.model}

/-- A new simulator is what simulations keep of it. -/
theorem New.renewable (h : New conf new) : Renewable conf new new where
  switch := h.switch
  scheduler := h.scheduler ▸ .create
  delay := h.delay
  totalQueueLength := h.totalQueueLength

/-- A reset leads back to the new simulator. -/
theorem Renewable.reset (h : Renewable conf new sim) (hnew : New conf new)
    (hfull : conf.ResetsFully sim.system.scheduler) : (sim.reset conf.reset).Alike new where
  system :=
    { switch := h.switch
      scheduler := by
        rw [hnew.scheduler]
        exact conf.reset_indistinguishable h.scheduler hfull }
  inputChannels := hnew.inputChannels.symm
  outputChannels := hnew.outputChannels.symm
  totalArrivals := hnew.totalArrivals.symm
  totalDepartures := hnew.totalDepartures.symm
  delay := h.delay
  totalQueueLength := h.totalQueueLength

/-- A reset keeps it. -/
theorem Renewable.renewed (h : Renewable conf new sim) :
    Renewable conf new (sim.reset conf.reset) where
  switch := by
    -- a second reset changes nothing
    refine IQSwitch.Alike.trans ?_ h.switch
    show (resetSwitch (resetSwitch sim.system.switch)).Alike (resetSwitch sim.system.switch)
    cases sim.system.switch with
    | simplified a => exact .simplified rfl
    | generic a => exact .generic ⟨rfl, rfl, rfl, rfl, rfl⟩
  scheduler := h.scheduler.reset
  delay := by
    rw [← h.delay]
    exact Option.map_map _ _ sim.delay
  totalQueueLength := by
    rw [← h.totalQueueLength]
    exact Option.map_map _ _ sim.totalQueueLength

end Simulator

namespace SimulatorLoop

open Simulator

variable {conf : SchedulerConf n m} {new : Simulator conf.model}

/-- An iteration keeps it. -/
theorem renewable_iteration {st st' : SimulatorLoop conf.model} (h : Renewable conf new st.sim)
    {input : conf.model.Input} {inject : Fin n → Option (Fin m)}
    (hrun : iteration input inject st = .ok st') : Renewable conf new st'.sim := by
  rw [iteration_eq] at hrun
  obtain ⟨sys, hslot, hrun⟩ := bind_eq_ok.mp hrun
  obtain ⟨r, hr, hrun⟩ := bind_eq_ok.mp hrun
  obtain rfl := Except.ok.inj hrun
  have hswitching : switching conf.model input (arriving inject st.sim.inputChannels).1
      st.sim.system = .ok sys := by
    unfold slot at hslot
    split at hslot
    · rename_i hok
      rw [hok, Except.ok.inj hslot]
    · cases hslot
  refine ⟨?_, ?_, ?_, ?_⟩
  · exact (resetSwitch_departing hr).trans ((resetSwitch_switching hswitching).trans h.switch)
  · have hsched := schedule_of_switching hswitching
    exact .schedule _ _ h.scheduler hsched
  · rw [← h.delay]
    exact Option.map_map _ _ st.sim.delay
  · rw [← h.totalQueueLength]
    exact Option.map_map _ _ st.sim.totalQueueLength

/-- A whole measurement keeps it, if it returns. -/
theorem renewable_simulateOn {sim : Simulator conf.model} (h : Renewable conf new sim)
    (inputs : ℕ → conf.model.Input) (injects : ℕ → Fin n → Option (Fin m)) (k : ℕ) :
    Post (simulateOn sim inputs injects k) (fun _ => True)
      (fun st => Renewable conf new st.sim) := by
  induction k with
  | zero =>
    unfold simulateOn start
    exact Post.require_bind (fun _ => trivial) (fun _ => Post.require_bind (fun _ => trivial)
      (fun _ => Post.require_bind (fun _ => trivial) (fun _ => h)))
  | succ k ih =>
    refine ih.bind (fun st hst => ?_)
    refine Post.bind (P := fun st' => st' = st) ?_ (fun st' hst' => ?_)
    · exact Post.require_bind (fun _ => trivial) (fun _ => rfl)
    · subst hst'
      cases hrun : iteration (inputs k) (injects k) st' with
      | error e => trivial
      | ok next => exact renewable_iteration hst hrun

end SimulatorLoop

end SschedSimulator
