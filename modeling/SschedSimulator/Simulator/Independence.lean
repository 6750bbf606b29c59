import SschedSimulator.Simulator.Renewal
import SschedSimulator.Simulator.SweepSafety

namespace SschedSimulator

open Foundation

/-!
# Every point of a sweep is measured as by a new simulator

The points of a sweep share one simulator, which is reset after each of them.  No reset touches the
random engines: what is drawn and injected at a point goes on from the points before.  If the reset
of the scheduler is a full one, that is all that is handed on: with the same draws and packets a new
simulator for each point records the same, whatever the loads, patterns and sweeps before.

* `SweepConfig.measureAlone`, `sweepAlone` — the sweep of a pattern with new simulators;
* `sweepAlone_of_cutOff` — what it records;
* `SchedulerConf.sweeps_eq_alone` — any number of calls of `simulate` record the same.
-/

variable {n m : ℕ} {S : SchedulerModel n m}

instance (row : Measured) : Decidable row.Unstable :=
  match h : row.throughput with
  | none => isFalse (fun ⟨_, hq, _⟩ => by rw [h] at hq; cases hq)
  | some q => decidable_of_iff (q < thresThroughput)
      ⟨fun hlt => ⟨q, h, hlt⟩, fun ⟨_, hq, hlt⟩ => by
        rw [h] at hq
        rwa [Option.some.inj hq]⟩

/-- What the simulator `new` measures in one call of `simulate_on`, with the draws and the packets of
    that call. -/
def SweepConfig.measureAlone (cfg : SweepConfig S) (new : Simulator S) (run : PointRun S) :
    Except SimulatorFault Measured := do
  let st ← cfg.simulateLoop run new
  .ok (cfg.measured st)

/-- The sweep of a pattern, with `measure` for each point, up to the first that is not stable. -/
def sweepAlone (measure : ℚ × ℚ → Except SimulatorFault Measured) :
    List (ℚ × ℚ) → Except SimulatorFault (List ((ℚ × ℚ) × Measured))
  | [] => .ok []
  | p :: rest => do
    let row ← measure p
    if row.Unstable then .ok [(p, row)]
    else do
      let rows ← sweepAlone measure rest
      .ok ((p, row) :: rows)

/-- Without its first row, which was stable. -/
theorem CutOff.tail {p : ℚ × ℚ} {points : List (ℚ × ℚ)} {row : (ℚ × ℚ) × Measured}
    {rows : List ((ℚ × ℚ) × Measured)} (h : CutOff (p :: points) (row :: rows))
    (hrow : ¬ row.2.Unstable) : CutOff points rows where
  recorded := by
    have hrecorded := h.recorded
    rw [List.map_cons] at hrecorded
    exact (List.cons_prefix_cons.mp hrecorded).2
  stable := by
    -- a row that is not the last one is not the last one of more rows
    intro row' hrow'
    refine h.stable row' ?_
    cases rows with
    | nil => cases hrow'
    | cons next rest =>
      rw [List.dropLast_cons_of_ne_nil (List.cons_ne_nil next rest)]
      exact List.mem_cons_of_mem row hrow'
  cut := by
    intro hlt
    have hcut := h.cut (by simpa using hlt)
    cases rows with
    | nil =>
      obtain ⟨row', hlast, hun⟩ := hcut
      obtain rfl : row = row' := by simpa using hlast
      exact absurd hun hrow
    | cons next rest => rwa [List.getLast?_cons_cons] at hcut

theorem sweepAlone_of_cutOff {measure : ℚ × ℚ → Except SimulatorFault Measured}
    {points : List (ℚ × ℚ)} {rows : List ((ℚ × ℚ) × Measured)} (h : CutOff points rows)
    (hmeasure : ∀ row ∈ rows, measure row.1 = .ok row.2) :
    sweepAlone measure points = .ok rows := by
  induction points generalizing rows with
  | nil =>
    obtain rfl : rows = [] := by
      have hnil := List.prefix_nil.mp h.recorded
      exact List.map_eq_nil_iff.mp hnil
    rfl
  | cons p points ih =>
    cases rows with
    | nil =>
      -- a sweep that has points measures one
      obtain ⟨row, hrow, -⟩ := h.cut (Nat.zero_lt_succ _)
      cases hrow
    | cons row rows =>
      have hp : row.1 = p := by
        have hrecorded := h.recorded
        rw [List.map_cons] at hrecorded
        exact (List.cons_prefix_cons.mp hrecorded).1
      subst hp
      rw [sweepAlone, hmeasure row List.mem_cons_self, ok_bind]
      by_cases hun : row.2.Unstable
      · -- It is the last one.
        cases rows with
        | nil => rw [if_pos hun]
        | cons next rest =>
          have hstable := h.stable row (by simp)
          exact absurd hun hstable
      · have hrest := ih (h.tail hun)
          (fun row' hrow' => hmeasure row' (List.mem_cons_of_mem row hrow'))
        rw [if_neg hun, hrest, ok_bind]

namespace SweepConfig

/-- The loop of `simulate_on` in two simulators. -/
theorem simulateLoop_lockstep (hS : S.Extensional) {sim sim' : Simulator S} (h : sim.Alike sim')
    (cfg : SweepConfig S) (run : PointRun S) :
    Lockstep SimulatorLoop.Alike (cfg.simulateLoop run sim) (cfg.simulateLoop run sim') := by
  unfold simulateLoop
  split
  · exact (SimulatorLoop.Alike.simulateOn hS h run.inputs run.injects 1).bind (fun _ _ _ => rfl)
  · refine (SimulatorLoop.Alike.simulateOn hS h run.inputs run.injects run.iterations).bind
      (fun st st' hst => ?_)
    split
    · exact hst
    · exact hst.goOn

theorem measured_congr {cfg : SweepConfig S} {B : ℤ} (hbatch : ∀ st, cfg.getBatchSize st = B)
    {st st' : SimulatorLoop S} (h : st.Alike st') : cfg.measured st = cfg.measured st' := by
  unfold measured
  rw [h.n, h.sim.totalArrivals, h.sim.totalDepartures, h.sim.delay, h.sim.totalQueueLength, hbatch,
    hbatch]

/-- Whatever is recorded was measured by a simulator that is like the new one. -/
theorem recording_alone {conf : SchedulerConf n m}
    (hfull : ∀ st, conf.Reachable st → conf.ResetsFully st) {cfg : SweepConfig conf.model}
    (hreset : cfg.resetScheduler = conf.reset) {B : ℤ} (hbatch : ∀ st, cfg.getBatchSize st = B)
    {new : Simulator conf.model} (hnew : new.New conf)
    (runs : ℚ × ℚ → TrafficName → PointRun conf.model) :
    cfg.Recording runs (fun sim => sim.Alike new ∧ Simulator.Renewable conf new sim)
      (fun t row => cfg.measureAlone new (runs row.1 t) = .ok row.2) where
  row := by
    intro sim p t st hsim hrun
    have hloop := simulateLoop_lockstep conf.extensional hsim.1 cfg (runs p t)
    rw [hrun] at hloop
    unfold measureAlone
    rcases hloop.cases with ⟨_, st', hst, halone, hlike⟩ | ⟨e, hst, -⟩
    · obtain rfl := Except.ok.inj hst
      rw [halone, ok_bind, measured_congr hbatch hlike]
    · cases hst
  next := by
    intro sim p t st hsim hrun
    have hkept : Post (cfg.simulateLoop (runs p t) sim) (fun _ => True)
        (fun st => Simulator.Renewable conf new st.sim) := by
      unfold simulateLoop
      split
      · exact (SimulatorLoop.renewable_simulateOn hsim.2 _ _ _).bind (fun _ _ => trivial)
      · refine (SimulatorLoop.renewable_simulateOn hsim.2 _ _ _).bind (fun st hst => ?_)
        split
        · exact hst
        · exact Post.require_bind (fun _ => trivial) (fun _ => hst)
    have hst := hkept.of_ok hrun
    rw [hreset]
    exact ⟨hst.reset hnew (hfull _ hst.scheduler), hst.renewed⟩

end SweepConfig

/-- The sweeps of a switch with a scheduler of the factory whose resets are full and whose batch size
    is fixed: after any number of calls of `simulate` that returned, the arrays hold what a sweep
    with a new simulator for each point records, when it is given the same draws and packets. -/
theorem SchedulerConf.sweeps_eq_alone (conf : SchedulerConf n m)
    (hfull : ∀ st, conf.Reachable st → conf.ResetsFully st) {cfg : SweepConfig conf.model}
    (hreset : cfg.resetScheduler = conf.reset) {B : ℤ} (hbatch : ∀ st, cfg.getBatchSize st = B)
    (hpoints : cfg.points ≠ []) {calls : List (ℚ × ℚ → TrafficName → PointRun conf.model)}
    {sw sw' : Sweep conf.model} (hnew : sw.sim.New conf) (hisReset : sw.isReset = true)
    (hresults : ∀ t, sw.results t = TrafficResults.empty) (h : cfg.simulateAll calls sw = .ok sw')
    {t : TrafficName} (ht : t ∈ cfg.patterns) :
    ∃ rowss : List (List ((ℚ × ℚ) × Measured)),
      List.Forall₂ (fun runs rows =>
        sweepAlone (fun p => cfg.measureAlone sw.sim (runs p t)) cfg.points = .ok rows)
        calls rowss ∧
      (cfg.patterns.head? ≠ some t →
        sw'.results t = TrafficResults.ofRows cfg.bursty rowss.flatten) ∧
      (cfg.patterns.head? = some t → sw'.results t =
        { TrafficResults.ofRows cfg.bursty (rowss.getLastD []) with
          maximalQueueLength := rowss.flatten.map (fun row => row.2.maximalQueueLength) }) := by
  have hinv : (cfg.reset sw).sim.Alike sw.sim ∧
      Simulator.Renewable conf sw.sim (cfg.reset sw).sim := by
    rw [cfg.reset_of_isReset hisReset]
    exact ⟨.refl sw.sim, hnew.renewable⟩
  obtain ⟨rowss, hrowss, hafter⟩ := SweepConfig.results_of_recording hpoints
    (fun runs _ => SweepConfig.recording_alone hfull hreset hbatch hnew runs) hresults hinv h ht
  refine ⟨rowss, hrowss.imp (fun runs rows hrows => ?_), fun hne => ?_, fun heq => ?_⟩
  · exact sweepAlone_of_cutOff hrows.1 hrows.2
  · rw [hafter, SweepConfig.afterCalls_rest hne]
  · rw [hafter, SweepConfig.afterCalls_first heq]

/-- iSLIP with one iteration and all pointers at `0`. -/
abbrev islipAtZero : SchedulerConf 2 2 := .islip 1 (fun _ => 0) (fun _ => 0)

/-- In each of five slots both inputs get a packet for the same output. -/
def oneOutput (d : Fin 2) (_ : ℚ × ℚ) (_ : TrafficName) : PointRun islipAtZero.model where
  inputs := fun _ => ()
  injects := fun _ _ => some d
  iterations := 5
  outOfMemory := false

/-- Two sweeps, with packets for one output in the first and for the other in the second: the arrays
    of the second pattern hold what four new simulators measure. -/
theorem sweeps_eq_alone_islip :
    ∃ sw' rows rows',
      (twoLoads islipAtZero.model islipAtZero.reset).simulateAll [oneOutput 0, oneOutput 1]
        (newTwoPorts islipAtZero.model islipAtZero.create) = .ok sw' ∧
      sweepAlone (fun p => (twoLoads islipAtZero.model islipAtZero.reset).measureAlone
        (newTwoPorts islipAtZero.model islipAtZero.create).sim (oneOutput 0 p .uniform))
        (twoLoads islipAtZero.model islipAtZero.reset).points = .ok rows ∧
      sweepAlone (fun p => (twoLoads islipAtZero.model islipAtZero.reset).measureAlone
        (newTwoPorts islipAtZero.model islipAtZero.create).sim (oneOutput 1 p .uniform))
        (twoLoads islipAtZero.model islipAtZero.reset).points = .ok rows' ∧
      sw'.results .uniform = TrafficResults.ofRows false (rows ++ rows') := by
  obtain ⟨sw', hrun, -⟩ := exists_of_returns
    (x := (twoLoads islipAtZero.model islipAtZero.reset).simulateAll [oneOutput 0, oneOutput 1]
      (newTwoPorts islipAtZero.model islipAtZero.create)) (p := fun _ => true) (by decide +kernel)
  have hnew : Simulator.New islipAtZero (newTwoPorts islipAtZero.model islipAtZero.create).sim :=
    ⟨.simplified rfl, rfl, rfl, rfl, rfl, rfl, rfl, rfl⟩
  obtain ⟨rowss, hrowss, hrest, -⟩ := @SchedulerConf.sweeps_eq_alone 2 2 islipAtZero
    (fun _ _ => ⟨fun _ => rfl, fun _ => rfl⟩) (twoLoads islipAtZero.model islipAtZero.reset)
    rfl 1 (fun _ => rfl) (List.cons_ne_nil _ _) _ _ _ hnew rfl (fun _ => rfl) hrun .uniform
    (by decide)
  obtain ⟨rows, rest, hrows, hrowss', rfl⟩ := List.forall₂_cons_left_iff.mp hrowss
  obtain ⟨rows', rest', hrows', hrest', rfl⟩ := List.forall₂_cons_left_iff.mp hrowss'
  obtain rfl := List.forall₂_nil_left_iff.mp hrest'
  refine ⟨sw', rows, rows', hrun, hrows, hrows', ?_⟩
  rw [hrest (by decide)]
  simp [twoLoads]

end SschedSimulator
