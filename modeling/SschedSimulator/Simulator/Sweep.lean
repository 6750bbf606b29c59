import Mathlib.Data.Finset.Sort
import Mathlib.Data.Prod.Lex
import SschedSimulator.Saber.Stats
import SschedSimulator.Simulator.Simulator
import SschedSimulator.Simulator.StoppingRule

namespace SschedSimulator

open Foundation

/-!
# `simulate` — the sweep over loads and traffic patterns

The points of a sweep are the keys of the map `_injections`, so they come with ascending loads.  At
each of them every traffic pattern is simulated, unless the pattern was not stable at that load or a
lower one already.  The results of a pattern are kept in arrays, to which `simulate_on` appends.

* `mapOrder_ascending` — the order of the points;
* `CutOff` — a pattern is simulated at all points up to the first where it is not stable;
* `Recording.simulate_post` — what a call of `simulate` appends to the arrays;
* `SweepConfig.results_of_calls` — the arrays after any number of calls.  The first pattern starts
  its arrays anew in each call, but for that of the maximal queue lengths;
* `SweepConfig.results_of_profile` — the same for the points and patterns that are configured.
-/

/-! ### The profile -/

/-- The traffic patterns that `TrafficPatternFactory` creates, in the order of their keys in the map
    `_traffic_patterns`. -/
inductive TrafficName where
  | diagonal
  | logDiagonal
  | quasiDiagonal
  | uniform
  deriving DecidableEq, Repr

/-- The key. -/
def TrafficName.key : TrafficName → String
  | diagonal => "diagonal"
  | logDiagonal => "log_diagonal"
  | quasiDiagonal => "quasi_diagonal"
  | uniform => "uniform"

/-- What `load_traffic_profile` reads. -/
structure TrafficProfile where
  loads : List ℚ
  trafficPatternNames : List String
  injection : String
  /-- `"burst_size"`, if it is given -/
  burstSizes : Option (List ℚ)

/-- The exceptions of `load_traffic_profile`. -/
inductive ProfileFault where
  | missingArgument (message : String)
  | emptyArgument (message : String)
  deriving DecidableEq, Repr

namespace TrafficProfile

/-- `create_bernoulli_injection`: the keys. -/
def createBernoulliInjection (p : TrafficProfile) : List (ℚ × ℚ) :=
  p.loads.map (fun load => (load, -1))

/-- `create_onoff_injection`: the keys. -/
def createOnoffInjection (loads burstSizes : List ℚ) : Except ProfileFault (List (ℚ × ℚ)) := do
  require (¬ (burstSizes = [] ∨ loads = []))
    (.emptyArgument ("Both _burst_sizes and _loads CANNOT be empty "
      ++ "for create on off injections!"))
  .ok (burstSizes.flatMap (fun bs => loads.map (fun load => (load, bs))))

/-- `load_traffic_profile`, as far as it is about `_injections`: the keys that are assigned. -/
def keys (p : TrafficProfile) : Except ProfileFault (List (ℚ × ℚ)) :=
  if "onoff".toList <:+: p.injection.toList then
    match p.burstSizes with
    | none => .error (.missingArgument
        "Argument conf MUST contain \"burst_size\" for on off injections!")
    | some burstSizes => createOnoffInjection p.loads burstSizes
  else .ok p.createBernoulliInjection

/-- `load_traffic_profile`, as far as it is about `_traffic_patterns`, in the order of the map.  A
    name that the factory does not know leaves a null pointer, which is not followed here. -/
def patterns (p : TrafficProfile) : List TrafficName :=
  [.diagonal, .logDiagonal, .quasiDiagonal, .uniform].filter
    (fun t => decide (t.key ∈ p.trafficPatternNames))

theorem nodup_patterns (p : TrafficProfile) : p.patterns.Nodup := List.Nodup.filter _ (by decide)

/-- `_burst_sizes`, which only on off injections have. -/
def bursty (p : TrafficProfile) : Bool :=
  decide ("onoff".toList <:+: p.injection.toList ∧ p.burstSizes.getD [] ≠ [])

end TrafficProfile

/-- A map is traversed in the order of its keys, and keys are compared component by component. -/
def mapOrder (keys : List (ℚ × ℚ)) : List (ℚ × ℚ) :=
  ((keys.map toLex).toFinset.sort (· ≤ ·)).map ofLex

theorem mem_mapOrder {keys : List (ℚ × ℚ)} {p : ℚ × ℚ} : p ∈ mapOrder keys ↔ p ∈ keys := by
  obtain ⟨load, burst⟩ := p
  simp [mapOrder]

/-- So the loads ascend. -/
theorem mapOrder_ascending (keys : List (ℚ × ℚ)) :
    (mapOrder keys).Pairwise (fun p q => p.1 ≤ q.1) := by
  rw [mapOrder, List.pairwise_map]
  exact (Finset.pairwise_sort _ _).imp
    (fun hle => (Prod.Lex.le_iff.mp hle).elim le_of_lt (fun h => h.1.le))

/-! ### The results -/

/-- What of a run goes into the results; `none` is a value that is not a finite number. -/
structure Measured where
  throughput : Option ℚ
  meanDelay : Option ℚ
  delayVariance : Option ℚ
  totalQueueLengthAverage : Option ℚ
  totalQueueLengthVariance : Option ℚ
  maximalQueueLength : Option ℚ
  frameSize : ℤ
  enteredSteadyStage : Bool

/-- The arrays of a pattern in `_stats_results`; one that is missing is empty. -/
structure TrafficResults where
  load : List ℚ
  throughput : List (Option ℚ)
  meanDelay : List (Option ℚ)
  delayVariance : List (Option ℚ)
  burstSize : List ℚ
  totalQueueLengthAverage : List (Option ℚ)
  totalQueueLengthVariance : List (Option ℚ)
  maximalQueueLength : List (Option ℚ)
  enteredSteadyStage : List Bool
  frameSize : Option ℤ

namespace TrafficResults

/-- Before the first call. -/
def empty : TrafficResults := ⟨[], [], [], [], [], [], [], [], [], none⟩

/-- What `simulate_on` does in the first call; the array of the maximal queue lengths is not among
    those that are started anew. -/
def startAnew (bursty : Bool) (r : TrafficResults) : TrafficResults where
  load := []
  throughput := []
  meanDelay := []
  delayVariance := []
  burstSize := if bursty then [] else r.burstSize
  totalQueueLengthAverage := []
  totalQueueLengthVariance := []
  maximalQueueLength := r.maximalQueueLength
  enteredSteadyStage := []
  frameSize := r.frameSize

/-- What `simulate_on` appends, for a point and what was measured there. -/
def append (bursty : Bool) (row : (ℚ × ℚ) × Measured) (r : TrafficResults) : TrafficResults where
  load := r.load ++ [row.1.1]
  throughput := r.throughput ++ [row.2.throughput]
  meanDelay := r.meanDelay ++ [row.2.meanDelay]
  delayVariance := r.delayVariance ++ [row.2.delayVariance]
  burstSize := if bursty then r.burstSize ++ [row.1.2] else r.burstSize
  totalQueueLengthAverage := r.totalQueueLengthAverage ++ [row.2.totalQueueLengthAverage]
  totalQueueLengthVariance := r.totalQueueLengthVariance ++ [row.2.totalQueueLengthVariance]
  maximalQueueLength := r.maximalQueueLength ++ [row.2.maximalQueueLength]
  enteredSteadyStage := r.enteredSteadyStage ++ [row.2.enteredSteadyStage]
  frameSize := some row.2.frameSize

end TrafficResults

/-- `thres_throughput`. -/
def thresThroughput : ℚ := 999 / 1000

/-- The throughput is below the threshold; a comparison with what is no finite number fails. -/
def Measured.Unstable (row : Measured) : Prop := ∃ q, row.throughput = some q ∧ q < thresThroughput

/-- The comparison of the last throughput with the threshold. -/
def TrafficResults.lastUnstable (r : TrafficResults) : Bool :=
  match r.throughput.getLast? with
  | some (some q) => decide (q < thresThroughput)
  | _ => false

/-! ### A point -/

variable {n m : ℕ}

/-- The assertion of `simulate_on`, or what happens in its loop. -/
inductive SweepFault where
  /-- `assert(_reset)` -/
  | notReset
  | simulation (e : SimulatorFault)
  deriving DecidableEq, Repr

/-- A part of the simulation. -/
def SweepFault.within {α : Type} : Except SimulatorFault α → Except SweepFault α
  | .ok a => .ok a
  | .error e => .error (.simulation e)

/-- What is random about a call of `simulate_on`, how many iterations it has and whether the last
    one breaks because of the memory.  The engines that the draws and the packets come from are not
    part of the simulator here: no reset reseeds them, so that a call has what they come to in it. -/
structure PointRun (S : SchedulerModel n m) where
  inputs : ℕ → S.Input
  injects : ℕ → Fin n → Option (Fin m)
  iterations : ℕ
  outOfMemory : Bool

/-- The simulator with `_reset` and `_stats_results`. -/
structure Sweep (S : SchedulerModel n m) where
  sim : Simulator S
  isReset : Bool
  results : TrafficName → TrafficResults

/-- What a sweep depends on. -/
structure SweepConfig (S : SchedulerModel n m) where
  /-- `_injections` -/
  points : List (ℚ × ℚ)
  ascending : points.Pairwise (fun p q => p.1 ≤ q.1)
  /-- `_traffic_patterns` -/
  patterns : List TrafficName
  nodup : patterns.Nodup
  /-- `!_burst_sizes.empty()` -/
  bursty : Bool
  efforts : Efforts
  resetScheduler : S.State → S.State
  getBatchSize : S.State → ℤ

variable {S : SchedulerModel n m}

/-- What the constructor loads. -/
def SweepConfig.ofProfile (p : TrafficProfile) (efforts : Efforts)
    (resetScheduler : S.State → S.State) (getBatchSize : S.State → ℤ) :
    Except ProfileFault (SweepConfig S) := do
  let keys ← p.keys
  .ok
    { points := mapOrder keys
      ascending := mapOrder_ascending keys
      patterns := p.patterns
      nodup := p.nodup_patterns
      bursty := p.bursty
      efforts := efforts
      resetScheduler := resetScheduler
      getBatchSize := getBatchSize }

/-- The instrument that has seen the samples. -/
def instrumentOf (samples : List ℤ) : Stats :=
  samples.foldl (fun st val => st.addSample val) Stats.construct

namespace SweepConfig

/-- The values that `simulate_on` appends. -/
def measured (cfg : SweepConfig S) (st : SimulatorLoop S) : Measured where
  throughput := if st.sim.totalArrivals = 0 then none
    else some ((st.sim.totalDepartures : ℚ) / st.sim.totalArrivals)
  meanDelay := st.sim.delay.bind (fun l => (instrumentOf l).average.1)
  delayVariance := st.sim.delay.bind (fun l => (instrumentOf l).variance.1)
  totalQueueLengthAverage := st.sim.totalQueueLength.bind (fun l => (instrumentOf l).average.1)
  totalQueueLengthVariance := st.sim.totalQueueLength.bind (fun l => (instrumentOf l).variance.1)
  maximalQueueLength := st.sim.totalQueueLength.map (fun l => (instrumentOf l).max)
  frameSize := cfg.getBatchSize st.sim.system.scheduler
  enteredSteadyStage := decide (st.n < cfg.efforts.most.toSize)

/-- The loop of `simulate_on`.  Every iteration takes the remainder of `n` by the print interval, so
    that the first one is the last if that is zero. -/
def simulateLoop (cfg : SweepConfig S) (run : PointRun S) (sim : Simulator S) :
    Except SimulatorFault (SimulatorLoop S) :=
  if cfg.efforts.printInterval % 2 ^ 64 = 0 ∧ run.iterations ≠ 0 then do
    let _ ← SimulatorLoop.simulateOn sim run.inputs run.injects 1
    .error .divisionByZero
  else do
    let st ← SimulatorLoop.simulateOn sim run.inputs run.injects run.iterations
    -- The break because of the memory comes before the instrument `delay` is looked at.
    if run.outOfMemory then .ok st else SimulatorLoop.goOn st

/-- `simulate_on`. -/
def simulateOn (cfg : SweepConfig S) (run : PointRun S) (point : ℚ × ℚ) (t : TrafficName)
    (firstCall : Bool) (sw : Sweep S) : Except SweepFault (Sweep S) := do
  require (sw.isReset = true) .notReset
  let start := if firstCall then (sw.results t).startAnew cfg.bursty else sw.results t
  let st ← SweepFault.within (cfg.simulateLoop run sw.sim)
  .ok
    { sim := st.sim
      isReset := false
      results := Function.update sw.results t
        (start.append cfg.bursty (point, cfg.measured st)) }

/-- `reset`. -/
def reset (cfg : SweepConfig S) (sw : Sweep S) : Sweep S :=
  if sw.isReset then sw else { sw with sim := sw.sim.reset cfg.resetScheduler, isReset := true }

/-! ### The sweep -/

/-- The variables of `simulate`, next to the simulator. -/
structure Passing (S : SchedulerModel n m) extends Sweep S where
  /-- `stable_region_boundary` -/
  boundary : TrafficName → Option ℚ
  firstCall : Bool

/-- The current load is beyond the boundary. -/
def skips (boundary : TrafficName → Option ℚ) (t : TrafficName) (load : ℚ) : Bool :=
  match boundary t with
  | none => false
  | some x => decide (x ≤ load)

/-- The simulation of a pattern at a point, unless it is skipped. -/
def simulateUnlessSkipped (cfg : SweepConfig S) (runs : ℚ × ℚ → TrafficName → PointRun S)
    (acc : Passing S) (p : (ℚ × ℚ) × TrafficName) : Except SweepFault (Passing S) :=
  if skips acc.boundary p.2 p.1.1 then .ok acc
  else do
    let sw ← cfg.simulateOn (runs p.1 p.2) p.1 p.2 acc.firstCall acc.toSweep
    .ok
      { toSweep := sw
        boundary := if (sw.results p.2).lastUnstable
          then Function.update acc.boundary p.2 (some p.1.1) else acc.boundary
        firstCall := acc.firstCall }

/-- One pass of the inner loop of `simulate`. -/
def visit (cfg : SweepConfig S) (runs : ℚ × ℚ → TrafficName → PointRun S) (acc : Passing S)
    (p : (ℚ × ℚ) × TrafficName) : Except SweepFault (Passing S) := do
  let acc' ← cfg.simulateUnlessSkipped runs acc p
  .ok { toSweep := cfg.reset acc'.toSweep, boundary := acc'.boundary, firstCall := false }

/-- `simulate`. -/
def simulate (cfg : SweepConfig S) (runs : ℚ × ℚ → TrafficName → PointRun S) (sw : Sweep S) :
    Except SweepFault (Sweep S) := do
  let start : Passing S := ⟨cfg.reset sw, fun _ => none, true⟩
  let acc ← (cfg.points ×ˢ cfg.patterns).foldlM (cfg.visit runs) start
  .ok acc.toSweep

/-- A sequence of calls. -/
def simulateAll (cfg : SweepConfig S) (calls : List (ℚ × ℚ → TrafficName → PointRun S))
    (sw : Sweep S) : Except SweepFault (Sweep S) :=
  calls.foldlM (fun sw runs => cfg.simulate runs sw) sw

end SweepConfig

/-! ### Rows -/

/-- The rows that `simulate_on` has appended, as arrays. -/
def TrafficResults.ofRows (bursty : Bool) (rows : List ((ℚ × ℚ) × Measured)) : TrafficResults where
  load := rows.map (fun row => row.1.1)
  throughput := rows.map (fun row => row.2.throughput)
  meanDelay := rows.map (fun row => row.2.meanDelay)
  delayVariance := rows.map (fun row => row.2.delayVariance)
  burstSize := if bursty then rows.map (fun row => row.1.2) else []
  totalQueueLengthAverage := rows.map (fun row => row.2.totalQueueLengthAverage)
  totalQueueLengthVariance := rows.map (fun row => row.2.totalQueueLengthVariance)
  maximalQueueLength := rows.map (fun row => row.2.maximalQueueLength)
  enteredSteadyStage := rows.map (fun row => row.2.enteredSteadyStage)
  frameSize := rows.getLast?.map (fun row => row.2.frameSize)

/-- Append the rows one by one. -/
def TrafficResults.appendAll (bursty : Bool) (rows : List ((ℚ × ℚ) × Measured))
    (r : TrafficResults) : TrafficResults :=
  rows.foldl (fun r row => r.append bursty row) r

namespace TrafficResults

theorem append_ofRows (bursty : Bool) (rows : List ((ℚ × ℚ) × Measured))
    (row : (ℚ × ℚ) × Measured) :
    (ofRows bursty rows).append bursty row = ofRows bursty (rows ++ [row]) := by
  cases bursty <;> simp [append, ofRows]

theorem appendAll_ofRows (bursty : Bool) (rows rows' : List ((ℚ × ℚ) × Measured)) :
    (ofRows bursty rows).appendAll bursty rows' = ofRows bursty (rows ++ rows') := by
  induction rows' generalizing rows with
  | nil => simp [appendAll]
  | cons row rest ih =>
    have hrest := ih (rows ++ [row])
    rw [← append_ofRows, List.append_assoc] at hrest
    exact hrest

/-- Arrays that have been started anew, after the next rows: that of the maximal queue lengths still
    has what was there before. -/
theorem appendAll_startAnew {bursty : Bool} {r : TrafficResults}
    (hburst : bursty = false → r.burstSize = []) {rows : List ((ℚ × ℚ) × Measured)}
    (hrows : rows ≠ []) :
    (r.startAnew bursty).appendAll bursty rows
      = { ofRows bursty rows with
          maximalQueueLength := r.maximalQueueLength
            ++ rows.map (fun row => row.2.maximalQueueLength) } := by
  have hall : ∀ rows, (r.startAnew bursty).appendAll bursty rows
      = { ofRows bursty rows with
          maximalQueueLength := r.maximalQueueLength
            ++ rows.map (fun row => row.2.maximalQueueLength)
          frameSize := (rows.getLast?.map (fun row => row.2.frameSize)).or r.frameSize } := by
    intro rows
    induction rows using List.reverseRecOn with
    | nil => cases bursty <;> simp [appendAll, startAnew, ofRows, hburst]
    | append_singleton rows row ih =>
      rw [appendAll, List.foldl_append, List.foldl_cons, List.foldl_nil, ← appendAll, ih]
      cases bursty <;> simp [append, ofRows]
  rw [hall]
  obtain ⟨rows, row, rfl⟩ := (List.eq_nil_or_concat' rows).resolve_left hrows
  simp [ofRows]

theorem lastUnstable_append (bursty : Bool) (row : (ℚ × ℚ) × Measured) (r : TrafficResults) :
    (r.append bursty row).lastUnstable = true ↔ row.2.Unstable := by
  have hlast : (r.append bursty row).throughput.getLast? = some row.2.throughput := by
    simp [append]
  unfold lastUnstable Measured.Unstable
  rw [hlast]
  cases row.2.throughput <;> simp

end TrafficResults

/-- A pattern was simulated at all points up to the first at which it was not stable. -/
structure CutOff (points : List (ℚ × ℚ)) (rows : List ((ℚ × ℚ) × Measured)) : Prop where
  recorded : rows.map Prod.fst <+: points
  stable : ∀ row ∈ rows.dropLast, ¬ row.2.Unstable
  cut : rows.length < points.length → ∃ row ∈ rows.getLast?, row.2.Unstable

/-! ### A pass -/

/-- A pattern in the middle of a sweep that has passed the points `ps`: the boundary is set once the
    pattern was not stable. -/
structure Swept (bursty : Bool) (base : TrafficResults) (ps : List (ℚ × ℚ))
    (rows : List ((ℚ × ℚ) × Measured)) (r : TrafficResults) (boundary : Option ℚ) : Prop where
  results : r = base.appendAll bursty rows
  cutOff : CutOff ps rows
  stable : boundary = none → rows.map Prod.fst = ps ∧ ∀ row ∈ rows, ¬ row.2.Unstable
  beyond : ∀ x, boundary = some x →
    (∃ row ∈ rows.getLast?, row.2.Unstable) ∧ ∃ p ∈ ps, p.1 = x

section

variable {bursty : Bool} {base r : TrafficResults} {ps : List (ℚ × ℚ)}
  {rows : List ((ℚ × ℚ) × Measured)} {boundary : Option ℚ}

theorem swept_start (base : TrafficResults) : Swept bursty base [] [] base none where
  results := rfl
  cutOff :=
    ⟨List.prefix_rfl, fun _ hrow => absurd hrow List.not_mem_nil, fun h => absurd h (by simp)⟩
  stable := fun _ => ⟨rfl, fun _ hrow => absurd hrow List.not_mem_nil⟩
  beyond := fun _ h => nomatch h

/-- A point beyond the boundary is skipped. -/
theorem Swept.skip (h : Swept bursty base ps rows r boundary) {x : ℚ} (hx : boundary = some x)
    (p : ℚ × ℚ) : Swept bursty base (ps ++ [p]) rows r boundary where
  results := h.results
  cutOff := ⟨h.cutOff.recorded.trans (List.prefix_append _ _), h.cutOff.stable,
    fun _ => (h.beyond x hx).1⟩
  stable := fun hnone => by
    rw [hx] at hnone
    cases hnone
  beyond := fun y hy => by
    obtain ⟨hlast, q, hq, hqy⟩ := h.beyond y hy
    exact ⟨hlast, q, List.mem_append_left _ hq, hqy⟩

/-- A point that is not appends a row, and sets the boundary if it was not stable. -/
theorem Swept.append (h : Swept bursty base ps rows r none) (p : ℚ × ℚ) (row : Measured) :
    Swept bursty base (ps ++ [p]) (rows ++ [(p, row)]) (r.append bursty (p, row))
      (if (r.append bursty (p, row)).lastUnstable then some p.1 else none) := by
  obtain ⟨hall, hstable⟩ := h.stable rfl
  have hrecorded : (rows ++ [(p, row)]).map Prod.fst = ps ++ [p] := by
    rw [List.map_append, hall]
    rfl
  refine ⟨?_, ⟨hrecorded ▸ List.prefix_rfl, ?_, ?_⟩, ?_, ?_⟩
  · rw [h.results, TrafficResults.appendAll, TrafficResults.appendAll, List.foldl_append]
    rfl
  · rw [List.dropLast_concat]
    exact hstable
  · intro hlt
    rw [← hrecorded, List.length_map] at hlt
    exact absurd hlt (lt_irrefl _)
  · intro hnone
    refine ⟨hrecorded, fun row' hrow' hun => ?_⟩
    rcases List.mem_append.mp hrow' with hold | hnew
    · exact hstable row' hold hun
    · obtain rfl := List.mem_singleton.mp hnew
      rw [if_pos ((TrafficResults.lastUnstable_append bursty (p, row) r).mpr hun)] at hnone
      cases hnone
  · intro x hx
    obtain ⟨hun, hpx⟩ := Option.ite_some_none_eq_some.mp hx
    refine ⟨⟨(p, row), by simp, (TrafficResults.lastUnstable_append bursty (p, row) r).mp hun⟩,
      p, by simp, hpx⟩

/-- The loads ascend, so that the boundary of a pattern is never passed again. -/
theorem Swept.step (h : Swept bursty base ps rows r boundary) {p : ℚ × ℚ}
    (hps : ∀ q ∈ ps, q.1 ≤ p.1) : boundary = none ∨ ∃ x, boundary = some x ∧ x ≤ p.1 := by
  cases hb : boundary with
  | none => exact .inl rfl
  | some x =>
    obtain ⟨-, q, hq, rfl⟩ := h.beyond x hb
    exact .inr ⟨q.1, rfl, hps q hq⟩

end

namespace SweepConfig

variable {cfg : SweepConfig S}

theorem reset_results (cfg : SweepConfig S) (sw : Sweep S) :
    (cfg.reset sw).results = sw.results := by
  unfold reset
  split <;> rfl

theorem reset_isReset (cfg : SweepConfig S) (sw : Sweep S) : (cfg.reset sw).isReset = true := by
  unfold reset
  split
  · assumption
  · rfl

theorem reset_of_isReset (cfg : SweepConfig S) {sw : Sweep S} (h : sw.isReset = true) :
    cfg.reset sw = sw := if_pos h

theorem reset_of_not_isReset (cfg : SweepConfig S) {sw : Sweep S} (h : sw.isReset = false) :
    (cfg.reset sw).sim = sw.sim.reset cfg.resetScheduler := by
  rw [reset, if_neg (by rw [h]; exact Bool.false_ne_true)]

/-- What is recorded for a pattern meets `M`, by an invariant of the simulators that the points
    start with. -/
structure Recording (cfg : SweepConfig S) (runs : ℚ × ℚ → TrafficName → PointRun S)
    (Inv : Simulator S → Prop) (M : TrafficName → (ℚ × ℚ) × Measured → Prop) : Prop where
  row : ∀ sim p t st, Inv sim → cfg.simulateLoop (runs p t) sim = .ok st → M t (p, cfg.measured st)
  next : ∀ sim p t st, Inv sim → cfg.simulateLoop (runs p t) sim = .ok st →
    Inv (st.sim.reset cfg.resetScheduler)

/-- A call of `simulate_on` that returns appends a row for the pattern and leaves the other patterns
    alone. -/
theorem simulateOn_post (cfg : SweepConfig S) (run : PointRun S) (point : ℚ × ℚ) (t : TrafficName)
    (firstCall : Bool) (sw : Sweep S) :
    Post (cfg.simulateOn run point t firstCall sw) (fun _ => True) (fun sw' =>
      sw.isReset = true ∧ sw'.isReset = false ∧ ∃ st, cfg.simulateLoop run sw.sim = .ok st ∧
        sw'.sim = st.sim ∧ sw'.results = Function.update sw.results t
          ((if firstCall then (sw.results t).startAnew cfg.bursty else sw.results t).append
            cfg.bursty (point, cfg.measured st))) := by
  unfold simulateOn
  refine Post.require_bind (fun _ => trivial) (fun hreset => ?_)
  cases hloop : cfg.simulateLoop run sw.sim with
  | error e => trivial
  | ok st => exact ⟨hreset, rfl, st, rfl, rfl, rfl⟩

variable {runs : ℚ × ℚ → TrafficName → PointRun S} {Inv : Simulator S → Prop}
  {M : TrafficName → (ℚ × ℚ) × Measured → Prop}

/-- A pass that is not the first one, seen by each pattern. -/
theorem Recording.simulateUnlessSkipped_post (hrec : cfg.Recording runs Inv M) {acc : Passing S}
    (hfirst : acc.firstCall = false) (hinv : Inv (cfg.reset acc.toSweep).sim)
    (p : (ℚ × ℚ) × TrafficName) {base : TrafficName → TrafficResults}
    {ps : TrafficName → List (ℚ × ℚ)} (hps : ∀ q ∈ ps p.2, q.1 ≤ p.1.1)
    (h : ∀ t, ∃ rows, (∀ row ∈ rows, M t row) ∧
      Swept cfg.bursty (base t) (ps t) rows (acc.results t) (acc.boundary t)) :
    Post (cfg.simulateUnlessSkipped runs acc p) (fun _ => True) (fun acc' =>
      Inv (cfg.reset acc'.toSweep).sim ∧ ∀ t, ∃ rows, (∀ row ∈ rows, M t row) ∧
        Swept cfg.bursty (base t) (ps t ++ if t = p.2 then [p.1] else []) rows (acc'.results t)
          (acc'.boundary t)) := by
  obtain ⟨rows, hmeet, hrows⟩ := h p.2
  have hothers : ∀ t, t ≠ p.2 → ∃ rows, (∀ row ∈ rows, M t row) ∧ Swept cfg.bursty (base t)
      (ps t ++ if t = p.2 then [p.1] else []) rows (acc.results t) (acc.boundary t) := by
    intro t ht
    rw [if_neg ht, List.append_nil]
    exact h t
  unfold simulateUnlessSkipped
  rcases hrows.step hps with hb | ⟨x, hb, hx⟩
  · -- The pattern has been stable so far.
    have hskip : skips acc.boundary p.2 p.1.1 = false := by rw [skips, hb]
    rw [hskip, hfirst, if_neg Bool.false_ne_true]
    refine (cfg.simulateOn_post (runs p.1 p.2) p.1 p.2 false acc.toSweep).bind (fun sw hsw => ?_)
    obtain ⟨hreset, hreset', st, hloop, hsim, hresults⟩ := hsw
    rw [if_neg Bool.false_ne_true] at hresults
    rw [cfg.reset_of_isReset hreset] at hinv
    refine ⟨?_, fun t => ?_⟩
    · show Inv (cfg.reset sw).sim
      rw [cfg.reset_of_not_isReset hreset', hsim]
      exact hrec.next _ p.1 p.2 st hinv hloop
    show ∃ rows, (∀ row ∈ rows, M t row) ∧ Swept _ _ _ rows (sw.results t)
      ((if (sw.results p.2).lastUnstable = true then
        Function.update acc.boundary p.2 (some p.1.1) else acc.boundary) t)
    by_cases ht : t = p.2
    · subst ht
      rw [hb] at hrows
      refine ⟨rows ++ [(p.1, cfg.measured st)], fun row hrow => ?_, ?_⟩
      · rcases List.mem_append.mp hrow with hold | hnew
        · exact hmeet row hold
        · rw [List.mem_singleton.mp hnew]
          exact hrec.row _ p.1 p.2 st hinv hloop
      rw [if_pos rfl, hresults, Function.update_self]
      convert hrows.append p.1 (cfg.measured st) using 1
      split
      · rw [Function.update_self]
      · exact hb
    · have hkeep : (if (sw.results p.2).lastUnstable = true then
          Function.update acc.boundary p.2 (some p.1.1) else acc.boundary) t = acc.boundary t := by
        split
        · rw [Function.update_of_ne ht]
        · rfl
      rw [hkeep, hresults, Function.update_of_ne ht]
      exact hothers t ht
  · -- It is beyond its boundary.
    have hskip : skips acc.boundary p.2 p.1.1 = true := by
      rw [skips, hb]
      exact decide_eq_true hx
    rw [hskip, if_pos rfl]
    refine ⟨hinv, fun t => ?_⟩
    by_cases ht : t = p.2
    · subst ht
      rw [if_pos rfl]
      exact ⟨rows, hmeet, hrows.skip hb p.1⟩
    · exact hothers t ht

theorem Recording.visit_post (hrec : cfg.Recording runs Inv M) {acc : Passing S}
    (hfirst : acc.firstCall = false) (hinv : Inv (cfg.reset acc.toSweep).sim)
    (p : (ℚ × ℚ) × TrafficName) {base : TrafficName → TrafficResults}
    {ps : TrafficName → List (ℚ × ℚ)} (hps : ∀ q ∈ ps p.2, q.1 ≤ p.1.1)
    (h : ∀ t, ∃ rows, (∀ row ∈ rows, M t row) ∧
      Swept cfg.bursty (base t) (ps t) rows (acc.results t) (acc.boundary t)) :
    Post (cfg.visit runs acc p) (fun _ => True) (fun acc' => acc'.firstCall = false ∧
      Inv (cfg.reset acc'.toSweep).sim ∧ ∀ t, ∃ rows, (∀ row ∈ rows, M t row) ∧
        Swept cfg.bursty (base t) (ps t ++ if t = p.2 then [p.1] else []) rows (acc'.results t)
          (acc'.boundary t)) := by
  refine (hrec.simulateUnlessSkipped_post hfirst hinv p hps h).bind (fun acc' hacc' => ?_)
  obtain ⟨hinv', hrows⟩ := hacc'
  refine ⟨rfl, ?_, fun t => ?_⟩
  · show Inv (cfg.reset (cfg.reset acc'.toSweep)).sim
    rwa [cfg.reset_of_isReset (cfg.reset_isReset _)]
  · show ∃ rows, (∀ row ∈ rows, M t row) ∧
      Swept _ _ _ rows ((cfg.reset acc'.toSweep).results t) (acc'.boundary t)
    rw [reset_results]
    exact hrows t

/-! ### A sweep -/

/-- The points at which the list has the pattern. -/
def pointsOf (t : TrafficName) (l : List ((ℚ × ℚ) × TrafficName)) : List (ℚ × ℚ) :=
  (l.filter (fun p => decide (p.2 = t))).map Prod.fst

theorem pointsOf_cons (t : TrafficName) (p : (ℚ × ℚ) × TrafficName)
    (l : List ((ℚ × ℚ) × TrafficName)) :
    pointsOf t (p :: l) = (if t = p.2 then [p.1] else []) ++ pointsOf t l := by
  unfold pointsOf
  by_cases ht : t = p.2
  · rw [List.filter_cons_of_pos (by simpa using ht.symm), if_pos ht]
    rfl
  · rw [List.filter_cons_of_neg (by simpa using Ne.symm ht), if_neg ht]
    rfl

/-- Each pattern of a sweep is simulated at the points that the passes come to. -/
theorem Recording.passes_post (hrec : cfg.Recording runs Inv M)
    {base : TrafficName → TrafficResults} {l : List ((ℚ × ℚ) × TrafficName)}
    (hl : l.Pairwise (fun p q => p.1.1 ≤ q.1.1)) {acc : Passing S} (hfirst : acc.firstCall = false)
    (hinv : Inv (cfg.reset acc.toSweep).sim) {ps : TrafficName → List (ℚ × ℚ)}
    (hps : ∀ t, ∀ q ∈ ps t, ∀ p ∈ l, q.1 ≤ p.1.1)
    (h : ∀ t, ∃ rows, (∀ row ∈ rows, M t row) ∧
      Swept cfg.bursty (base t) (ps t) rows (acc.results t) (acc.boundary t)) :
    Post (l.foldlM (cfg.visit runs) acc) (fun _ => True) (fun acc' =>
      Inv (cfg.reset acc'.toSweep).sim ∧ ∀ t, ∃ rows, (∀ row ∈ rows, M t row) ∧
        Swept cfg.bursty (base t) (ps t ++ pointsOf t l) rows (acc'.results t)
          (acc'.boundary t)) := by
  induction l generalizing acc ps with
  | nil =>
    refine ⟨hinv, fun t => ?_⟩
    rw [pointsOf, List.filter_nil, List.map_nil, List.append_nil]
    exact h t
  | cons p rest ih =>
    obtain ⟨hp, hrest⟩ := List.pairwise_cons.mp hl
    rw [List.foldlM_cons]
    refine (hrec.visit_post hfirst hinv p (fun q hq => hps p.2 q hq p List.mem_cons_self) h).bind
      (fun acc' hacc' => ?_)
    obtain ⟨hfirst', hinv', hrows⟩ := hacc'
    refine (ih hrest hfirst' hinv' (fun t q hq p' hp' => ?_) hrows).imp
      (fun last hlast => ⟨hlast.1, fun t => ?_⟩)
    · -- the loads ascend, so no point comes before one that has been passed
      rcases List.mem_append.mp hq with hold | hnew
      · exact hps t q hold p' (List.mem_cons_of_mem p hp')
      · split at hnew
        · rw [List.mem_singleton.mp hnew]
          exact hp p' hp'
        · cases hnew
    · rw [pointsOf_cons, ← List.append_assoc]
      exact hlast.2 t

theorem pointsOf_product (t : TrafficName) (points : List (ℚ × ℚ)) {patterns : List TrafficName}
    (hnodup : patterns.Nodup) :
    pointsOf t (points ×ˢ patterns) = if t ∈ patterns then points else [] := by
  have hone : ∀ p : ℚ × ℚ, pointsOf t (patterns.map (fun t' => (p, t')))
      = if t ∈ patterns then [p] else [] := by
    intro p
    induction patterns with
    | nil => rfl
    | cons t' rest ih =>
      obtain ⟨ht', hrest⟩ := List.nodup_cons.mp hnodup
      rw [List.map_cons, pointsOf_cons, ih hrest]
      by_cases ht : t = t'
      · subst ht
        simp [ht']
      · simp [ht]
  induction points with
  | nil => simp [pointsOf]
  | cons p rest ih =>
    have happend : ∀ l l' : List ((ℚ × ℚ) × TrafficName),
        pointsOf t (l ++ l') = pointsOf t l ++ pointsOf t l' := fun l l' => by
      rw [pointsOf, List.filter_append, List.map_append]
      rfl
    rw [List.product_cons, happend, ih, hone]
    split
    · rfl
    · rfl

/-- The passes come with ascending loads. -/
theorem product_ascending (cfg : SweepConfig S) :
    (cfg.points ×ˢ cfg.patterns).Pairwise (fun p q => p.1.1 ≤ q.1.1) := by
  have hall : ∀ points : List (ℚ × ℚ), points.Pairwise (fun p q => p.1 ≤ q.1) →
      (points ×ˢ cfg.patterns).Pairwise (fun p q => p.1.1 ≤ q.1.1) := by
    intro points hpoints
    induction points with
    | nil => exact List.Pairwise.nil
    | cons p rest ih =>
      obtain ⟨hp, hrest⟩ := List.pairwise_cons.mp hpoints
      rw [List.product_cons, List.pairwise_append]
      refine ⟨?_, ih hrest, fun q hq q' hq' => ?_⟩
      · rw [List.pairwise_map]
        exact List.pairwise_of_forall (fun _ _ => le_refl _)
      · obtain ⟨t, -, rfl⟩ := List.mem_map.mp hq
        exact hp q'.1 (List.mem_product.mp hq').1
  exact hall cfg.points cfg.ascending

/-- The arrays that a call begins with: the first pattern starts anew. -/
def startOf (cfg : SweepConfig S) (results : TrafficName → TrafficResults) :
    TrafficName → TrafficResults :=
  match cfg.patterns.head? with
  | none => results
  | some t => Function.update results t ((results t).startAnew cfg.bursty)

/-- The first pass is like any other with the arrays of its pattern started anew. -/
theorem visit_first (cfg : SweepConfig S) (runs : ℚ × ℚ → TrafficName → PointRun S) (sw : Sweep S)
    (p : (ℚ × ℚ) × TrafficName) :
    cfg.visit runs ⟨sw, fun _ => none, true⟩ p
      = cfg.visit runs ⟨⟨sw.sim, sw.isReset, Function.update sw.results p.2
        ((sw.results p.2).startAnew cfg.bursty)⟩, fun _ => none, false⟩ p := by
  have hsame : cfg.simulateOn (runs p.1 p.2) p.1 p.2 true sw
      = cfg.simulateOn (runs p.1 p.2) p.1 p.2 false ⟨sw.sim, sw.isReset,
        Function.update sw.results p.2 ((sw.results p.2).startAnew cfg.bursty)⟩ := by
    unfold simulateOn
    simp only [if_true, Bool.false_eq_true, if_false, Function.update_self, Function.update_idem]
  unfold visit simulateUnlessSkipped
  rw [if_neg (by simp [skips]), if_neg (by simp [skips])]
  dsimp only
  rw [hsame]
  cases cfg.simulateOn (runs p.1 p.2) p.1 p.2 false _ with
  | error e => rfl
  | ok sw' => rfl

/-- What a call of `simulate` appends to the arrays of each pattern. -/
theorem Recording.simulate_post (hrec : cfg.Recording runs Inv M) (hpoints : cfg.points ≠ [])
    {sw : Sweep S} (hinv : Inv (cfg.reset sw).sim) :
    Post (cfg.simulate runs sw) (fun _ => True) (fun sw' => Inv (cfg.reset sw').sim ∧
      ∀ t ∈ cfg.patterns, ∃ rows, (CutOff cfg.points rows ∧ ∀ row ∈ rows, M t row) ∧
        sw'.results t = (cfg.startOf sw.results t).appendAll cfg.bursty rows) := by
  have hreset := cfg.reset_of_isReset (cfg.reset_isReset sw)
  obtain ⟨point, points, hcons⟩ := List.exists_cons_of_ne_nil hpoints
  cases hpatterns : cfg.patterns with
  | nil =>
    have hnone : cfg.points ×ˢ ([] : List TrafficName) = [] := List.product_nil _
    unfold simulate
    rw [hpatterns, hnone]
    refine ⟨?_, fun t ht => absurd ht List.not_mem_nil⟩
    show Inv (cfg.reset (cfg.reset sw)).sim
    rwa [hreset]
  | cons t₀ rest =>
    have hstart : cfg.startOf sw.results
        = Function.update sw.results t₀ ((sw.results t₀).startAnew cfg.bursty) := by
      rw [startOf, hpatterns]
      rfl
    have hinv' : Inv (cfg.reset { cfg.reset sw with results := cfg.startOf sw.results }).sim := by
      have hready : ({ cfg.reset sw with results := cfg.startOf sw.results } : Sweep S).isReset
          = true := cfg.reset_isReset sw
      rwa [cfg.reset_of_isReset hready]
    have hpasses := @Recording.passes_post _ _ _ cfg runs Inv M hrec (cfg.startOf sw.results) _
      cfg.product_ascending
      ⟨{ cfg.reset sw with results := cfg.startOf sw.results }, fun _ => none, false⟩ rfl hinv'
      (fun _ => []) (fun _ _ hq => absurd hq List.not_mem_nil)
      (fun t => ⟨[], fun _ hrow => absurd hrow List.not_mem_nil, swept_start _⟩)
    -- The first pass starts the arrays of its pattern anew; after that the loop is as it is later.
    have hfirst : (cfg.points ×ˢ cfg.patterns).foldlM (cfg.visit runs)
          ⟨cfg.reset sw, fun _ => none, true⟩
        = (cfg.points ×ˢ cfg.patterns).foldlM (cfg.visit runs)
          ⟨{ cfg.reset sw with results := cfg.startOf sw.results }, fun _ => none, false⟩ := by
      rw [hcons, hpatterns, List.product_cons, List.map_cons, List.cons_append, List.foldlM_cons,
        List.foldlM_cons, visit_first, reset_results, hstart]
    unfold simulate
    dsimp only
    rw [hfirst]
    refine hpasses.bind (fun acc hacc => ⟨hacc.1, fun t ht => ?_⟩)
    obtain ⟨rows, hmeet, hrows⟩ := hacc.2 t
    rw [List.nil_append, pointsOf_product t cfg.points cfg.nodup, if_pos (hpatterns ▸ ht)] at hrows
    exact ⟨rows, ⟨hrows.cutOff, hmeet⟩, hrows.results⟩

/-! ### Calls -/

theorem CutOff.ne_nil {points : List (ℚ × ℚ)} {rows : List ((ℚ × ℚ) × Measured)}
    (h : CutOff points rows) (hpoints : points ≠ []) : rows ≠ [] := by
  rintro rfl
  obtain ⟨row, hrow, -⟩ := h.cut (List.length_pos_iff.mpr hpoints)
  cases hrow

/-- The arrays of a pattern after calls that have appended `rowss`. -/
def afterCalls (cfg : SweepConfig S) (t : TrafficName)
    (rowss : List (List ((ℚ × ℚ) × Measured))) : TrafficResults :=
  if cfg.patterns.head? = some t then
    { TrafficResults.ofRows cfg.bursty (rowss.getLastD []) with
      maximalQueueLength := rowss.flatten.map (fun row => row.2.maximalQueueLength) }
  else TrafficResults.ofRows cfg.bursty rowss.flatten

theorem startOf_afterCalls (cfg : SweepConfig S) {results : TrafficName → TrafficResults}
    {t : TrafficName} {rowss : List (List ((ℚ × ℚ) × Measured))}
    (h : results t = cfg.afterCalls t rowss) {rows : List ((ℚ × ℚ) × Measured)}
    (hrows : rows ≠ []) :
    (cfg.startOf results t).appendAll cfg.bursty rows = cfg.afterCalls t (rowss ++ [rows]) := by
  have hstart : cfg.startOf results t = if cfg.patterns.head? = some t
      then (results t).startAnew cfg.bursty else results t := by
    unfold startOf
    cases cfg.patterns.head? with
    | none => rfl
    | some t₀ =>
      by_cases ht : t₀ = t
      · subst ht
        rw [if_pos rfl]
        exact Function.update_self _ _ _
      · rw [if_neg (fun he => ht (Option.some.inj he))]
        exact Function.update_of_ne (Ne.symm ht) _ _
  rw [hstart, h]
  unfold afterCalls
  split
  · rw [TrafficResults.appendAll_startAnew (fun hb => by simp [TrafficResults.ofRows, hb]) hrows]
    simp
  · rw [TrafficResults.appendAll_ofRows]
    simp

/-- The arrays after any number of calls on a new simulator, with what is known of their rows. -/
theorem results_of_recording {Inv : Simulator S → Prop}
    {M : (ℚ × ℚ → TrafficName → PointRun S) → TrafficName → (ℚ × ℚ) × Measured → Prop}
    (hpoints : cfg.points ≠ []) {calls : List (ℚ × ℚ → TrafficName → PointRun S)}
    (hrec : ∀ runs ∈ calls, cfg.Recording runs Inv (M runs)) {sw sw' : Sweep S}
    (hnew : ∀ t, sw.results t = TrafficResults.empty) (hinv : Inv (cfg.reset sw).sim)
    (h : cfg.simulateAll calls sw = .ok sw') {t : TrafficName} (ht : t ∈ cfg.patterns) :
    ∃ rowss, List.Forall₂ (fun runs rows =>
        CutOff cfg.points rows ∧ ∀ row ∈ rows, M runs t row) calls rowss ∧
      sw'.results t = cfg.afterCalls t rowss := by
  have hcalls : Inv (cfg.reset sw').sim ∧ ∃ rowss, List.Forall₂ (fun runs rows =>
        CutOff cfg.points rows ∧ ∀ row ∈ rows, M runs t row) calls rowss ∧
      sw'.results t = cfg.afterCalls t rowss := by
    induction calls using List.reverseRecOn generalizing sw' with
    | nil =>
      cases h
      refine ⟨hinv, [], .nil, ?_⟩
      rw [hnew t, afterCalls]
      cases cfg.bursty <;> simp [TrafficResults.ofRows, TrafficResults.empty]
    | append_singleton calls runs ih =>
      rw [simulateAll, List.foldlM_append] at h
      obtain ⟨mid, hmid, hlast⟩ := bind_eq_ok.mp h
      obtain ⟨hinv', rowss, hrowss, hresults⟩ :=
        ih (fun runs' hruns' => hrec runs' (List.mem_append_left _ hruns')) hmid
      rw [List.foldlM_cons] at hlast
      obtain ⟨last, hrun, hlast'⟩ := bind_eq_ok.mp hlast
      obtain rfl := Except.ok.inj hlast'
      obtain ⟨hinv'', hall⟩ :=
        ((hrec runs (by simp)).simulate_post hpoints hinv').of_ok hrun
      obtain ⟨rows, hrows, happended⟩ := hall t ht
      -- a further call appends its rows, or starts the arrays anew
      refine ⟨hinv'', rowss ++ [rows], List.rel_append hrowss (.cons hrows .nil), ?_⟩
      rw [happended, cfg.startOf_afterCalls hresults (CutOff.ne_nil hrows.1 hpoints)]
  exact hcalls.2

theorem afterCalls_rest {cfg : SweepConfig S} {t : TrafficName}
    (h : cfg.patterns.head? ≠ some t) (rowss : List (List ((ℚ × ℚ) × Measured))) :
    cfg.afterCalls t rowss = TrafficResults.ofRows cfg.bursty rowss.flatten := if_neg h

theorem afterCalls_first {cfg : SweepConfig S} {t : TrafficName}
    (h : cfg.patterns.head? = some t) (rowss : List (List ((ℚ × ℚ) × Measured))) :
    cfg.afterCalls t rowss = { TrafficResults.ofRows cfg.bursty (rowss.getLastD []) with
      maximalQueueLength := rowss.flatten.map (fun row => row.2.maximalQueueLength) } := if_pos h

/-- After any number of calls of `simulate` on a new simulator: each call has simulated each pattern
    at all points, in the order of the map, up to the first at which it was not stable.  The
    patterns but the first have kept all the rows; the first one has kept those of the last call,
    and all the maximal queue lengths. -/
theorem results_of_calls (cfg : SweepConfig S) (hpoints : cfg.points ≠ [])
    (calls : List (ℚ × ℚ → TrafficName → PointRun S)) {sw sw' : Sweep S}
    (hnew : ∀ t, sw.results t = TrafficResults.empty)
    (h : cfg.simulateAll calls sw = .ok sw') {t : TrafficName} (ht : t ∈ cfg.patterns) :
    ∃ rowss : List (List ((ℚ × ℚ) × Measured)), rowss.length = calls.length ∧
      (∀ rows ∈ rowss, CutOff cfg.points rows) ∧
      (cfg.patterns.head? ≠ some t →
        sw'.results t = TrafficResults.ofRows cfg.bursty rowss.flatten) ∧
      (cfg.patterns.head? = some t → sw'.results t =
        { TrafficResults.ofRows cfg.bursty (rowss.getLastD []) with
          maximalQueueLength := rowss.flatten.map (fun row => row.2.maximalQueueLength) }) := by
  have hrec : ∀ runs ∈ calls, cfg.Recording runs (fun _ => True) (fun _ _ => True) :=
    fun _ _ => ⟨fun _ _ _ _ _ _ => trivial, fun _ _ _ _ _ _ => trivial⟩
  obtain ⟨rowss, hrowss, hresults⟩ := results_of_recording hpoints hrec hnew trivial h ht
  refine ⟨rowss, hrowss.length_eq.symm, fun rows hrows => ?_, fun hne => ?_, fun heq => ?_⟩
  · obtain ⟨i, hi, rfl⟩ := List.getElem_of_mem hrows
    exact (hrowss.get (hrowss.length_eq ▸ hi) hi).1
  · rw [hresults, afterCalls_rest hne]
  · rw [hresults, afterCalls_first heq]

/-- The points of a profile: all its loads, with all its burst sizes if it has on off injections. -/
theorem mem_points_ofProfile {p : TrafficProfile} {efforts : Efforts}
    {resetScheduler : S.State → S.State} {getBatchSize : S.State → ℤ} {cfg : SweepConfig S}
    (h : ofProfile p efforts resetScheduler getBatchSize = .ok cfg) (q : ℚ × ℚ) :
    q ∈ cfg.points ↔ q.1 ∈ p.loads ∧
      if "onoff".toList <:+: p.injection.toList then q.2 ∈ p.burstSizes.getD [] else q.2 = -1 := by
  obtain ⟨keys, hkeys, hcfg⟩ := bind_eq_ok.mp h
  cases hcfg
  rw [mem_mapOrder]
  unfold TrafficProfile.keys at hkeys
  split at hkeys
  · rename_i honoff
    rw [if_pos honoff]
    cases hburst : p.burstSizes with
    | none =>
      rw [hburst] at hkeys
      cases hkeys
    | some burstSizes =>
      rw [hburst] at hkeys
      obtain ⟨-, -, hok⟩ := bind_eq_ok.mp hkeys
      cases hok
      simp [Prod.ext_iff, and_comm]
  · rename_i honoff
    rw [if_neg honoff]
    cases hkeys
    simp [TrafficProfile.createBernoulliInjection, Prod.ext_iff, eq_comm]

/-- There is a point if there is a load: on off injections without a burst size are refused. -/
theorem points_ofProfile_ne_nil {p : TrafficProfile} {efforts : Efforts}
    {resetScheduler : S.State → S.State} {getBatchSize : S.State → ℤ} {cfg : SweepConfig S}
    (h : ofProfile p efforts resetScheduler getBatchSize = .ok cfg) (hloads : p.loads ≠ []) :
    cfg.points ≠ [] := by
  obtain ⟨load, hload⟩ := List.exists_mem_of_ne_nil _ hloads
  by_cases honoff : "onoff".toList <:+: p.injection.toList
  · obtain ⟨bs, hbs⟩ : ∃ bs, bs ∈ p.burstSizes.getD [] := by
      refine List.exists_mem_of_ne_nil _ (fun hnil => ?_)
      obtain ⟨keys, hkeys, -⟩ := bind_eq_ok.mp h
      rw [TrafficProfile.keys, if_pos honoff] at hkeys
      cases hburst : p.burstSizes with
      | none =>
        rw [hburst] at hkeys
        cases hkeys
      | some burstSizes =>
        rw [hburst] at hkeys hnil
        obtain ⟨_, hrequire, -⟩ := bind_eq_ok.mp hkeys
        exact of_require hrequire (.inl hnil)
    exact List.ne_nil_of_mem ((mem_points_ofProfile h (load, bs)).mpr
      ⟨hload, by rwa [if_pos honoff]⟩)
  · exact List.ne_nil_of_mem ((mem_points_ofProfile h (load, -1)).mpr
      ⟨hload, by rw [if_neg honoff]⟩)

/-- The same for what the constructor loads from a profile, if that has a load: every pattern that it
    names has been simulated at all its points, or up to the first at which it was not stable. -/
theorem results_of_profile {p : TrafficProfile} {efforts : Efforts}
    {resetScheduler : S.State → S.State} {getBatchSize : S.State → ℤ} {cfg : SweepConfig S}
    (hcfg : ofProfile p efforts resetScheduler getBatchSize = .ok cfg) (hloads : p.loads ≠ [])
    (calls : List (ℚ × ℚ → TrafficName → PointRun S)) {sw sw' : Sweep S}
    (hnew : ∀ t, sw.results t = TrafficResults.empty)
    (h : cfg.simulateAll calls sw = .ok sw') {t : TrafficName}
    (ht : t.key ∈ p.trafficPatternNames) :
    ∃ rowss : List (List ((ℚ × ℚ) × Measured)), rowss.length = calls.length ∧
      (∀ rows ∈ rowss, CutOff cfg.points rows) ∧ sw'.results t = cfg.afterCalls t rowss := by
  have hpatterns : t ∈ cfg.patterns := by
    obtain ⟨keys, -, hok⟩ := bind_eq_ok.mp hcfg
    cases hok
    exact List.mem_filter.mpr ⟨by cases t <;> decide, decide_eq_true ht⟩
  have hpoints : cfg.points ≠ [] := points_ofProfile_ne_nil hcfg hloads
  obtain ⟨rowss, hlength, hcut, hrest, hfirst⟩ := cfg.results_of_calls hpoints calls hnew h hpatterns
  refine ⟨rowss, hlength, hcut, ?_⟩
  by_cases hhead : cfg.patterns.head? = some t
  · rw [hfirst hhead, afterCalls_first hhead]
  · rw [hrest hhead, afterCalls_rest hhead]

/-- One load and one pattern, measured in five iterations. -/
def onePoint : SweepConfig (decisions 1 1) where
  points := [(1 / 2, -1)]
  ascending := List.pairwise_singleton _ _
  patterns := [.uniform]
  nodup := List.nodup_singleton _
  bursty := false
  efforts := Efforts.construct 1 1 (some ⟨4, by decide, by decide⟩) (some ⟨5, by decide, by decide⟩)
  resetScheduler := id
  getBatchSize := fun _ => 1

/-- A new simulator of a switch with one port. -/
def newOnePort : Sweep (decisions 1 1) where
  sim :=
    { system := ⟨.generic (GIQSwitch.construct false (fun _ => [])), fun _ => none⟩
      inputChannels := fun _ => []
      outputChannels := fun _ => []
      totalArrivals := 0
      totalDepartures := 0
      delay := some []
      totalQueueLength := some [] }
  isReset := true
  results := fun _ => .empty

/-- A packet passes the switch in each iteration. -/
def onePacket (_ : ℚ × ℚ) (_ : TrafficName) : PointRun (decisions 1 1) where
  inputs := fun _ _ => some ⟨0, Nat.one_pos⟩
  injects := fun _ _ => some ⟨0, Nat.one_pos⟩
  iterations := 5
  outOfMemory := false

/-- Two calls: there is one load, but there are two maximal queue lengths. -/
theorem results_of_two_calls :
    ∃ (sw : Sweep (decisions 1 1)) (rows rows' : List ((ℚ × ℚ) × Measured)),
      onePoint.simulateAll [onePacket, onePacket] newOnePort = .ok sw ∧
      CutOff onePoint.points rows ∧ CutOff onePoint.points rows' ∧
      (sw.results .uniform).load = rows'.map (fun row => row.1.1) ∧
      (sw.results .uniform).maximalQueueLength
        = (rows ++ rows').map (fun row => row.2.maximalQueueLength) := by
  obtain ⟨sw, hrun, -⟩ := exists_of_returns
    (x := onePoint.simulateAll [onePacket, onePacket] newOnePort) (p := fun _ => true)
    (by decide +kernel)
  obtain ⟨rowss, hlength, hcut, -, hresults⟩ := onePoint.results_of_calls (List.cons_ne_nil _ _)
    [onePacket, onePacket] (fun _ => rfl) hrun (t := .uniform) (List.mem_singleton_self _)
  obtain ⟨rows, rows', rfl⟩ := List.length_eq_two.mp hlength
  refine ⟨sw, rows, rows', hrun, hcut rows (by simp), hcut rows' (by simp), ?_, ?_⟩
  · rw [hresults rfl]
    rfl
  · rw [hresults rfl]
    simp

end SweepConfig

end SschedSimulator
