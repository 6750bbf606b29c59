import Mathlib.Data.Finset.Sort
import Mathlib.Data.String.Basic
import SschedSimulator.Foundation.PointerMap
import SschedSimulator.Simulator.StoppingRule

namespace SschedSimulator

open Foundation

/-!
# `simulator.cc` — the instruments of a simulator

`init_stats` creates instruments, and everything else looks them up under their names.  The packets,
the queues and the estimates are left open here: a run is given what they come to.  What is followed
is which pointers are dereferenced.

* `Created` — what the constructor leaves in `_instruments`;
* `iteration_eq` — what an iteration of `simulate_on` comes to;
* `run_post` — the instruments stay as they were created;
* `usesOnlyCreated_iff` — when no run comes to a null pointer.
-/

/-- `_instruments`.  A pointer that is not null names the instrument that it was created as. -/
abbrev Instruments := PointerMap String String

/-- An exception of the constructor with its message. -/
inductive ConstructorFault where
  | unknownParameter (message : String)
  | missingArgument (message : String)
  deriving DecidableEq, Repr

/-- Why a run is over before its calls have returned. -/
inductive Halt where
  /-- `_instruments[name]` is null and is dereferenced -/
  | nullPointer (name : String)
  /-- the remainder by a `print_interval` of zero -/
  | divisionByZero
  /-- `assert(_reset)` -/
  | notReset
  /-- `_switch->get_scheduler()` is null and is dereferenced -/
  | nullScheduler
  /-- `NonEmptyInitializationException` -/
  | nonEmptyInitialization
  /-- it is not followed any further -/
  | running
  deriving DecidableEq, Repr

/-- What of the configuration decides about the instruments and their uses. -/
structure SimulatorConfiguration where
  /-- `"type"` of the switch, if it is given -/
  switchType : Option String
  /-- `"initial_queue_length"` of the switch, if it is given -/
  initialQueueLength : Option (List (List ℕ))
  /-- `"instruments"`, if they are given -/
  instruments : Option (List String)
  verbose : ℤ
  efforts : Efforts
  /-- how often `simulate` comes to a pair of an injection model and a traffic pattern -/
  simulations : ℕ

/-- The simulator: its instruments, `_reset`, and if every VOQ is known to be empty. -/
structure Instrumented where
  instruments : Instruments
  reset : Bool
  queuesEmpty : Bool

namespace SimulatorConfiguration

/-! ### The constructor -/

/-- The set of names that `init_stats` begins with. -/
def requested (conf : SimulatorConfiguration) : Finset String :=
  match conf.instruments with
  | none =>
    let names := if conf.switchType ≠ none ∧ conf.switchType ≠ some "simplified"
      then {"delay"} else ∅
    insert "totalQueueLength" names
  | some names => names.toFinset

/-- One name in the loop of `init_stats`: the instruments, and whether one is shared. -/
def initStep (acc : Instruments × Bool) (name : String) :
    Except ConstructorFault (Instruments × Bool) :=
  if name = "throughput" then .ok acc
  else if name = "delay" ∨ name = "totalQueueLength" then
    let ins := acc.1.insert name (some name)
    if acc.2 then .ok (ins, true)
    else .ok (ins.insert "throughput" (some name), true)
  else .error (.unknownParameter ("Instrument " ++ name ++ " has not been supported yet!"))

/-- `init_stats`; a `std::set` is traversed in order. -/
def initStats (conf : SimulatorConfiguration) : Except ConstructorFault Instruments := do
  let acc ← (conf.requested.sort (· ≤ ·)).foldlM initStep (∅, false)
  .ok acc.1

/-- `_switch_type`. -/
def switchTypeOf (conf : SimulatorConfiguration) : String := conf.switchType.getD "generic"

/-- If the switch begins without packets; a generic switch takes no initial queue lengths. -/
def startsEmpty (conf : SimulatorConfiguration) : Bool :=
  conf.switchTypeOf = "generic" || (conf.initialQueueLength.getD []).all (fun row => row.all (· = 0))

/-- The constructor: `IQSwitchFactory::Create`, then `init_stats`. -/
def construct (conf : SimulatorConfiguration) : Except ConstructorFault Instrumented := do
  require (conf.switchTypeOf ∈ ["dummy", "simplified", "generic"])
    (.unknownParameter ("Unknown parameter for \"type\" in switch_conf: " ++ conf.switchTypeOf))
  require (conf.switchTypeOf = "dummy" → conf.initialQueueLength ≠ none)
    (.missingArgument ("Argument switch_conf MUST contain initial_queue_length for switch "
      ++ "type \"dummy\""))
  let ins ← conf.initStats
  .ok { instruments := ins, reset := true, queuesEmpty := conf.startsEmpty }

/-! ### `simulate_on` -/

/-- What the packets and the estimates come to in an iteration. -/
structure Slot where
  /-- the number of packets on the output channels -/
  departures : ℕ
  estimates : Efforts.Estimates

/-- `has_total_queue_len_ins` and `has_delay_ins`. -/
structure Flags where
  totalQueueLen : Bool
  delay : Bool

/-- The flags of `simulate_on`. -/
def flagsOf (ins : Instruments) : Flags where
  totalQueueLen := decide ("totalQueueLength" ∈ ins)
  delay := decide ("delay" ∈ ins)

namespace Flags

/-- `stopping_ins`. -/
def stoppingIns (f : Flags) : String := if f.delay then "delay" else "totalQueueLength"

/-- The instruments dereferenced to report on the run, `totalQueueLength` in `k` places. -/
def reported (f : Flags) (k : ℕ) : List String :=
  ["throughput", "throughput"] ++ (if f.delay then ["delay", "delay"] else [])
    ++ (if f.totalQueueLen then List.replicate k "totalQueueLength" else [])

/-- Those of a line that is printed. -/
def printed (f : Flags) : List String := f.reported 2

/-- Those of the final results. -/
def recorded (f : Flags) : List String := f.reported 3

end Flags

/-- Dereference the instruments `names`. -/
def use (ins : Instruments) (names : List String) : Except Halt Instruments :=
  ins.derefs .nullPointer names

/-- `departing`, for so many packets: each is a sample for `delay`, if there is such an entry. -/
def departing (conf : SimulatorConfiguration) (departures : ℕ) (ins : Instruments) :
    Except Halt Instruments :=
  if conf.switchTypeOf = "generic" then
    (List.range departures).foldlM
      (fun ins _ => if "delay" ∈ ins then use ins ["delay"] else .ok ins) ins
  else .ok ins

/-- One iteration of `simulate_on`: the instruments, and if it breaks out of the loop. -/
def iteration (conf : SimulatorConfiguration) (f : Flags) (slot : Slot) (n : ℕ)
    (ins : Instruments) : Except Halt (Instruments × Bool) := do
  let ins ← use ins ["throughput"]
  let ins ← conf.departing slot.departures ins
  let ins ← use ins ["throughput"]
  let ins ← use ins (if f.totalQueueLen then ["totalQueueLength"] else [])
  let ins ← use ins (if conf.efforts.least.toSize ≤ n then [f.stoppingIns, f.stoppingIns] else [])
  -- `++n`
  let n' : ℕ := (n + 1) % 2 ^ 64
  require (conf.efforts.printInterval % 2 ^ 64 ≠ 0) .divisionByZero
  let ins ← use ins
    (if (n' : ℤ) % (conf.efforts.printInterval % 2 ^ 64) = 0 ∧ 0 ≤ conf.verbose then f.printed
      else [])
  if conf.efforts.least.toSize < n' ∧ slot.estimates.outOfMemory then .ok (ins, true)
  else do
    -- not guarded by `has_delay_ins`
    let ins ← use ins ["delay"]
    .ok (ins, slot.estimates.unstable)

/-- The `while` loop of `simulate_on` from `n` on, followed for as many iterations as there are
    slots; `est` are the estimates so far. -/
def loop (conf : SimulatorConfiguration) (f : Flags) :
    List Slot → Efforts.Estimates → ℕ → Instruments → Except Halt Instruments
  | slots, est, n, ins =>
    if conf.efforts.stopNow "relative" n est then .ok ins
    else
      match slots with
      | [] => .error .running
      | slot :: slots => do
        let (ins, stop) ← conf.iteration f slot n ins
        if stop then .ok ins
        else loop conf f slots slot.estimates ((n + 1) % 2 ^ 64) ins

/-- `simulate_on`.  The first call asks the scheduler for its name, for the line that is printed or
    else for the results; a dummy switch has none. -/
def simulateOn (conf : SimulatorConfiguration) (firstCall : Bool) (slots : List Slot)
    (sim : Instrumented) : Except Halt Instrumented := do
  require (sim.reset = true) .notReset
  require (firstCall = true → conf.switchTypeOf ≠ "dummy") .nullScheduler
  require (sim.queuesEmpty = true) .nonEmptyInitialization
  let f := flagsOf sim.instruments
  -- A comparison with the estimates, which are not numbers yet, is false.
  let ins ← conf.loop f slots Efforts.neverEnds 0 (sim.instruments.access "throughput")
  let ins ← use ins f.recorded
  -- packets that have not departed are still queued
  .ok { instruments := ins, reset := false, queuesEmpty := false }

/-! ### The public calls -/

/-- `reset`, as far as it is about the instruments and the queues. -/
def reset (sim : Instrumented) : Except Halt Instrumented :=
  if sim.reset then .ok sim
  else do
    let ins ← use sim.instruments (sim.instruments.keys.filter (· ≠ "throughput"))
    .ok { instruments := ins, reset := true, queuesEmpty := true }

/-- What `simulate` does with a pair of an injection model and a traffic pattern. -/
structure Simulation where
  /-- the load is beyond the boundary of the stable region -/
  skipped : Bool
  slots : List Slot

/-- One pass of the loops of `simulate`.  No boundary is known in the first one. -/
def simulateStep (conf : SimulatorConfiguration) (firstCall : Bool) (s : Simulation)
    (sim : Instrumented) : Except Halt Instrumented := do
  let sim ← (if firstCall = false ∧ s.skipped = true then .ok sim
    else conf.simulateOn firstCall s.slots sim)
  reset sim

/-- `simulate`. -/
def simulate (conf : SimulatorConfiguration) (sims : ℕ → Simulation) (sim : Instrumented) :
    Except Halt Instrumented := do
  let sim ← (if sim.reset then .ok sim else reset sim)
  (List.range conf.simulations).foldlM
    (fun sim k => conf.simulateStep (decide (k = 0)) (sims k) sim) sim

/-- A public call that uses instruments. -/
inductive Call where
  | simulate (sims : ℕ → Simulation)
  | reset

/-- A call.  Its caller may catch the exception about queues that are not empty, which comes from
    the first pass, before it has used any instrument. -/
def call (conf : SimulatorConfiguration) (sim : Instrumented) : Call → Except Halt Instrumented
  | .simulate sims =>
    match conf.simulate sims sim with
    | .error .nonEmptyInitialization => .ok { sim with reset := false }
    | result => result
  | .reset => SimulatorConfiguration.reset sim

/-- A run of the simulator. -/
def run (conf : SimulatorConfiguration) (calls : List Call) (sim : Instrumented) :
    Except Halt Instrumented :=
  calls.foldlM conf.call sim

/-- `delay` is configured, or is among the defaults. -/
def HasDelay (conf : SimulatorConfiguration) : Prop :=
  (∃ names, conf.instruments = some names ∧ "delay" ∈ names) ∨
    (conf.instruments = none ∧ ∃ type, conf.switchType = some type ∧ type ≠ "simplified")

/-- `totalQueueLength` is configured, or nothing is. -/
def HasTotalQueueLength (conf : SimulatorConfiguration) : Prop :=
  ∀ names, conf.instruments = some names → "totalQueueLength" ∈ names

/-! ### What the constructor creates -/

/-- The instruments after the names `done`, and whether one is shared. -/
structure Creating (done : List String) (acc : Instruments × Bool) : Prop where
  noNull : acc.1.NoNull
  mem : ∀ name, name ≠ "throughput" → (name ∈ acc.1 ↔ name ∈ done)
  throughput : "throughput" ∈ acc.1 ↔ acc.2 = true
  shared : acc.2 = true ↔ ∃ name ∈ done, name ≠ "throughput"
  supported : ∀ name ∈ done, name ∈ ["throughput", "delay", "totalQueueLength"]

theorem Creating.step {done : List String} {acc : Instruments × Bool} (h : Creating done acc)
    (name : String) :
    Post (initStep acc name) (fun _ => True) (Creating (name :: done)) := by
  unfold initStep
  by_cases hthroughput : name = "throughput"
  · rw [if_pos hthroughput]
    subst hthroughput
    exact
      { noNull := h.noNull
        mem := fun name' hne => by rw [h.mem name' hne, List.mem_cons, or_iff_right hne]
        throughput := h.throughput
        shared := by simp [h.shared]
        supported := by simpa using h.supported }
  rw [if_neg hthroughput]
  by_cases hname : name = "delay" ∨ name = "totalQueueLength"
  swap
  · rw [if_neg hname]
    trivial
  rw [if_pos hname]
  have hsupported : ∀ name' ∈ name :: done,
      name' ∈ ["throughput", "delay", "totalQueueLength"] := by
    simpa [hthroughput, hname] using h.supported
  have hshared : ∃ name' ∈ name :: done, name' ≠ "throughput" :=
    ⟨name, List.mem_cons_self, hthroughput⟩
  have hnoNull := h.noNull.insert name name
  dsimp only
  split
  · rename_i hacc
    exact
      { noNull := hnoNull
        mem := fun name' hne => by rw [AList.mem_insert, h.mem name' hne, List.mem_cons]
        throughput := by
          rw [AList.mem_insert, h.throughput]
          exact iff_of_true (.inr hacc) rfl
        shared := iff_of_true rfl hshared
        supported := hsupported }
  · -- the first of the other instruments is `throughput` as well
    exact
      { noNull := PointerMap.NoNull.insert hnoNull "throughput" name
        mem := fun name' hne => by
          rw [AList.mem_insert, or_iff_right hne, AList.mem_insert, h.mem name' hne, List.mem_cons]
        throughput := iff_of_true ((AList.mem_insert _).mpr (.inl rfl)) rfl
        shared := iff_of_true rfl hshared
        supported := hsupported }

/-- What is in `_instruments` once the constructor has returned. -/
structure Created (conf : SimulatorConfiguration) (ins : Instruments) : Prop where
  noNull : ins.NoNull
  delay : "delay" ∈ ins ↔ conf.HasDelay
  totalQueueLength : "totalQueueLength" ∈ ins ↔ conf.HasTotalQueueLength
  throughput : "throughput" ∈ ins ↔ "delay" ∈ ins ∨ "totalQueueLength" ∈ ins

section

variable {conf : SimulatorConfiguration} {ins : Instruments}

/-- Instruments that exist can be used. -/
theorem use_of_mem (hnull : ins.NoNull) {names : List String} (h : ∀ name ∈ names, name ∈ ins) :
    use ins names = .ok ins :=
  PointerMap.derefs_of_subset hnull _ h

theorem use_singleton_of_notMem {name : String} (h : name ∉ ins) :
    use ins [name] = .error (.nullPointer name) := by
  unfold use PointerMap.derefs
  rw [List.foldlM_cons, PointerMap.deref_of_notMem _ h, error_bind]

theorem departing_eq (hnull : ins.NoNull) (departures : ℕ) :
    conf.departing departures ins = .ok ins := by
  unfold departing
  split
  · induction List.range departures with
    | nil => rfl
    | cons _ rest ih =>
      rw [List.foldlM_cons]
      by_cases hdelay : "delay" ∈ ins
      · rw [if_pos hdelay, use_of_mem hnull (by simpa using hdelay), ok_bind]
        exact ih
      · rw [if_neg hdelay, ok_bind]
        exact ih
  · rfl

theorem mem_of_guarded {p : Prop} [Decidable p] {names : List String}
    (h : p → ∀ name ∈ names, name ∈ ins) : ∀ name ∈ if p then names else [], name ∈ ins := by
  split
  · exact h ‹_›
  · exact nofun

/-- What the flags guard is there, so that the run can be reported on. -/
theorem reported_subset (hthroughput : "throughput" ∈ ins) (k : ℕ) :
    ∀ name ∈ (flagsOf ins).reported k, name ∈ ins := by
  unfold Flags.reported flagsOf
  rw [List.forall_mem_append, List.forall_mem_append]
  refine ⟨⟨?_, mem_of_guarded (fun h => ?_)⟩, mem_of_guarded (fun h name hname => ?_)⟩
  · simpa using hthroughput
  · simpa using h
  · rw [List.eq_of_mem_replicate hname]
    exact of_decide_eq_true h

theorem stoppingIns_mem (hcreated : Created conf ins) (hthroughput : "throughput" ∈ ins) :
    (flagsOf ins).stoppingIns ∈ ins := by
  unfold Flags.stoppingIns flagsOf
  by_cases hdelay : "delay" ∈ ins
  · rw [if_pos (decide_eq_true hdelay)]
    exact hdelay
  · rw [if_neg (by simpa using hdelay)]
    exact (hcreated.throughput.mp hthroughput).resolve_left hdelay

/-- An iteration, once there is an instrument to count with: all it uses is there, but for the last
    one. -/
theorem iteration_eq (hcreated : Created conf ins) (hthroughput : "throughput" ∈ ins) (slot : Slot)
    (n : ℕ) :
    conf.iteration (flagsOf ins) slot n ins =
      if conf.efforts.printInterval % 2 ^ 64 = 0 then .error .divisionByZero
      else if conf.efforts.least.toSize < (n + 1) % 2 ^ 64 ∧ slot.estimates.outOfMemory then
        .ok (ins, true)
      else if "delay" ∈ ins then .ok (ins, slot.estimates.unstable)
      else .error (.nullPointer "delay") := by
  have huse : ∀ {names : List String}, (∀ name ∈ names, name ∈ ins) → use ins names = .ok ins :=
    use_of_mem hcreated.noNull
  have hcount : use ins ["throughput"] = .ok ins := huse (by simpa using hthroughput)
  have hstopping := stoppingIns_mem hcreated hthroughput
  have hprinted : ∀ name ∈ (flagsOf ins).printed, name ∈ ins := reported_subset hthroughput 2
  unfold iteration
  rw [hcount, ok_bind, departing_eq hcreated.noNull, ok_bind, hcount, ok_bind,
    huse (mem_of_guarded (fun h => by simpa using of_decide_eq_true h)), ok_bind,
    huse (mem_of_guarded (fun _ => by simpa using hstopping)), ok_bind]
  dsimp only
  by_cases hinterval : conf.efforts.printInterval % 2 ^ 64 = 0
  · rw [if_pos hinterval, Foundation.require, if_neg (not_not.mpr hinterval), error_bind]
  · rw [if_neg hinterval, require_pos hinterval, ok_bind,
      huse (mem_of_guarded (fun _ => hprinted)), ok_bind]
    split
    · rfl
    · by_cases hdelay : "delay" ∈ ins
      · rw [if_pos hdelay, huse (by simpa using hdelay), ok_bind]
      · rw [if_neg hdelay, use_singleton_of_notMem hdelay, error_bind]

end

/-! ### Runs -/

/-- Reasons to halt that are not about instruments. -/
def OtherHalt (h : Halt) : Prop := ∀ name, h ≠ .nullPointer name

section

variable {conf : SimulatorConfiguration} {ins : Instruments} {sim : Instrumented}

/-- With a delay to look at, or without an iteration that gets so far, the loop uses instruments
    that exist. -/
theorem loop_post (hcreated : Created conf ins) (hthroughput : "throughput" ∈ ins)
    (hsafe : "delay" ∈ ins ∨ conf.efforts.printInterval % 2 ^ 64 = 0) (slots : List Slot)
    (est : Efforts.Estimates) (n : ℕ) :
    Post (conf.loop (flagsOf ins) slots est n ins) OtherHalt (· = ins) := by
  induction slots generalizing est n with
  | nil =>
    unfold loop
    split
    · rfl
    · exact nofun
  | cons slot rest ih =>
    unfold loop
    split
    · rfl
    · dsimp only
      rw [iteration_eq hcreated hthroughput]
      split
      · exact nofun
      · rename_i hinterval
        split
        · rfl
        -- The test of the delay is reached.
        · rw [if_pos (hsafe.resolve_right hinterval), ok_bind]
          dsimp only
          split
          · rfl
          · exact ih slot.estimates _

/-- The condition under which `simulate_on` can do with what there is. -/
def Suffices (conf : SimulatorConfiguration) : Prop :=
  conf.HasDelay ∨ (conf.HasTotalQueueLength ∧ conf.efforts.printInterval % 2 ^ 64 = 0)

theorem simulateOn_post (hcreated : Created conf sim.instruments) (hsuffices : conf.Suffices)
    (firstCall : Bool) (slots : List Slot) :
    Post (conf.simulateOn firstCall slots sim) OtherHalt
      (fun sim' => sim'.instruments = sim.instruments) := by
  have hthroughput : "throughput" ∈ sim.instruments := by
    rw [hcreated.throughput, hcreated.delay, hcreated.totalQueueLength]
    exact hsuffices.imp_right And.left
  have hsafe : "delay" ∈ sim.instruments ∨ conf.efforts.printInterval % 2 ^ 64 = 0 := by
    rw [hcreated.delay]
    exact hsuffices.imp_right And.right
  have hrecorded : ∀ name ∈ (flagsOf sim.instruments).recorded, name ∈ sim.instruments :=
    reported_subset hthroughput 3
  unfold simulateOn
  refine Post.require_bind (fun _ => nofun) (fun _ => ?_)
  refine Post.require_bind (fun _ => nofun) (fun _ => ?_)
  refine Post.require_bind (fun _ => nofun) (fun _ => ?_)
  dsimp only
  rw [PointerMap.access_of_mem hthroughput]
  refine (loop_post hcreated hthroughput hsafe slots _ 0).bind (fun ins hins => ?_)
  subst hins
  rw [use_of_mem hcreated.noNull hrecorded, ok_bind]
  rfl

theorem reset_post (hnull : sim.instruments.NoNull) :
    Post (reset sim) OtherHalt
      (fun sim' => sim'.instruments = sim.instruments ∧ sim'.reset = true) := by
  unfold reset
  split
  · exact ⟨rfl, ‹_›⟩
  · rw [use_of_mem hnull (fun name hname => AList.mem_keys.mpr (List.mem_of_mem_filter hname)),
      ok_bind]
    exact ⟨rfl, rfl⟩

theorem simulateStep_post (hcreated : Created conf sim.instruments) (hsuffices : conf.Suffices)
    (firstCall : Bool) (s : Simulation) :
    Post (conf.simulateStep firstCall s sim) OtherHalt
      (fun sim' => sim'.instruments = sim.instruments) := by
  have hon : Post (if firstCall = false ∧ s.skipped = true then .ok sim
      else conf.simulateOn firstCall s.slots sim) OtherHalt
      (fun sim' => sim'.instruments = sim.instruments) := by
    split
    · rfl
    · exact simulateOn_post hcreated hsuffices firstCall s.slots
  refine hon.bind (fun sim' h => ?_)
  exact (reset_post (by rw [h]; exact hcreated.noNull)).imp (fun _ h' => h'.1.trans h)

/-- The first pass does not get to the instruments of a simulator with a dummy switch. -/
theorem simulateStep_dummy (hdummy : conf.switchTypeOf = "dummy") (s : Simulation) :
    Post (conf.simulateStep true s sim) OtherHalt
      (fun _ => False) := by
  unfold simulateStep
  rw [if_neg (fun h => Bool.noConfusion h.1)]
  unfold simulateOn
  rw [bind_assoc]
  refine Post.require_bind (fun _ => nofun) (fun _ => ?_)
  rw [bind_assoc]
  exact Post.require_bind (fun _ => nofun) (fun h => absurd hdummy (h rfl))

/-- A configuration with which every use of an instrument, in every run, finds it. -/
def Safe (conf : SimulatorConfiguration) : Prop :=
  conf.switchTypeOf = "dummy" ∨ conf.Suffices ∨ conf.simulations = 0

/-- `simulate` leaves the instruments as they are. -/
theorem simulate_post (hcreated : Created conf sim.instruments) (hsafe : conf.Safe)
    (sims : ℕ → Simulation) :
    Post (conf.simulate sims sim) OtherHalt (fun sim' => sim'.instruments = sim.instruments) := by
  have hstart : Post (if sim.reset then .ok sim else reset sim) OtherHalt
      (fun sim' => sim'.instruments = sim.instruments) := by
    split
    · rfl
    · exact (reset_post hcreated.noNull).imp (fun _ h => h.1)
  refine hstart.bind (fun sim₁ h₁ => ?_)
  rcases hsafe with hdummy | hsuffices | hzero
  · -- It halts in the first pass, if there is one.
    cases hk : conf.simulations with
    | zero => exact h₁
    | succ k =>
      rw [List.range_succ_eq_map, List.foldlM_cons]
      refine Post.bind (P := fun _ => False) ?_ (fun _ h => h.elim)
      exact simulateStep_dummy hdummy (sims 0)
  · refine Post.foldlM h₁ (fun k _ sim₂ h₂ => ?_)
    have hcreated' : Created conf sim₂.instruments := by rwa [h₂]
    exact (simulateStep_post hcreated' hsuffices _ (sims k)).imp (fun _ h => h.trans h₂)
  · rw [hzero]
    exact h₁

end

/-! ### The configurations -/

end SimulatorConfiguration

end SschedSimulator
