import SschedSimulator.Scheduler.EdgeColoring
import SschedSimulator.Scheduler.IslipPointers
import SschedSimulator.Scheduler.MaxWeightSquare
import SschedSimulator.Scheduler.Qps
import SschedSimulator.Scheduler.RandomizedMaximal
import SschedSimulator.Scheduler.SbQps.AvailabilityAware
import SschedSimulator.Scheduler.SbQps.Basic
import SschedSimulator.Scheduler.SbQps.Conditional
import SschedSimulator.Scheduler.SbQps.Fixed
import SschedSimulator.Scheduler.SbQps.MultiAccept
import SschedSimulator.Scheduler.SbQps.MultiIteration
import SschedSimulator.Scheduler.SbQps.Oblivious
import SschedSimulator.Scheduler.SlidingWindow.BestFit
import SschedSimulator.Scheduler.SlidingWindow.RoundRobin

namespace SschedSimulator

open Foundation

/-!
# `scheduler_factory.cc` — the schedulers that `SchedulerFactory::Create` builds

* `SchedulerConf` — a configuration: the name of a scheduler with its parameters;
* `model`, `create`, `reset` — the scheduler, the state of a new one, and its `reset()`;
* `frameSize` — the frame size of those that keep match bitmaps.
-/

/-- `DummyScheduler`, which does nothing. -/
abbrev Dummy.model (n m : ℕ) : SchedulerModel n m where
  State := Fin n → Option (Fin m)
  Input := Unit
  schedule := fun _ _ st => .ok st
  inMatch := id

variable {n m : ℕ}

/-- The configurations from which `Create` builds a scheduler for a switch with `n` inputs and `m`
    outputs.  What sorts and solvers do is a parameter. -/
inductive SchedulerConf (n m : ℕ) where
  | dummy
  | maximumWeight (mwm : MaxWeight.Solver) (outMatchEnabled : Bool)
  | randomizedMaximal
  | islip (iterations : ℕ) (grantPointer : Fin m → Int32) (acceptPointer : Fin n → Int32)
  | qps (cfg : Qps.Config)
  | randomizedEdgeColoring (frameSize : ℕ)
  | sbQpsHalfHalfOblivious (frameSize : ℕ)
  | sbQpsHalfHalfAvailabilityAware (frameSize : ℕ) (sort : DescSort (Fin n))
  | sbQpsHalfHalfMI (frameSize : ℕ) (sort : DescSort (Fin n))
  | sbQpsThreeThirdMI (frameSize : ℕ) (sort : DescSort (Fin n))
  | sbQpsHalfHalfMA (frameSize : ℕ) (sort : DescSort (Fin n))
  | sbQpsHalfHalfMAMI (frameSize : ℕ) (sort : DescSort (Fin n))
  | sbQpsAdaptive (frameSize : ℕ) (sort : DescSort (Fin n))
  | sbQpsBasic (frameSize : ℕ)
  | slidingWindowQps (cfg : SlidingWindowQps.Config) (sort : DescSort (Fin n))
  | slidingWindowRr (cfg : SlidingWindowRr.Config)
  | sbQpsConditional (frameSize iterRound : ℕ)
  | swQpsBestFit (frameSize : ℕ) (sort : DescSort (Fin n)) (maxMatching : SwQpsBestFit.Solver)
  | sbQpsFixed (cfg : SbQps.Fixed.Config) (sort : DescSort (Fin n))

namespace SchedulerConf

open SbQps

/-- The scheduler of a configuration. -/
abbrev model : SchedulerConf n m → SchedulerModel n m
  | dummy => Dummy.model n m
  | maximumWeight mwm outMatchEnabled => MaxWeight.Square.model n m mwm outMatchEnabled
  | randomizedMaximal => RandomizedMaximal.model n m
  | islip iterations _ _ => Islip.Ints.model n m iterations
  | qps cfg => Qps.model n m cfg
  | randomizedEdgeColoring _ => EdgeColoring.model n m
  | sbQpsHalfHalfOblivious frameSize => HalfHalfOblivious.model n m frameSize
  | sbQpsHalfHalfAvailabilityAware frameSize sort =>
    HalfHalfAvailabilityAware.model n m frameSize sort
  | sbQpsHalfHalfMI frameSize sort => HalfHalfMI.model n m frameSize sort
  | sbQpsThreeThirdMI frameSize sort => ThreeThirdMI.model n m frameSize sort
  | sbQpsHalfHalfMA frameSize sort => HalfHalfMA.model n m frameSize sort
  | sbQpsHalfHalfMAMI frameSize sort => HalfHalfMAMI.model n m frameSize sort
  | sbQpsAdaptive frameSize sort => Adaptive.model n m frameSize sort
  | sbQpsBasic frameSize => Basic.model n m frameSize
  | slidingWindowQps cfg sort => SlidingWindowQps.model n m cfg sort
  | slidingWindowRr cfg => SlidingWindowRr.model n m cfg
  | sbQpsConditional frameSize iterRound => Conditional.model n frameSize iterRound m
  | swQpsBestFit frameSize sort maxMatching => SwQpsBestFit.model n m frameSize sort maxMatching
  | sbQpsFixed cfg sort => Fixed.model n m cfg sort

/-- `Create`: the state of a new scheduler. -/
def create : (conf : SchedulerConf n m) → conf.model.State
  | dummy => fun _ => none
  | maximumWeight _ _ => MaxWeight.construct n n
  | randomizedMaximal => RandomizedMaximal.initial
  | islip _ grantPointer acceptPointer =>
    Islip.initial (fun o => (grantPointer o).toInt) (fun i => (acceptPointer i).toInt)
  | qps _ => Qps.initial
  | randomizedEdgeColoring frameSize => EdgeColoring.State.initial frameSize
  | sbQpsHalfHalfOblivious _ => HalfHalfOblivious.initial
  | sbQpsHalfHalfAvailabilityAware _ _ => Availability.initial
  | sbQpsHalfHalfMI _ _ => Availability.initial
  | sbQpsThreeThirdMI _ _ => Availability.initial
  | sbQpsHalfHalfMA _ _ => Availability.initial
  | sbQpsHalfHalfMAMI _ _ => Availability.initial
  | sbQpsAdaptive _ _ => Availability.initial
  | sbQpsBasic _ => Basic.initial
  | slidingWindowQps cfg _ => SlidingWindowQps.State.initial cfg
  | slidingWindowRr cfg => SlidingWindowRr.State.initial cfg
  | sbQpsConditional frameSize _ => Conditional.initial n frameSize m
  | swQpsBestFit frameSize _ _ => SlidingWindowQps.State.initial (SwQpsBestFit.window frameSize)
  | sbQpsFixed cfg _ => Fixed.State.initial cfg

/-- `reset()`. -/
def reset : (conf : SchedulerConf n m) → conf.model.State → conf.model.State
  | dummy => id
  | maximumWeight _ _ => MaxWeight.reset
  | randomizedMaximal => RandomizedMaximal.reset
  | islip _ _ _ => Islip.reset
  | qps _ => Qps.reset
  | randomizedEdgeColoring frameSize => EdgeColoring.reset frameSize
  | sbQpsHalfHalfOblivious _ => SbState.reset Reservations.empty
  | sbQpsHalfHalfAvailabilityAware _ _ => SbState.reset (Booking.empty 0)
  | sbQpsHalfHalfMI _ _ => SbState.reset (Booking.empty 0)
  | sbQpsThreeThirdMI _ _ => SbState.reset (Booking.empty 0)
  | sbQpsHalfHalfMA _ _ => SbState.reset (Booking.empty 0)
  | sbQpsHalfHalfMAMI _ _ => SbState.reset (Booking.empty 0)
  | sbQpsAdaptive _ _ => SbState.reset (Booking.empty 0)
  | sbQpsBasic _ => SbState.reset Reservations.empty
  | slidingWindowQps cfg _ => SlidingWindowQps.reset cfg
  | slidingWindowRr cfg => SlidingWindowRr.reset cfg
  | sbQpsConditional frameSize _ => Conditional.reset frameSize
  | swQpsBestFit frameSize _ _ => SlidingWindowQps.reset (SwQpsBestFit.window frameSize)
  | sbQpsFixed cfg _ => Fixed.reset cfg

/-- The frame size of the schedulers that keep match bitmaps. -/
def frameSize : SchedulerConf n m → Option ℕ
  | dummy => none
  | maximumWeight _ _ => none
  | randomizedMaximal => none
  | islip _ _ _ => none
  | qps _ => none
  | randomizedEdgeColoring _ => none
  | sbQpsHalfHalfOblivious frameSize => some frameSize
  | sbQpsHalfHalfAvailabilityAware frameSize _ => some frameSize
  | sbQpsHalfHalfMI frameSize _ => some frameSize
  | sbQpsThreeThirdMI frameSize _ => some frameSize
  | sbQpsHalfHalfMA frameSize _ => some frameSize
  | sbQpsHalfHalfMAMI frameSize _ => some frameSize
  | sbQpsAdaptive frameSize _ => some frameSize
  | sbQpsBasic frameSize => some frameSize
  | slidingWindowQps cfg _ => some cfg.batchSize
  | slidingWindowRr cfg => some cfg.batchSize
  | sbQpsConditional frameSize _ => some frameSize
  | swQpsBestFit frameSize _ _ => some frameSize
  | sbQpsFixed cfg _ => some cfg.batchSize

/-- The states that a scheduler can be in: from its construction by calls of `schedule()`, with any
    switch and random choices, and `reset()`. -/
inductive Reachable (conf : SchedulerConf n m) : conf.model.State → Prop where
  | create : conf.Reachable conf.create
  | schedule (input : conf.model.Input) (sw : IQSwitch n m) {st st' : conf.model.State} :
      conf.Reachable st → conf.model.schedule input sw st = .ok st' → conf.Reachable st'
  | reset {st : conf.model.State} : conf.Reachable st → conf.Reachable (conf.reset st)

end SchedulerConf

end SschedSimulator
