import SschedSimulator.Scheduler.Factory
import SschedSimulator.Switch.Refinement

namespace SschedSimulator

open Foundation

/-!
# What the schedulers see of a switch

All schedulers that the factory builds ask the switch for its arrivals and its queue lengths, and
for nothing else.

* `schedule_congr` — the base classes of the batch schedulers do so in one place;
* `SchedulerConf.extensional` — so every scheduler of the factory is a function of its state, the
  arrivals and the queue lengths.
-/

variable {n m : ℕ}

namespace SbQps

/-- A small-batch scheduler reads nothing of the switch but the arrivals. -/
theorem schedule_congr {τ : Type} [BatchTables τ n m]
    (qps : ℕ → Core τ n m → Except Fault (Core τ n m)) (B : ℕ) {sw sw' : IQSwitch n m}
    (h : sw.getArrivals = sw'.getArrivals) (st : SbState τ n m) :
    schedule qps B sw st = schedule qps B sw' st := by
  unfold schedule slotRound enterSlot
  rw [h]

/-- Whatever is done in `qps`, which does not see the switch. -/
theorem sbModel_extensional {τ D : Type} [BatchTables τ n m]
    (qps : D → ℕ → Core τ n m → Except Fault (Core τ n m)) (B : ℕ) :
    (sbModel qps B).Extensional :=
  fun draws _ _ st harrivals _ => schedule_congr (qps draws) B harrivals st

end SbQps

namespace MaxWeight.Square

/-- A length is read, or the same exception thrown. -/
theorem getQueueLength_congr {sw sw' : IQSwitch n m} (h : sw.getQueueLength = sw'.getQueueLength)
    (s d : Fin n) : getQueueLength sw s d = getQueueLength sw' s d := by
  unfold getQueueLength
  rw [h]

/-- The departures read the lengths only. -/
theorem handleDepartures_congr {sw sw' : IQSwitch n m}
    (h : sw.getQueueLength = sw'.getQueueLength) (edges : Fin n → Fin n → ℕ)
    (inMatch : Fin n → Option (Fin n)) (weight : ℕ → ℤ) :
    handleDepartures edges sw inMatch weight = handleDepartures edges sw' inMatch weight := by
  have hstep : departInput edges sw inMatch = departInput edges sw' inMatch := by
    funext weight s
    unfold departInput
    split
    · rfl
    · rw [getQueueLength_congr h]
  unfold handleDepartures
  rw [hstep]

end MaxWeight.Square

namespace SlidingWindowQps

/-- A window scheduler reads the arrivals. -/
theorem handlePacketArrivals_congr {sw sw' : IQSwitch n m} (h : sw.getArrivals = sw'.getArrivals)
    (st : State n m) : handlePacketArrivals sw st = handlePacketArrivals sw' st := by
  unfold handlePacketArrivals
  rw [h]

end SlidingWindowQps

namespace SchedulerConf

/-- Every scheduler of the factory. -/
theorem extensional (conf : SchedulerConf n m) : conf.model.Extensional := by
  intro input sw sw' st harrivals hlength
  -- Each case unfolds the steps of `schedule` that ask the switch for something.
  cases conf with
  | dummy => rfl
  | maximumWeight mwm outMatchEnabled =>
    show MaxWeight.Square.schedule mwm outMatchEnabled sw st = MaxWeight.Square.schedule _ _ sw' st
    unfold MaxWeight.Square.schedule
    simp only [harrivals, MaxWeight.Square.handleDepartures_congr hlength]
  | randomizedMaximal => exact randomizedMaximal_extensional n m input sw sw' st harrivals hlength
  | islip iterations grantPointer acceptPointer =>
    show Islip.Ints.schedule iterations sw st = Islip.Ints.schedule iterations sw' st
    unfold Islip.Ints.schedule Islip.enterSlot
    rw [harrivals, hlength]
  | qps cfg =>
    show Qps.schedule cfg input sw st = Qps.schedule cfg input sw' st
    unfold Qps.schedule
    rw [harrivals, hlength]
  | randomizedEdgeColoring frameSize =>
    show EdgeColoring.schedule input sw st = EdgeColoring.schedule input sw' st
    unfold EdgeColoring.schedule EdgeColoring.handleArrivals
    rw [harrivals]
  | sbQpsHalfHalfOblivious frameSize =>
    exact SbQps.sbModel_extensional _ frameSize input sw sw' st harrivals hlength
  | sbQpsHalfHalfAvailabilityAware frameSize sort =>
    exact SbQps.sbModel_extensional _ frameSize input sw sw' st harrivals hlength
  | sbQpsHalfHalfMI frameSize sort =>
    exact SbQps.sbModel_extensional _ frameSize input sw sw' st harrivals hlength
  | sbQpsThreeThirdMI frameSize sort =>
    exact SbQps.sbModel_extensional _ frameSize input sw sw' st harrivals hlength
  | sbQpsHalfHalfMA frameSize sort =>
    exact SbQps.sbModel_extensional _ frameSize input sw sw' st harrivals hlength
  | sbQpsHalfHalfMAMI frameSize sort =>
    exact SbQps.sbModel_extensional _ frameSize input sw sw' st harrivals hlength
  | sbQpsAdaptive frameSize sort =>
    exact SbQps.sbModel_extensional _ frameSize input sw sw' st harrivals hlength
  | sbQpsBasic frameSize =>
    exact SbQps.sbModel_extensional _ frameSize input sw sw' st harrivals hlength
  | slidingWindowQps cfg sort =>
    show SlidingWindowQps.schedule cfg sort input sw st = SlidingWindowQps.schedule _ _ _ sw' st
    unfold SlidingWindowQps.schedule SlidingWindowQps.qps
    simp only [SlidingWindowQps.handlePacketArrivals_congr harrivals]
  | slidingWindowRr cfg =>
    show SlidingWindowRr.schedule cfg input sw st = SlidingWindowRr.schedule cfg input sw' st
    unfold SlidingWindowRr.schedule SlidingWindowRr.qps SlidingWindowRr.handlePacketArrivals
    rw [harrivals]
  | sbQpsConditional frameSize iterRound =>
    show SbQps.Conditional.schedule frameSize iterRound input sw st
      = SbQps.Conditional.schedule frameSize iterRound input sw' st
    unfold SbQps.Conditional.schedule SbQps.Conditional.enterSlot
    rw [harrivals]
  | swQpsBestFit frameSize sort maxMatching =>
    show SwQpsBestFit.schedule frameSize sort maxMatching input sw st
      = SwQpsBestFit.schedule frameSize sort maxMatching input sw' st
    unfold SwQpsBestFit.schedule SwQpsBestFit.qps
    simp only [SlidingWindowQps.handlePacketArrivals_congr harrivals]
  | sbQpsFixed cfg sort =>
    show SbQps.Fixed.schedule cfg sort input sw st = SbQps.Fixed.schedule cfg sort input sw' st
    unfold SbQps.Fixed.schedule SbQps.Fixed.slotRound SbQps.Fixed.handlePacketArrivals
    rw [harrivals]

end SchedulerConf

end SschedSimulator
