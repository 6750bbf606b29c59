import SschedSimulator.Scheduler.Factory
import SschedSimulator.Scheduler.Sized.Conditional
import SschedSimulator.Scheduler.Sized.SlidingWindow
import SschedSimulator.Scheduler.Sized.SmallBatch
import SschedSimulator.Scheduler.Sized.Unbatched

namespace SschedSimulator

open Foundation

/-!
# The schedulers of the factory over sized vectors

* `sizedSchedule` — `schedule()` with its accesses to rows and queues checked;
* `PortsFit` — the numbers of ports for which no vector of a scheduler is too short;
* `batched_checked` — a call of a scheduler with match bitmaps stays within them and, if its ports
  fit, within its vectors;
* `unbatched_inBounds` — a call of another scheduler stays within its vectors if its ports fit.
-/

namespace SchedulerConf

open SbQps

variable {n m B : ℕ} {ports : Prop}

/-- `schedule()` with checked accesses; the schedulers without a table of frames, and
    `sb_qps_fixed`, check theirs themselves. -/
def sizedSchedule : (conf : SchedulerConf n m) → conf.model.Input → IQSwitch n m →
    conf.model.State → Except Fault conf.model.State
  | sbQpsHalfHalfOblivious frameSize => fun draws =>
    Sized.schedule (HalfHalfOblivious.Sized.qps frameSize draws) frameSize
  | sbQpsHalfHalfAvailabilityAware frameSize sort => fun draws =>
    Sized.schedule (AvailabilityAware.Sized.qps HalfHalfAvailabilityAware.maxAccepts frameSize sort
      draws) frameSize
  | sbQpsHalfHalfMI frameSize sort => fun draws =>
    Sized.schedule (MultiIteration.Sized.qps HalfHalfMI.limits frameSize sort draws) frameSize
  | sbQpsThreeThirdMI frameSize sort => fun draws =>
    Sized.schedule (MultiIteration.Sized.qps ThreeThirdMI.limits frameSize sort draws) frameSize
  | sbQpsHalfHalfMA frameSize sort => fun draws =>
    Sized.schedule (MultiAccept.Sized.qps HalfHalfMA.maxIters frameSize sort draws) frameSize
  | sbQpsHalfHalfMAMI frameSize sort => fun draws =>
    Sized.schedule (MultiAccept.Sized.qps HalfHalfMAMI.maxIters frameSize sort draws) frameSize
  | sbQpsAdaptive frameSize sort => fun draws =>
    Sized.schedule (AvailabilityAware.Sized.qps Adaptive.maxAccepts frameSize sort draws) frameSize
  | sbQpsBasic frameSize => fun draws =>
    Sized.schedule (Basic.Sized.qps frameSize draws) frameSize
  | slidingWindowQps cfg sort => SlidingWindowQps.Sized.schedule cfg sort
  | slidingWindowRr cfg => SlidingWindowRr.Sized.schedule cfg
  | sbQpsConditional frameSize iterRound => Conditional.Sized.schedule frameSize iterRound
  | swQpsBestFit frameSize sort maxMatching =>
    SwQpsBestFit.Sized.schedule frameSize sort maxMatching
  | conf => conf.model.schedule

/-- The numbers of ports that the vectors are made for: `maximum_weight` is built with as many
    outputs as inputs, `sliding_window_rr` and edge colouring have a vector with an element for each
    input that they index by outputs, `sb_qps_conditional` goes through the outputs with the numbers
    of the inputs.  The pointers of `islip` must not be negative.  The tables that `sb_qps_fixed`
    dispatches from are empty. -/
def PortsFit : SchedulerConf n m → Prop
  | maximumWeight _ _ => m ≤ n
  | islip _ grantPointer acceptPointer =>
    (∀ o, Islip.PointerFits n (grantPointer o).toInt) ∧
      ∀ i, Islip.PointerFits m (acceptPointer i).toInt
  | randomizedEdgeColoring _ => m ≤ n
  | slidingWindowRr _ => m ≤ n
  | sbQpsConditional _ _ => n ≤ m
  | sbQpsFixed _ _ => False
  | _ => True

/-- The solvers only match nodes that an edge joins. -/
def MatesJoined : SchedulerConf n m → Prop
  | maximumWeight mwm _ => MaxWeight.Square.Joined n mwm
  | swQpsBestFit _ _ maxMatching => SwQpsBestFit.Joined maxMatching
  | _ => True

/-- The invariant of the round-robin window, resets included. -/
theorem sound_of_reachable {cfg : SlidingWindowRr.Config} (hB1 : 1 ≤ cfg.batchSize)
    (hB : cfg.batchSize ≤ bitmapWidth) {st : (slidingWindowRr cfg : SchedulerConf n m).model.State}
    (h : Reachable (slidingWindowRr cfg) st) :
    SlidingWindowRr.Sound (n := n) (m := m) cfg st := by
  induction h with
  | create => exact SlidingWindowRr.sound_initial cfg
  | schedule input sw _ hok ih =>
    exact ((SlidingWindowRr.schedule_post hB1 hB input sw ih).of_ok hok).1
  | reset _ _ => exact SlidingWindowRr.sound_reset cfg _

/-- The edge list of the maximal scheduler is exact, resets included. -/
theorem exact_of_reachable {st : (randomizedMaximal : SchedulerConf n m).model.State}
    (h : Reachable randomizedMaximal st) : RandomizedMaximal.EdgeSet.Exact st.toEdgeSet := by
  induction h with
  | create => exact RandomizedMaximal.EdgeSet.exact_empty
  | schedule input sw _ hok ih =>
    obtain ⟨st', hrun, hexact, -⟩ := RandomizedMaximal.schedule_eq_ok input sw ih
    exact Except.ok.inj (hrun.symm.trans hok) ▸ hexact
  | reset _ _ => exact RandomizedMaximal.EdgeSet.exact_empty

/-- Pointers that fit go on to fit, resets included. -/
theorem fits_of_reachable {iterations : ℕ} {grantPointer : Fin m → Int32}
    {acceptPointer : Fin n → Int32}
    (hfit : (islip iterations grantPointer acceptPointer : SchedulerConf n m).PortsFit)
    {st : (islip iterations grantPointer acceptPointer : SchedulerConf n m).model.State}
    (h : Reachable (islip iterations grantPointer acceptPointer) st) :
    Islip.Ints.Fits (n := n) (m := m) st := by
  induction h with
  | create => exact ⟨hfit.1, hfit.2⟩
  | schedule input sw _ hok ih =>
    rcases (Islip.Ints.schedule_lockstep ih iterations sw).cases with ⟨a, b, ha, -, hab⟩ | ⟨e, he, -⟩
    · cases ha.symm.trans hok
      exact hab.1
    · cases he.symm.trans hok
  | reset _ ih => exact ih.reset

/-- A call of a scheduler with match bitmaps: the checks of its accesses hold. -/
theorem batched_checked (conf : SchedulerConf n m) (hmates : conf.MatesJoined)
    (hframe : conf.frameSize = some B) (hB1 : 1 ≤ B) (hB : B ≤ bitmapWidth)
    {st : conf.model.State} (hports : ports → conf.PortsFit ∧ conf.Reachable st)
    (input : conf.model.Input) (sw : IQSwitch n m) :
    Within ports (conf.sizedSchedule input sw st) (conf.model.schedule input sw st) := by
  -- The schedulers without match bitmaps have no frame size.
  cases conf with
  | dummy => cases hframe
  | maximumWeight mwm outMatchEnabled => cases hframe
  | randomizedMaximal => cases hframe
  | islip iterations grantPointer acceptPointer => cases hframe
  | qps cfg => cases hframe
  | randomizedEdgeColoring frameSize => cases hframe
  | sbQpsHalfHalfOblivious frameSize =>
    cases hframe
    exact Sized.schedule_checked hB1
      (fun t ht core => HalfHalfOblivious.Sized.qps_checked hB ht input core) sw st
  | sbQpsHalfHalfAvailabilityAware frameSize sort =>
    cases hframe
    exact Sized.schedule_checked hB1
      (fun t ht core => AvailabilityAware.Sized.qps_checked hB ht _ sort input core) sw st
  | sbQpsHalfHalfMI frameSize sort =>
    cases hframe
    exact Sized.schedule_checked hB1
      (fun t ht core => MultiIteration.Sized.qps_checked hB ht _ sort input core) sw st
  | sbQpsThreeThirdMI frameSize sort =>
    cases hframe
    exact Sized.schedule_checked hB1
      (fun t ht core => MultiIteration.Sized.qps_checked hB ht _ sort input core) sw st
  | sbQpsHalfHalfMA frameSize sort =>
    cases hframe
    exact Sized.schedule_checked hB1
      (fun t ht core => MultiAccept.Sized.qps_checked hB ht _ sort input core) sw st
  | sbQpsHalfHalfMAMI frameSize sort =>
    cases hframe
    exact Sized.schedule_checked hB1
      (fun t ht core => MultiAccept.Sized.qps_checked hB ht _ sort input core) sw st
  | sbQpsAdaptive frameSize sort =>
    cases hframe
    exact Sized.schedule_checked hB1
      (fun t ht core => AvailabilityAware.Sized.qps_checked hB ht _ sort input core) sw st
  | sbQpsBasic frameSize =>
    cases hframe
    exact Sized.schedule_checked hB1
      (fun t ht core => Basic.Sized.qps_checked hB ht input core) sw st
  | slidingWindowQps cfg sort =>
    cases hframe
    exact SlidingWindowQps.Sized.schedule_checked hB1 hB sort input sw st
  | slidingWindowRr cfg =>
    cases hframe
    refine SlidingWindowRr.Sized.schedule_checked hB1 hB input sw (fun h => ?_)
    exact ⟨(hports h).1, sound_of_reachable hB1 hB (hports h).2⟩
  | sbQpsConditional frameSize iterRound =>
    cases hframe
    exact Conditional.Sized.schedule_checked hB1 hB (fun h => (hports h).1) iterRound input sw st
  | swQpsBestFit frameSize sort maxMatching =>
    cases hframe
    exact SwQpsBestFit.Sized.schedule_checked hB1 hB sort hmates input sw st
  | sbQpsFixed cfg sort =>
    cases hframe
    have hbits := Fixed.schedule_bits cfg hB sort input sw st
    have hno : ∀ e, OutOfRange ports e → OutOfRange False e :=
      fun e hout => hout.imp_right (fun h => (hports h.1).1.elim)
    exact ⟨rfl, hbits.post.mono (fun e he hout => he (hno e hout)) (fun _ h => h)⟩

/-- A call of a scheduler without match bitmaps, in a state that it can be in. -/
theorem unbatched_inBounds (conf : SchedulerConf n m) (hmates : conf.MatesJoined)
    (hfit : conf.PortsFit) (hframe : conf.frameSize = none) {st : conf.model.State}
    (hst : conf.Reachable st) (input : conf.model.Input) (sw : IQSwitch n m) :
    InBounds (conf.model.schedule input sw st) := by
  -- The schedulers with match bitmaps have a frame size.
  cases conf with
  | dummy => exact avoids_ok
  | maximumWeight mwm outMatchEnabled =>
    exact MaxWeight.Square.schedule_inBounds hmates hfit outMatchEnabled sw (fresh_of_reachable hst)
  | randomizedMaximal =>
    obtain ⟨st', hok, -⟩ := RandomizedMaximal.schedule_eq_ok input sw (exact_of_reachable hst)
    show InBounds (RandomizedMaximal.schedule input sw st)
    rw [hok]
    exact avoids_ok
  | islip iterations grantPointer acceptPointer =>
    exact Islip.Ints.schedule_inBounds iterations sw (fits_of_reachable hfit hst)
  | qps cfg => exact Qps.schedule_inBounds cfg input sw st
  | randomizedEdgeColoring frameSize =>
    exact EdgeColoring.schedule_inBounds hfit input sw (cleared_of_reachable hst)
  | sbQpsHalfHalfOblivious frameSize => cases hframe
  | sbQpsHalfHalfAvailabilityAware frameSize sort => cases hframe
  | sbQpsHalfHalfMI frameSize sort => cases hframe
  | sbQpsThreeThirdMI frameSize sort => cases hframe
  | sbQpsHalfHalfMA frameSize sort => cases hframe
  | sbQpsHalfHalfMAMI frameSize sort => cases hframe
  | sbQpsAdaptive frameSize sort => cases hframe
  | sbQpsBasic frameSize => cases hframe
  | slidingWindowQps cfg sort => cases hframe
  | slidingWindowRr cfg => cases hframe
  | sbQpsConditional frameSize iterRound => cases hframe
  | swQpsBestFit frameSize sort maxMatching => cases hframe
  | sbQpsFixed cfg sort => cases hframe

end SchedulerConf

end SschedSimulator
