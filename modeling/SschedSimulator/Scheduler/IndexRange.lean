import SschedSimulator.Scheduler.Sized.Factory

namespace SschedSimulator

open Foundation

/-!
# Indices in rectangular switches

A vector with an element for each input may be indexed by outputs, which shows only when there are
more of them.  The pointers of `islip`, which nothing checks, may be negative.

* `IndexSafe` — no index that a call evaluates in a state is outside its vector;
* `indexSafe_of_reachable` — so it is in every reachable state, if the ports fit;
* `not_indexSafe` — the schedulers for which they may not fit do leave their vectors.
-/

namespace SchedulerConf

variable {n m : ℕ}

/-- In this state, whatever arrives and whatever is drawn: the checks on the accesses change
    nothing, no element outside a vector is used, and the sampling trees stay in their arrays. -/
structure IndexSafe (conf : SchedulerConf n m) (st : conf.model.State) : Prop where
  same : ∀ input sw, conf.sizedSchedule input sw st = conf.model.schedule input sw st
  inBounds : ∀ input sw, conf.sizedSchedule input sw st ≠ .error .indexOutOfRange
  trees : TreesInRange n m

/-- The frame size is one for which the match bitmaps are wide enough. -/
def FrameFits (conf : SchedulerConf n m) : Prop :=
  ∀ B, conf.frameSize = some B → 1 ≤ B ∧ B ≤ bitmapWidth

theorem sizedSchedule_of_unbatched {conf : SchedulerConf n m} (h : conf.frameSize = none) :
    conf.sizedSchedule = conf.model.schedule := by
  cases conf with
  | dummy => rfl
  | maximumWeight mwm outMatchEnabled => rfl
  | randomizedMaximal => rfl
  | islip iterations grantPointer acceptPointer => rfl
  | qps cfg => rfl
  | randomizedEdgeColoring frameSize => rfl
  | _ => cases h

/-- In every reachable state every index is within its vector, if the ports are as the vectors need
    them. -/
theorem indexSafe_of_reachable (conf : SchedulerConf n m) (hmates : conf.MatesJoined)
    (hframe : conf.FrameFits) (hfit : conf.PortsFit) {st : conf.model.State}
    (hst : conf.Reachable st) : conf.IndexSafe st := by
  cases hsize : conf.frameSize with
  | none =>
    have hsame := sizedSchedule_of_unbatched hsize
    refine ⟨fun input sw => by rw [hsame], fun input sw => ?_, treesInRange n m⟩
    rw [hsame]
    exact avoids_iff.mp (conf.unbatched_inBounds hmates hfit hsize hst input sw)
  | some B =>
    obtain ⟨hB1, hB⟩ := hframe B hsize
    have hcall : ∀ input sw, Within True
        (conf.sizedSchedule input sw st) (conf.model.schedule input sw st) :=
      fun input sw => conf.batched_checked hmates hsize hB1 hB (fun _ => ⟨hfit, hst⟩) input sw
    exact ⟨fun input sw => (hcall input sw).same,
      fun input sw => (hcall input sw).ne_error (.inr ⟨trivial, rfl⟩), treesInRange n m⟩

/-- In either perfect matching, an edge joins the two ports of a pair. -/
theorem joined_betterPair : MaxWeight.Square.Joined 2 MaxWeight.betterPair := by
  intro weight u v hmate
  simp only [MaxWeight.joins_two_two]
  rw [MaxWeight.betterPair] at hmate
  split at hmate
  · rw [MaxWeight.getElem?_four] at hmate
    obtain ⟨rfl, rfl⟩ | ⟨rfl, rfl⟩ | ⟨rfl, rfl⟩ | ⟨rfl, rfl⟩ := by simpa using hmate
    exacts [⟨0, by decide⟩, ⟨3, by decide⟩, ⟨0, by decide⟩, ⟨3, by decide⟩]
  · rw [MaxWeight.getElem?_four] at hmate
    obtain ⟨rfl, rfl⟩ | ⟨rfl, rfl⟩ | ⟨rfl, rfl⟩ | ⟨rfl, rfl⟩ := by simpa using hmate
    exacts [⟨1, by decide⟩, ⟨2, by decide⟩, ⟨2, by decide⟩, ⟨1, by decide⟩]

/-- A new `maximum_weight` scheduler of a switch with two inputs and one output. -/
theorem indexSafe_betterPair :
    IndexSafe (.maximumWeight MaxWeight.betterPair true : SchedulerConf 2 1)
      (create (.maximumWeight MaxWeight.betterPair true)) :=
  indexSafe_of_reachable (.maximumWeight MaxWeight.betterPair true) joined_betterPair
    (fun _ h => nomatch h) (show 1 ≤ 2 by decide) .create

/-- The first call of a new scheduler may go past the end of a vector. -/
theorem exists_not_indexSafe (conf : SchedulerConf n m) (input : conf.model.Input)
    (sw : IQSwitch n m)
    (h : faultsWith (conf.sizedSchedule input sw conf.create) .indexOutOfRange = true) :
    ¬ ∀ st, conf.Reachable st → conf.IndexSafe st :=
  fun hsafe => (hsafe _ .create).inBounds input sw (eq_error_of_faultsWith h)

/-- No samples, and no shuffle. -/
def idleChoices (n m : ℕ) : SbQps.Conditional.Choices n m where
  qps := fun _ _ => { shuffle := Shuffle.inOrder n, sample := fun _ _ => none }
  fill := fun _ =>
    { outputs := ⟨SbQps.Conditional.outputsVector n m, List.Perm.refl _⟩
      approvals := fun _ => ⟨(Reorder.inOrder (Fin n)).run, (Reorder.inOrder (Fin n)).perm⟩
      draw := fun _ k => k }

/-- With one input and two outputs, a packet for the second output is too much for `maximum_weight`,
    the round-robin window and edge colouring; with three inputs and two outputs, the end of a batch
    is for conditional approvals.  With as many outputs as inputs, the tables of `sb_qps_fixed` are
    empty, and the first scan of `islip` with grant pointers `-1` starts at the element `-1`. -/
theorem not_indexSafe :
    (¬ ∀ st, Reachable (.maximumWeight (fun _ _ u => [1, 0][u]?) false : SchedulerConf 1 2) st →
      IndexSafe (.maximumWeight (fun _ _ u => [1, 0][u]?) false) st) ∧
    (¬ ∀ st, Reachable (.slidingWindowRr ⟨1, 1, false, false⟩ : SchedulerConf 1 2) st →
      IndexSafe (.slidingWindowRr ⟨1, 1, false, false⟩) st) ∧
    (¬ ∀ st, Reachable (.randomizedEdgeColoring 1 : SchedulerConf 1 2) st →
      IndexSafe (.randomizedEdgeColoring 1) st) ∧
    (¬ ∀ st, Reachable (.sbQpsConditional 1 1 : SchedulerConf 3 2) st →
      IndexSafe (.sbQpsConditional 1 1) st) ∧
    (¬ ∀ st, Reachable (.sbQpsFixed ⟨1, 1, false⟩ .insertion : SchedulerConf 2 2) st →
      IndexSafe (.sbQpsFixed ⟨1, 1, false⟩ .insertion) st) ∧
    ¬ ∀ st, Reachable (.islip 1 (fun _ => -1) (fun _ => 0) : SchedulerConf 2 2) st →
      IndexSafe (.islip 1 (fun _ => -1) (fun _ => 0)) st := by
  refine ⟨?_, ?_, ?_, ?_, ?_, ?_⟩
  · exact exists_not_indexSafe _ () ((IQSwitch.empty 1 2).readInputs (packetsFor 1 (fun _ => 1)))
      (by decide +kernel)
  · exact exists_not_indexSafe _ (Shuffle.inOrder 1)
      ((IQSwitch.empty 1 2).readInputs (packetsFor 1 (fun _ => 1))) (by decide +kernel)
  · exact exists_not_indexSafe _ EdgeColoring.firstDraws
      ((IQSwitch.empty 1 2).readInputs (packetsFor 1 (fun _ => 1))) (by decide +kernel)
  · exact exists_not_indexSafe _ (idleChoices 3 2) (IQSwitch.empty 3 2) (by decide +kernel)
  · exact exists_not_indexSafe _ ⟨Shuffle.inOrder 2, fun _ => none⟩ (IQSwitch.empty 2 2)
      (by decide +kernel)
  · exact exists_not_indexSafe _ () (IQSwitch.empty 2 2) (by decide +kernel)

end SchedulerConf

end SschedSimulator
