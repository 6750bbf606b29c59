import SschedSimulator.Scheduler.Sized.Factory

namespace SschedSimulator

open Foundation

/-!
# Positions in the match bitmaps

The bitmaps of the batch schedulers have a fixed width, and the positions used in them are frames of
the batch.  Whatever the state, a call of `schedule()` only uses frames below the frame size, so no
position is out of range when the frame size is at most the width.

* `bitmaps_inRange_of_run` — no run of a scheduler with `1 ≤ B ≤ 128` throws; with frame size `129`
  one does.
-/

variable {n m B : ℕ}

namespace SchedulerConf

/-- No run of a scheduler with match bitmaps uses a position outside them, when the frame size is at
    least one and at most their width. -/
theorem bitmaps_inRange_of_run (conf : SchedulerConf n m) (hmates : conf.MatesJoined)
    (hframe : conf.frameSize = some B) (hB1 : 1 ≤ B) (hB : B ≤ bitmapWidth)
    (start : System conf.model) (slots : ℕ → conf.model.Input × (Fin n → List (Packet n m)))
    (T : ℕ) :
    steps (fun t sys => switching conf.model (slots t).1 (slots t).2 sys) start T
      ≠ .error .bitOutOfRange := by
  apply avoids_iff.mp
  refine Post.steps (fun _ _ => True) trivial (fun t sys _ => ?_) T
  have hcall : ∀ sw, Within False (conf.sizedSchedule (slots t).1 sw sys.scheduler)
      (conf.model.schedule (slots t).1 sw sys.scheduler) :=
    fun sw => conf.batched_checked hmates hframe hB1 hB (fun h => h.elim) _ sw
  refine Avoids.bind ((hcall _).post.avoids (fun he => he (.inl rfl))) (fun st => ?_)
  -- A switch has no bitmaps.
  exact Avoids.bind ((IQSwitch.writeOutputs_post _ _).avoids (by simp)) (fun _ => avoids_ok)

/-- Two slots with a packet each. -/
theorem bitmaps_inRange_two :
    steps (fun _ sys => switching (model (n := 1) (m := 2) (.slidingWindowQps ⟨128, 3, false, false⟩
        .insertion)) ⟨Shuffle.inOrder 1, fun _ => some 0⟩ (packetsFor 0 (fun _ => 1)) sys)
      ⟨IQSwitch.empty 1 2, create (.slidingWindowQps ⟨128, 3, false, false⟩ .insertion)⟩ 2
      ≠ .error .bitOutOfRange :=
  bitmaps_inRange_of_run (.slidingWindowQps ⟨128, 3, false, false⟩ .insertion) trivial rfl
    (by decide) (by decide) _
    (fun _ => (⟨Shuffle.inOrder 1, fun _ => some 0⟩, packetsFor 0 (fun _ => 1))) 2

/-- With frame size `129`, a packet that comes after `128` idle slots is offered frame `128`. -/
theorem bitmaps_outOfRange_129 :
    ¬ ∀ (slots : ℕ → (model (n := 1) (m := 2) (.slidingWindowQps ⟨129, 3, false, false⟩
        .insertion)).Input × (Fin 1 → List (Packet 1 2))) (T : ℕ),
      steps (fun t sys => switching (model (n := 1) (m := 2)
          (.slidingWindowQps ⟨129, 3, false, false⟩ .insertion)) (slots t).1 (slots t).2 sys)
        ⟨IQSwitch.empty 1 2, create (.slidingWindowQps ⟨129, 3, false, false⟩ .insertion)⟩ T
        ≠ .error .bitOutOfRange := by
  intro hall
  refine hall (fun t => (⟨Shuffle.inOrder 1, fun _ => some 0⟩,
    if t = 128 then packetsFor 0 (fun _ => 1) else fun _ => [])) 129 (eq_error_of_faultsWith ?_)
  decide +kernel

end SchedulerConf

end SschedSimulator
