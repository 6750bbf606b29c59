import SschedSimulator.Scheduler.RandomizedMaximal
import SschedSimulator.Switch.Departures

namespace SschedSimulator

open Foundation

/-!
# The simplified switch refines the generic one

Both switches are run with one scheduler on the same arrivals and random choices.

* `Extensional` — the scheduler looks at the arrivals and the queue lengths only;
* `Refines` — what relates the two switches after every slot;
* `Refines.switching` — a slot keeps it, and faults in both or in neither;
* `simplified_refines_generic` — the same for whole runs from empty switches.
-/

variable {n m : ℕ} {S : SchedulerModel n m}

/-- The scheduler is a function of its state, the arrivals and the queue lengths. -/
def SchedulerModel.Extensional (S : SchedulerModel n m) : Prop :=
  ∀ input sw sw' st, sw.getArrivals = sw'.getArrivals → sw.getQueueLength = sw'.getQueueLength →
    S.schedule input sw st = S.schedule input sw' st

/-- The simplified switch after its constructor. -/
def SIQSwitch.construct (n m : ℕ) : SIQSwitch n m where
  queueLenMat := fun _ _ => 0
  arrivals := []
  departures := []

/-- The queues have the lengths that are counted, and both switches report the same. -/
structure Refines (sw : SIQSwitch n m) (gw : GIQSwitch n m) : Prop where
  info : gw.enableDepartureInfo = true
  sorted : gw.Sorted
  queueLen : sw.queueLenMat = gw.queueLen
  arrivals : sw.arrivals.pairs = gw.arrivals.pairs
  departures : sw.departures.pairs = gw.departures.pairs

/-- Both runs fault at the same point, or both return related switches and the same scheduler. -/
def InStep (x y : Except Fault (System S)) : Prop :=
  (∃ e, x = .error e ∧ y = .error e) ∨
  ∃ sw gw st, x = .ok ⟨.simplified sw, st⟩ ∧ y = .ok ⟨.generic gw, st⟩ ∧ Refines sw gw

section

variable {sw sw' : SIQSwitch n m} {gw gw' : GIQSwitch n m} {channels : Fin n → List (Packet n m)}

theorem refines_construct (out : Fin m → List (Packet n m)) :
    Refines (SIQSwitch.construct n m) (GIQSwitch.construct true out) where
  info := rfl
  sorted := fun _ _ _ h => absurd h List.not_mem_nil
  queueLen := rfl
  arrivals := rfl
  departures := rfl

/-- The scheduler sees the same after reading. -/
theorem Refines.readInputs (h : Refines sw gw) (channels : Fin n → List (Packet n m)) :
    (IQSwitch.simplified (sw.readInputs channels)).getArrivals
        = (IQSwitch.generic (gw.readInputs channels)).getArrivals ∧
      (sw.readInputs channels).queueLenMat = (gw.readInputs channels).queueLen := by
  constructor
  · exact (IQSwitch.readInputs_arrivals (.simplified sw) channels).trans
      (IQSwitch.readInputs_arrivals (.generic gw) channels).symm
  · ext s d
    have hs := IQSwitch.readInputs_queueLength (.simplified sw) channels s d
    have hg := IQSwitch.readInputs_queueLength (.generic gw) channels s d
    have hlen : sw.queueLenMat s d = gw.queueLen s d := by rw [h.queueLen]
    exact hs.trans ((congrArg (· + _) hlen).trans hg.symm)

/-- Writing leaves the arrivals alone. -/
theorem SIQSwitch.arrivals_of_writeOutputs {inMatch : Fin n → Option (Fin m)}
    (h : sw.writeOutputs inMatch = .ok sw') : sw'.arrivals = sw.arrivals := by
  have hloop : Post ((List.finRange n).foldlM (SIQSwitch.writeInput inMatch) (sw, 0))
      (fun _ => True) (fun acc => acc.1.arrivals = sw.arrivals) := by
    refine Post.foldlM rfl (fun src _ acc hacc => ?_)
    unfold SIQSwitch.writeInput
    split
    · exact hacc
    split
    · exact hacc
    · exact hacc
  have hpost : Post (sw.writeOutputs inMatch) (fun _ => True)
      (fun sw' => sw'.arrivals = sw.arrivals) := hloop.bind (fun acc hacc => hacc)
  exact hpost.of_ok h

theorem GIQSwitch.arrivals_of_writeOutputs {inMatch : Fin n → Option (Fin m)}
    (hinfo : gw.enableDepartureInfo = true) (h : gw.writeOutputs inMatch = .ok gw') :
    gw'.arrivals = gw.arrivals := by
  have hloop : Post ((List.finRange n).foldlM (GIQSwitch.writeInputEnabled inMatch) (gw, 0))
      (fun _ => True) (fun acc => acc.1.arrivals = gw.arrivals) := by
    refine Post.foldlM rfl (fun src _ acc hacc => ?_)
    unfold GIQSwitch.writeInputEnabled
    dsimp only
    split
    · exact hacc
    split
    · exact hacc
    · exact hacc
  have hpost : Post (gw.writeOutputs inMatch) (fun _ => True)
      (fun gw' => gw'.arrivals = gw.arrivals) := by
    unfold GIQSwitch.writeOutputs
    rw [if_pos hinfo]
    exact hloop.bind (fun acc hacc => hacc)
  exact hpost.of_ok h

/-- The simplified switch checks no output. -/
theorem SIQSwitch.writeOutputs_eq_ok (sw : SIQSwitch n m) (inMatch : Fin n → Option (Fin m)) :
    ∃ sw', sw.writeOutputs inMatch = .ok sw' := by
  have hloop : Post ((List.finRange n).foldlM (SIQSwitch.writeInput inMatch) (sw, 0))
      (fun _ => False) (fun _ => True) :=
    Post.foldlM trivial
      (fun src _ acc _ => (SIQSwitch.writeInput_post inMatch acc src).imp (fun _ _ => trivial))
  obtain ⟨acc, hrun, -⟩ := hloop.exists_ok (fun _ _ he => he)
  exact ⟨_, by rw [SIQSwitch.writeOutputs, hrun, ok_bind]⟩

theorem writeOutputs_simplified {inMatch : Fin n → Option (Fin m)}
    (h : sw.writeOutputs inMatch = .ok sw') :
    (IQSwitch.simplified sw).writeOutputs inMatch = .ok (.simplified sw') := by
  show sw.writeOutputs inMatch >>= _ = _
  rw [h, ok_bind]

theorem writeOutputs_generic {inMatch : Fin n → Option (Fin m)}
    (h : gw.writeOutputs inMatch = .ok gw') :
    (IQSwitch.generic gw).writeOutputs inMatch = .ok (.generic gw') := by
  show gw.writeOutputs inMatch >>= _ = _
  rw [h, ok_bind]

theorem switching_simplified_eq_ok {input : S.Input} {st st' : S.State}
    (hrun : S.schedule input ((IQSwitch.simplified sw).readInputs channels) st = .ok st')
    (hwrite : (sw.readInputs channels).writeOutputs (S.inMatch st') = .ok sw') :
    switching S input channels ⟨.simplified sw, st⟩ = .ok ⟨.simplified sw', st'⟩ := by
  have hwrite' : ((IQSwitch.simplified sw).readInputs channels).writeOutputs (S.inMatch st')
      = .ok (.simplified sw') := writeOutputs_simplified hwrite
  rw [switching, hrun, ok_bind, hwrite', ok_bind]
  rfl

/-- Writing the same matching. -/
theorem Refines.writeOutputs {inMatch : Fin n → Option (Fin m)}
    (hinfo : gw.enableDepartureInfo = true) (hsorted : gw.Sorted)
    (hlen : sw.queueLenMat = gw.queueLen) (harrivals : sw.arrivals.pairs = gw.arrivals.pairs)
    (hs : sw.writeOutputs inMatch = .ok sw') (hg : gw.writeOutputs inMatch = .ok gw') :
    Refines sw' gw' := by
  have hwritten := GIQSwitch.writeOutputs_written hg
  refine ⟨hwritten.info.trans hinfo, GIQSwitch.sorted_of_written hwritten hsorted, ?_, ?_, ?_⟩
  · ext s d
    have hs' := (IQSwitch.writeOutputs_post (.simplified sw) inMatch).of_ok
      (writeOutputs_simplified hs) s d
    have hg' := (IQSwitch.writeOutputs_post (.generic gw) inMatch).of_ok
      (writeOutputs_generic hg) s d
    have hsd : sw.queueLenMat s d = gw.queueLen s d := by rw [hlen]
    exact hs'.trans ((congrArg (· - _) hsd).trans hg'.symm)
  · rw [SIQSwitch.arrivals_of_writeOutputs hs, GIQSwitch.arrivals_of_writeOutputs hinfo hg,
      harrivals]
  · rw [SIQSwitch.departures_eq hs, GIQSwitch.departures_eq hinfo hsorted hg, hlen]

/-- One slot of both switches. -/
theorem Refines.switching (hS : S.Extensional) (h : Refines sw gw) (input : S.Input)
    (channels : Fin n → List (Packet n m)) (st : S.State) :
    InStep (SschedSimulator.switching S input channels ⟨.simplified sw, st⟩)
      (SschedSimulator.switching S input channels ⟨.generic gw, st⟩) := by
  obtain ⟨harrivals, hlen⟩ := h.readInputs channels
  have hsched : S.schedule input ((IQSwitch.simplified sw).readInputs channels) st
      = S.schedule input ((IQSwitch.generic gw).readInputs channels) st :=
    hS input _ _ st harrivals hlen
  cases hrun : S.schedule input ((IQSwitch.generic gw).readInputs channels) st with
  | error e =>
    refine .inl ⟨e, ?_, ?_⟩
    · rw [SschedSimulator.switching, hsched, hrun, error_bind]
    · rw [SschedSimulator.switching, hrun, error_bind]
  | ok st' =>
    have hinfo : (gw.readInputs channels).enableDepartureInfo = true :=
      (gw.readInputs_frame channels).2.2.1.trans h.info
    obtain ⟨sw', hs⟩ := (sw.readInputs channels).writeOutputs_eq_ok (S.inMatch st')
    obtain ⟨gw', hg⟩ : ∃ gw', (gw.readInputs channels).writeOutputs (S.inMatch st') = .ok gw' :=
      (gw.readInputs channels).writeOutputs_eq_ok (.inl hinfo)
    have hwritten := Refines.writeOutputs hinfo (GIQSwitch.sorted_readInputs h.sorted channels)
      hlen harrivals hs hg
    exact .inr ⟨sw', { gw' with time := gw'.time + 1 }, st',
      switching_simplified_eq_ok (hsched.trans hrun) hs, switching_generic_eq_ok hrun hg,
      ⟨hwritten.info, hwritten.sorted, hwritten.queueLen, hwritten.arrivals, hwritten.departures⟩⟩

end

/-- The simplified switch and the generic one with departure information, both empty, run the same:
    in every slot the lengths of the queues, the arrivals that the scheduler sees, the state and the
    matching of the scheduler and the departures that are reported agree, or both runs have
    stopped at the same fault of the scheduler. -/
theorem simplified_refines_generic (hS : S.Extensional) (st : S.State)
    (out : Fin m → List (Packet n m)) (inputs : ℕ → S.Input)
    (channels : ℕ → Fin n → List (Packet n m)) (T : ℕ) :
    (∃ e, runSlots S inputs channels ⟨.simplified (SIQSwitch.construct n m), st⟩ T = .error e ∧
      runSlots S inputs channels ⟨.generic (GIQSwitch.construct true out), st⟩ T = .error e) ∨
    ∃ sw gw st',
      runSlots S inputs channels ⟨.simplified (SIQSwitch.construct n m), st⟩ T
        = .ok ⟨.simplified sw, st'⟩ ∧
      runSlots S inputs channels ⟨.generic (GIQSwitch.construct true out), st⟩ T
        = .ok ⟨.generic gw, st'⟩ ∧
      (∀ s d, sw.queueLenMat s d = (gw.virtualOutputQueue s d).length) ∧
      sw.arrivals.pairs = gw.arrivals.pairs ∧ sw.departures.pairs = gw.departures.pairs := by
  have hrun : InStep (runSlots S inputs channels ⟨.simplified (SIQSwitch.construct n m), st⟩ T)
      (runSlots S inputs channels ⟨.generic (GIQSwitch.construct true out), st⟩ T) := by
    induction T with
    | zero => exact .inr ⟨_, _, st, rfl, rfl, refines_construct out⟩
    | succ T ih =>
      unfold runSlots
      rcases ih with ⟨e, hs, hg⟩ | ⟨sw, gw, st', hs, hg, hrefines⟩
      · exact .inl ⟨e, by rw [hs, error_bind], by rw [hg, error_bind]⟩
      · rw [hs, ok_bind, hg, ok_bind]
        exact hrefines.switching hS (inputs T) (channels T) st'
  rcases hrun with hfault | ⟨sw, gw, st', hs, hg, hrefines⟩
  · exact .inl hfault
  · exact .inr ⟨sw, gw, st', hs, hg, fun s d => congrFun₂ hrefines.queueLen s d,
      hrefines.arrivals, hrefines.departures⟩

/-- The randomized maximal scheduler looks at nothing else. -/
theorem randomizedMaximal_extensional (n m : ℕ) :
    (RandomizedMaximal.model n m).Extensional := by
  intro input sw sw' st harrivals hlen
  show RandomizedMaximal.schedule input sw st = RandomizedMaximal.schedule input sw' st
  rw [RandomizedMaximal.schedule, RandomizedMaximal.schedule, harrivals, hlen]

/-- Two slots in which both inputs have a packet for the same output: in the second it is the second
    input that is matched and reported. -/
theorem simplified_refines_generic_two :
    ∃ sw gw st,
      runSlots (RandomizedMaximal.model 2 2) (fun _ => Reorder.inOrder _)
          (fun _ => packetsFor 1 (fun _ => 1))
          ⟨.simplified (SIQSwitch.construct 2 2), RandomizedMaximal.initial⟩ 2
        = .ok ⟨.simplified sw, st⟩ ∧
      runSlots (RandomizedMaximal.model 2 2) (fun _ => Reorder.inOrder _)
          (fun _ => packetsFor 1 (fun _ => 1))
          ⟨.generic (GIQSwitch.construct true (fun _ => [])), RandomizedMaximal.initial⟩ 2
        = .ok ⟨.generic gw, st⟩ ∧
      sw.departures.pairs = gw.departures.pairs ∧ gw.departures.pairs = [(1, 1)] := by
  obtain ⟨⟨sw', st'⟩, hrun, hsys⟩ := exists_of_returns
    (x := runSlots (RandomizedMaximal.model 2 2) (fun _ => Reorder.inOrder _)
      (fun _ => packetsFor 1 (fun _ => 1))
      ⟨.generic (GIQSwitch.construct true (fun _ => [])), RandomizedMaximal.initial⟩ 2)
    (p := fun sys => match sys.switch with
      | .simplified _ => false
      | .generic gw => decide (gw.departures.pairs = [(1, 1)])) (by decide)
  rcases simplified_refines_generic (randomizedMaximal_extensional 2 2) RandomizedMaximal.initial
      (fun _ => []) (fun _ => Reorder.inOrder _) (fun _ => packetsFor 1 (fun _ => 1)) 2 with
    ⟨e, -, hg⟩ | ⟨sw, gw, st, hs, hg, -, -, hdepartures⟩
  · cases hrun.symm.trans hg
  · cases hrun.symm.trans hg
    exact ⟨sw, gw, _, hs, hg, hdepartures, of_decide_eq_true hsys⟩

end SschedSimulator
