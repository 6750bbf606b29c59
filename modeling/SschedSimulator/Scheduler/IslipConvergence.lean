import SschedSimulator.Foundation.PartialMatching
import SschedSimulator.Scheduler.Islip

namespace SschedSimulator

open Foundation

/-!
# iSLIP converges to a maximal matching

An output between two free ports that request each other grants some input, and an input that is
granted accepts some output, so an iteration that adds no pair has found a maximal matching.

* `Iterated.converging` — what one iteration does to the matching;
* `maximal_or_le_matchSize` — after `k` iterations the matching is maximal or has `k` pairs;
* `schedule_converges` — so as many iterations as the smaller side has ports suffice.
-/

namespace Islip

variable {n m iterations : ℕ}

/-- The matching of a state is a maximal one of the pairs that request. -/
def Maximal (st : State n m) : Prop :=
  MaximalMatching (fun i o => st.queueStatus i o = true) st.inMatch st.outMatch

/-- What an iteration from `st` to `st'` does to the matching: it removes no pair, and adds one
    unless the matching is maximal already. -/
structure Converging (st st' : State n m) : Prop where
  kept : ∀ i o, st.inMatch i = some o → st'.inMatch i = some o
  progress : (∃ i o, st.inMatch i = none ∧ st'.inMatch i = some o) ∨ Maximal st
  maximal : Maximal st → Maximal st'

/-! ### One iteration -/

/-- A free output that a free input requests grants some input. -/
theorem exists_granted {st : State n m} (h : Sound st) {i : Fin n} {o : Fin m}
    (hi : st.inMatch i = none) (ho : st.outMatch o = none) (hrequest : st.queueStatus i o = true) :
    ∃ j, grantOutput st o = some j := by
  rw [grantOutput, if_neg (not_not.mpr ho)]
  exact RoundRobin.exists_scan (h.grantRange o) _ (y := i) (by rw [hi, hrequest]; rfl)

/-- A free input that some output grants accepts one. -/
theorem exists_accepted {st : State n m} (h : Sound st) {i : Fin n} {o : Fin m}
    (hgrant : grantOutput st o = some i) : ∃ p, accepted st i = some p := by
  rw [accepted, if_neg (not_not.mpr (grantOutput_eq_some hgrant).2.1)]
  exact RoundRobin.exists_scan (h.acceptRange i) _ (decide_eq_true hgrant)

theorem Iterated.kept {first : Bool} {st₀ st : State n m} (h : Iterated first st₀ st) (i : Fin n)
    (o : Fin m) (hio : st₀.inMatch i = some o) : st.inMatch i = some o := by
  rcases h.input i with ⟨-, hin, -⟩ | ⟨o', hacc, -⟩
  · rwa [hin]
  · -- A matched input is not granted.
    rw [(grantOutput_eq_some (accepted_eq_some hacc)).2.1] at hio
    cases hio

/-- A matching that is maximal stays so. -/
theorem Iterated.maximal {first : Bool} {st₀ st : State n m} (h : Iterated first st₀ st)
    (h₀ : Sound st₀) (hmax : Maximal st₀) : Maximal st := by
  have hsound := h.sound h₀
  refine ⟨hsound.mutual_iff, hsound.requested, fun i o hio => ?_⟩
  rw [h.queueStatus] at hio
  exact hmax.inverse.blocked_of_le hsound.mutual_iff h.kept (hmax.blocked i o hio)

theorem Iterated.converging {first : Bool} {st₀ st : State n m} (h : Iterated first st₀ st)
    (h₀ : Sound st₀) : Converging st₀ st := by
  refine ⟨h.kept, ?_, h.maximal h₀⟩
  by_cases hopen : ∃ i o, st₀.queueStatus i o = true ∧ st₀.inMatch i = none ∧
      st₀.outMatch o = none
  · obtain ⟨i, o, hrequest, hi, ho⟩ := hopen
    -- The input granted by `o`, which need not be `i`, accepts an output, which need not be `o`.
    obtain ⟨j, hj⟩ := exists_granted h₀ hi ho hrequest
    obtain ⟨p, hp⟩ := exists_accepted h₀ hj
    exact .inl ⟨j, p, (grantOutput_eq_some hj).2.1, ((h.input j).of_accepted hp).1⟩
  · refine .inr ⟨h₀.mutual_iff, h₀.requested, fun i o hio => ?_⟩
    by_contra hfree
    rw [not_or, not_not, not_not] at hfree
    exact hopen ⟨i, o, hio, hfree⟩

/-! ### All iterations of a slot -/

/-- The states of a slot, from its start on. -/
structure Slot (w : ℕ → State n m) (k : ℕ) : Prop where
  start : Sound (w 0)
  step : ∀ it < k, iterate (w it) it = .ok (w (it + 1))

section

variable {w : ℕ → State n m} {k : ℕ}

theorem Slot.iterated (h : Slot w k) {it : ℕ} (hit : it < k) :
    Iterated (it == 0) (w it) (w (it + 1)) := by
  obtain ⟨st', hrun, hiterated⟩ := iterate_eq_ok (w it) it
  obtain rfl : st' = w (it + 1) := Except.ok.inj (hrun.symm.trans (h.step it hit))
  exact hiterated

theorem Slot.sound (h : Slot w k) {it : ℕ} (hit : it ≤ k) :
    Sound (w it) ∧ (w it).queueStatus = (w 0).queueStatus := by
  induction it with
  | zero => exact ⟨h.start, rfl⟩
  | succ it ih =>
    obtain ⟨hsound, hstatus⟩ := ih (by omega)
    have hiterated := h.iterated (by omega : it < k)
    exact ⟨hiterated.sound hsound, hiterated.queueStatus.trans hstatus⟩

theorem Slot.converging (h : Slot w k) {it : ℕ} (hit : it < k) :
    Converging (w it) (w (it + 1)) :=
  (h.iterated hit).converging (h.sound hit.le).1

/-- Each iteration has added a pair unless the matching is maximal. -/
theorem Slot.maximal_or_le_matchSize (h : Slot w k) {it : ℕ} (hit : it ≤ k) :
    Maximal (w it) ∨ it ≤ matchSize (w it).inMatch := by
  induction it with
  | zero => exact .inr (Nat.zero_le _)
  | succ it ih =>
    obtain ⟨hkept, hprogress, hmaximal⟩ := h.converging (by omega : it < k)
    rcases ih (by omega) with hmax | hsize
    · exact .inl (hmaximal hmax)
    -- Not yet maximal: this iteration adds a pair, or finds that it is.
    · rcases hprogress with ⟨i, o, hi, hio⟩ | hmax
      · have hlt := matchSize_lt_of_le hkept hi (by rw [hio]; exact Option.some_ne_none o)
        exact .inr (by omega)
      · exact .inl (hmaximal hmax)

/-- A matching with as many pairs as the smaller side has ports is maximal. -/
theorem Sound.maximal_of_full {st : State n m} (h : Sound st)
    (hfull : min n m ≤ matchSize st.inMatch) : Maximal st :=
  MutuallyInverse.maximalMatching_of_full h.mutual_iff h.requested
    (by rwa [Fintype.card_fin, Fintype.card_fin])

theorem Slot.maximal (h : Slot w k) (hk : min n m ≤ k) : Maximal (w k) := by
  rcases h.maximal_or_le_matchSize (le_refl k) with hmax | hsize
  · exact hmax
  · exact (h.sound (le_refl k)).1.maximal_of_full (hk.trans hsize)

end

/-- A call of `schedule` with the pointers in range, iteration by iteration. -/
theorem schedule_eq_slot (iterations : ℕ) (sw : IQSwitch n m) {st : State n m}
    (hgrant : ∀ o, st.grantPointers o < n) (haccept : ∀ i, st.acceptPointer i < m) :
    ∃ st' w, schedule iterations sw st = .ok st' ∧ w 0 = enterSlot sw st ∧ Slot w iterations ∧
      st'.inMatch = (w iterations).inMatch ∧ st'.outMatch = (w iterations).outMatch := by
  have hstart := sound_enterSlot sw hgrant haccept
  obtain ⟨last, hrun, -⟩ := iterations_eq_ok (List.range iterations) hstart
  obtain ⟨w, h0, hlast, hstep⟩ := exists_of_foldlM_range hrun
  refine ⟨_, w, by rw [schedule, hrun, ok_bind], h0, ⟨h0 ▸ hstart, hstep⟩, ?_, ?_⟩
  · rw [hlast]
  · rw [hlast]

/-- The matching that the slot ends with, in terms of the request bits that it starts with. -/
theorem Slot.maximalMatching {sw : IQSwitch n m} {st : State n m} {w : ℕ → State n m}
    (h : Slot w iterations) (h0 : w 0 = enterSlot sw st) (hit : min n m ≤ iterations) :
    MaximalMatching (fun s d => (enterSlot sw st).queueStatus s d = true) (w iterations).inMatch
      (w iterations).outMatch := by
  have hmaximal := h.maximal hit
  rwa [Maximal, (h.sound (le_refl iterations)).2, h0] at hmaximal

/-- From any pointers in range and any request bits, every iteration of a slot adds a pair unless
    the matching is maximal already, and removes none; after as many iterations as the smaller side
    has ports it is maximal.  In every slot of every run of a switch, from empty or after `init`, it
    is then a maximal matching of the non-empty VOQs. -/
theorem schedule_converges :
    (∀ (sw : IQSwitch n m) (st : State n m), (∀ o, st.grantPointers o < n) →
      (∀ i, st.acceptPointer i < m) →
      ∃ (st' : State n m) (w : ℕ → State n m), schedule iterations sw st = .ok st' ∧
        w 0 = enterSlot sw st ∧
        (∀ it < iterations, iterate (w it) it = .ok (w (it + 1)) ∧
          Converging (w it) (w (it + 1))) ∧
        st'.inMatch = (w iterations).inMatch ∧ st'.outMatch = (w iterations).outMatch ∧
        (min n m ≤ iterations → MaximalMatching
          (fun s d => (enterSlot sw st).queueStatus s d = true) st'.inMatch st'.outMatch)) ∧
    ∀ (gp : Fin m → ℕ) (ap : Fin n → ℕ), (∀ o, gp o < n) → (∀ i, ap i < m) →
      min n m ≤ iterations → ∀ sys sys' : System (model n m iterations), Start gp ap sys →
        Run (model n m iterations) sys sys' → ∀ channels,
          ∃ next, switching (model n m iterations) () channels sys' = .ok next ∧
            MaximalMatching
              (fun s d => 0 < (sys'.switch.readInputs channels).getQueueLength s d)
              next.scheduler.inMatch next.scheduler.outMatch := by
  refine ⟨fun sw st hgrant haccept => ?_,
    fun gp ap hgp hap hit sys sys' hstart hrun channels => ?_⟩
  · obtain ⟨st', w, hok, h0, hslot, hin, hout⟩ := schedule_eq_slot iterations sw hgrant haccept
    refine ⟨st', w, hok, h0, fun it hlt => ⟨hslot.step it hlt, hslot.converging hlt⟩, hin, hout,
      fun hit => ?_⟩
    rw [hin, hout]
    exact hslot.maximalMatching h0 hit
  · have hsync := (hstart.synchronised hgp hap).run hrun
    obtain ⟨st', w, hok, h0, hslot, hin, hout⟩ := schedule_eq_slot iterations
      (sys'.switch.readInputs channels) hsync.grantRange hsync.acceptRange
    have hmaximal := hslot.maximalMatching h0 hit
    rw [← hin, ← hout] at hmaximal
    obtain ⟨next, hnext, hsched, -⟩ := SschedSimulator.switching_eq_ok
      (S := model n m iterations) () hok hmaximal.inverse.isMatching
    -- the request bits say which queues have a packet
    have hbits : (fun s d => (enterSlot (sys'.switch.readInputs channels)
        sys'.scheduler).queueStatus s d = true)
        = fun s d => 0 < (sys'.switch.readInputs channels).getQueueLength s d :=
      funext₂ (fun s d => propext (hsync.enterSlot_status channels s d))
    refine ⟨next, hnext, ?_⟩
    rw [hsched, ← hbits]
    exact hmaximal

/-- Both outputs grant input `0` in the first iteration, and the second one adds the other pair. -/
theorem schedule_converges_two :
    ∃ next : System (model 2 2 2),
      (next.scheduler.inMatch 0 = some 0 ∧ next.scheduler.inMatch 1 = some 1) ∧
      MaximalMatching (fun _ _ => True) next.scheduler.inMatch next.scheduler.outMatch := by
  let channels : Fin 2 → List (Packet 2 2) := fun i => [⟨i, 0, 0, 0⟩, ⟨i, 1, 0, 0⟩]
  obtain ⟨next, hok, hmaximal⟩ := (@schedule_converges 2 2 2).2 (fun _ => 0) (fun _ => 0)
    (by decide) (by decide) (by decide) _ _ (.empty (IQSwitch.empty_empty 2 2)) .refl channels
  obtain ⟨next', hok', hmatched⟩ := exists_of_returns
    (x := switching (model 2 2 2) () channels
      ⟨IQSwitch.empty 2 2, initial (fun _ => 0) (fun _ => 0)⟩)
    (p := fun next => decide
      (next.scheduler.inMatch 0 = some 0 ∧ next.scheduler.inMatch 1 = some 1)) (by decide)
  obtain rfl : next' = next := Except.ok.inj (hok'.symm.trans hok)
  refine ⟨next', of_decide_eq_true hmatched, ?_⟩
  have hlen : (fun s d => 0 < ((IQSwitch.empty 2 2).readInputs channels).getQueueLength s d)
      = fun _ _ => True := by
    ext s d
    revert s d
    decide
  rwa [← hlen]

end Islip

end SschedSimulator
