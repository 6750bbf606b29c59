import SschedSimulator.Scheduler.IslipConvergence
import SschedSimulator.Scheduler.MaxWeight
import SschedSimulator.Scheduler.QpsConvergence
import SschedSimulator.Scheduler.RandomizedMaximal
import SschedSimulator.Switch.Stability

namespace SschedSimulator

open Foundation

/-!
# The loads that the schedulers sustain

How much traffic a switch can carry before its queues grow without bound depends on the matchings
that its scheduler returns.

* `MaxWeight.bounded_of_admissible` — maximum weight matchings sustain every admissible load;
* `RandomizedMaximal.bounded_of_halfLoad`, `Islip.bounded_of_halfAdmissible` and
  `Qps.bounded_of_halfSampled` — maximal matchings sustain half of that, iSLIP and QPS if they have
  as many iterations as the smaller side has ports.

Each bound holds from any state that a switch starts in, for any order of the arrivals, and does not
depend on the number of slots.
-/

variable {n m : ℕ}

/-- One packet from the first input to the first output in every third slot. -/
def everyThirdSlot (t : ℕ) : Fin 2 → List (Packet 2 2) :=
  if t % 3 = 0 then packetsFor 0 (fun s => if s = 0 then 1 else 0) else fun _ => []

theorem sum_everyThirdSlot (k : ℕ) (p : Fin 2 × Fin 2 → Bool) :
    ∑ t ∈ Finset.range 3, (arrivalsOf (everyThirdSlot (k * 3 + t))).countP p
      = if p (0, 0) then 1 else 0 := by
  have hpackets : arrivalsOf (n := 2) (m := 2) (packetsFor 0 (fun s => if s = 0 then 1 else 0))
      = [(0, 0)] := by decide
  have hnone : arrivalsOf (n := 2) (m := 2) (fun _ => []) = [] := by decide
  have hslot : ∀ t < 3, (arrivalsOf (everyThirdSlot (k * 3 + t))).countP p
      = if t = 0 ∧ p (0, 0) then 1 else 0 := by
    intro t ht
    unfold everyThirdSlot
    by_cases hzero : t = 0
    · rw [if_pos (by omega), hpackets]
      simp [hzero, List.countP_cons]
    · rw [if_neg (by omega), hnone]
      simp [hzero]
  rw [Finset.sum_congr rfl (fun t ht => hslot t (Finset.mem_range.mp ht))]
  simp only [Finset.sum_range_succ, Finset.sum_range_zero]
  simp

theorem admissible_everyThirdSlot : Admissible everyThirdSlot 3 1 where
  input := fun k s => by
    rw [sum_everyThirdSlot]
    split <;> decide
  output := fun k d => by
    rw [sum_everyThirdSlot]
    split <;> decide

theorem halfAdmissible_everyThirdSlot : HalfAdmissible everyThirdSlot 3 2 := by
  intro k s d
  have hload := admissible_everyThirdSlot
  exact Nat.add_le_add (hload.input k s) (hload.output k d)

namespace MaxWeight

/-- One slot. -/
theorem Synchronised.heaviest_slot {mwm : Solver} {outMatchEnabled : Bool}
    {sys : System (model n m mwm outMatchEnabled)} (h : Synchronised sys) (hmwm : Solves n m mwm)
    (channels : Fin n → List (Packet n m)) :
    ∃ next, switching (model n m mwm outMatchEnabled) () channels sys = .ok next ∧
      Synchronised next ∧ IsMatching next.scheduler.inMatch ∧
      ∀ row, IsMatching row → pairWeight (sys.lengths + offered channels) row
        ≤ pairWeight (sys.lengths + offered channels) next.scheduler.inMatch := by
  obtain ⟨next, hok, hnext, hoptimal, -⟩ := h.switching_eq_ok hmwm channels
  refine ⟨next, hok, hnext, hoptimal.matching, fun row hrow => ?_⟩
  have hweight : ∀ row, pairWeight (sys.lengths + offered channels) row
      = rowWeight (sys.switch.readInputs channels).getQueueLength row := by
    intro row
    refine Finset.sum_congr rfl (fun i _ => ?_)
    cases row i with
    | none => rfl
    | some o => exact (lengths_readInputs sys channels (i, o)).symm
  rw [hweight, hweight]
  exact hoptimal.maximal row hrow

/-- Under maximum weight matchings no queue exceeds a constant, if in every window of `W` slots less
    than `W` packets arrive for each port. -/
theorem bounded_of_admissible {mwm : Solver} {outMatchEnabled : Bool} (hmwm : Solves n m mwm)
    {sys : System (model n m mwm outMatchEnabled)} (hstart : Start mwm outMatchEnabled sys)
    {channels : ℕ → Fin n → List (Packet n m)} {W r : ℕ} (hr : r < W)
    (hload : Admissible channels W r) (T : ℕ) :
    ∃ sys', runSlots (model n m mwm outMatchEnabled) (fun _ => ()) channels sys T = .ok sys' ∧
      ∀ s d, sys'.switch.getQueueLength s d ≤ heaviestCeiling W r sys := by
  obtain ⟨w, rfl, htrace, hsync⟩ := exists_trace (S := model n m mwm outMatchEnabled) (fun _ => ())
    channels hstart.synchronised (fun t mid hmid => by
      obtain ⟨next, hok, hnext, -⟩ := hmid.heaviest_slot hmwm (channels t)
      exact ⟨next, hok, hnext⟩)
  refine ⟨w T, htrace.runSlots_eq T, htrace.bounded_of_heaviest (fun t => ?_) hr hload T⟩
  obtain ⟨next, hok, -, -, hheaviest⟩ := (hsync t).heaviest_slot hmwm (channels t)
  obtain rfl : next = w (t + 1) := Except.ok.inj (hok.symm.trans (htrace.step t))
  exact hheaviest

/-- One packet in every third slot. -/
theorem bounded_everyThirdSlot :
    ∃ sys, runSlots (model 2 2 betterPair true) (fun _ => ()) everyThirdSlot
        ⟨IQSwitch.empty 2 2, construct 2 2⟩ 1000 = .ok sys ∧
      ∀ s d, sys.switch.getQueueLength s d
        ≤ heaviestCeiling 3 1 (⟨IQSwitch.empty 2 2, construct 2 2⟩ :
          System (model 2 2 betterPair true)) :=
  bounded_of_admissible betterPair_solves (.empty (IQSwitch.empty_empty 2 2)) (by decide)
    admissible_everyThirdSlot 1000

end MaxWeight

namespace RandomizedMaximal

/-- One slot. -/
theorem Synchronised.maximal_slot {sys : System (model n m)} (h : Synchronised sys)
    (shuffle : Reorder (Fin n × Fin m)) (channels : Fin n → List (Packet n m)) :
    ∃ next, switching (model n m) shuffle channels sys = .ok next ∧ Synchronised next ∧
      MaximalMatching (fun s d => 0 < (sys.switch.readInputs channels).getQueueLength s d)
        next.scheduler.inMatch next.scheduler.outMatch := by
  obtain ⟨next, hok, hnext⟩ := h.switching_eq_ok shuffle channels
  exact ⟨next, hok, hnext, schedule_maximal_of_edges shuffle _ h.exact (h.has_or_arrived channels)
    (schedule_of_switching hok)⟩

/-- Under randomized maximal matchings, whatever the shuffles, no queue exceeds a constant, if in
    every window of `W` slots less than `W` packets arrive for an input and an output together. -/
theorem bounded_of_halfLoad {sys : System (model n m)} (hstart : Start sys)
    (shuffles : ℕ → Reorder (Fin n × Fin m)) {channels : ℕ → Fin n → List (Packet n m)} {W r : ℕ}
    (hr : r < W) (hload : HalfAdmissible channels W r) (T : ℕ) :
    ∃ sys', runSlots (model n m) shuffles channels sys T = .ok sys' ∧
      ∀ s d, sys'.switch.getQueueLength s d ≤ maximalCeiling W r sys := by
  obtain ⟨w, rfl, htrace, hsync⟩ := exists_trace (S := model n m) shuffles channels
    hstart.synchronised (fun t mid hmid => by
      obtain ⟨next, hok, hnext, -⟩ := hmid.maximal_slot (shuffles t) (channels t)
      exact ⟨next, hok, hnext⟩)
  refine ⟨w T, htrace.runSlots_eq T, htrace.bounded_of_maximal (fun t => ?_) hr hload T⟩
  obtain ⟨next, hok, -, hmax⟩ := (hsync t).maximal_slot (shuffles t) (channels t)
  obtain rfl : next = w (t + 1) := Except.ok.inj (hok.symm.trans (htrace.step t))
  exact ⟨_, hmax⟩

/-- One packet in every third slot. -/
theorem bounded_halfEveryThirdSlot :
    ∃ sys, runSlots (model 2 2) (fun _ => Reorder.inOrder _) everyThirdSlot
        ⟨IQSwitch.empty 2 2, initial⟩ 1000 = .ok sys ∧
      ∀ s d, sys.switch.getQueueLength s d
        ≤ maximalCeiling 3 2 (⟨IQSwitch.empty 2 2, initial⟩ : System (model 2 2)) :=
  bounded_of_halfLoad (.empty (IQSwitch.empty_empty 2 2)) (fun _ => Reorder.inOrder _)
    (by decide) halfAdmissible_everyThirdSlot 1000

end RandomizedMaximal

namespace Islip

/-- One slot. -/
theorem Synchronised.maximal_or_le_matchSize_slot {iterations : ℕ}
    {sys : System (model n m iterations)} (h : Synchronised sys)
    (channels : Fin n → List (Packet n m)) :
    ∃ next, switching (model n m iterations) () channels sys = .ok next ∧ Synchronised next ∧
      SlotSafe (sys.switch.readInputs channels) next.scheduler ∧
      (MaximalMatching (fun s d => 0 < (sys.switch.readInputs channels).getQueueLength s d)
          next.scheduler.inMatch next.scheduler.outMatch ∨
        iterations ≤ matchSize next.scheduler.inMatch) := by
  obtain ⟨next, hok, hnext, hsafe, -⟩ := h.switching_eq_ok channels
  obtain ⟨st, w, hrun, h0, hslot, hin, hout⟩ := schedule_eq_slot iterations
    (sys.switch.readInputs channels) h.grantRange h.acceptRange
  obtain rfl : st = next.scheduler :=
    Except.ok.inj (hrun.symm.trans (schedule_of_switching hok))
  have hbits : (fun s d => (enterSlot (sys.switch.readInputs channels)
      sys.scheduler).queueStatus s d = true)
      = fun s d => 0 < (sys.switch.readInputs channels).getQueueLength s d :=
    funext₂ (fun s d => propext (h.enterSlot_status channels s d))
  refine ⟨next, hok, hnext, hsafe, ?_⟩
  rw [hin, hout, ← hbits, ← h0, ← (hslot.sound (le_refl iterations)).2]
  exact hslot.maximal_or_le_matchSize (le_refl iterations)

/-- One slot with enough iterations. -/
theorem Synchronised.maximal_slot {iterations : ℕ} {sys : System (model n m iterations)}
    (h : Synchronised sys) (hit : min n m ≤ iterations) (channels : Fin n → List (Packet n m)) :
    ∃ next, switching (model n m iterations) () channels sys = .ok next ∧ Synchronised next ∧
      MaximalMatching (fun s d => 0 < (sys.switch.readInputs channels).getQueueLength s d)
        next.scheduler.inMatch next.scheduler.outMatch := by
  obtain ⟨next, hok, hnext, hsafe, hmax⟩ := h.maximal_or_le_matchSize_slot channels
  refine ⟨next, hok, hnext, hmax.elim id (fun hmany => ?_)⟩
  apply MutuallyInverse.maximalMatching_of_full hsafe.mutual_iff hsafe.backlogged
  rw [Fintype.card_fin, Fintype.card_fin]
  exact hit.trans hmany

/-- Under iSLIP with as many iterations as the smaller side has ports no queue exceeds a constant,
    if in every window of `W` slots less than `W` packets arrive for an input and an output
    together. -/
theorem bounded_of_halfAdmissible {iterations : ℕ} (hit : min n m ≤ iterations) {gp : Fin m → ℕ}
    {ap : Fin n → ℕ} (hgp : ∀ o, gp o < n) (hap : ∀ i, ap i < m)
    {sys : System (model n m iterations)} (hstart : Start gp ap sys)
    {channels : ℕ → Fin n → List (Packet n m)} {W r : ℕ} (hr : r < W)
    (hload : HalfAdmissible channels W r) (T : ℕ) :
    ∃ sys', runSlots (model n m iterations) (fun _ => ()) channels sys T = .ok sys' ∧
      ∀ s d, sys'.switch.getQueueLength s d ≤ maximalCeiling W r sys := by
  obtain ⟨w, rfl, htrace, hsync⟩ := exists_trace (S := model n m iterations) (fun _ => ()) channels
    (hstart.synchronised hgp hap) (fun t mid hmid => by
      obtain ⟨next, hok, hnext, -⟩ := hmid.maximal_slot hit (channels t)
      exact ⟨next, hok, hnext⟩)
  refine ⟨w T, htrace.runSlots_eq T, htrace.bounded_of_maximal (fun t => ?_) hr hload T⟩
  obtain ⟨next, hok, -, hmax⟩ := (hsync t).maximal_slot hit (channels t)
  obtain rfl : next = w (t + 1) := Except.ok.inj (hok.symm.trans (htrace.step t))
  exact ⟨_, hmax⟩

/-- One packet in every third slot. -/
theorem bounded_islipEveryThirdSlot :
    ∃ sys, runSlots (model 2 2 2) (fun _ => ()) everyThirdSlot
        ⟨IQSwitch.empty 2 2, initial (fun _ => 0) (fun _ => 0)⟩ 1000 = .ok sys ∧
      ∀ s d, sys.switch.getQueueLength s d
        ≤ maximalCeiling 3 2 (⟨IQSwitch.empty 2 2, initial (fun _ => 0) (fun _ => 0)⟩ :
          System (model 2 2 2)) :=
  @bounded_of_halfAdmissible 2 2 2 (by decide) (fun _ => 0) (fun _ => 0) (by decide) (by decide) _
    (.empty (IQSwitch.empty_empty 2 2)) _ _ _ (by decide) halfAdmissible_everyThirdSlot 1000

end Islip

namespace Qps

/-- Under QPS without replacement, with as many iterations as the smaller side has ports, no queue
    exceeds a constant, whatever is drawn, if in every window of `W` slots less than `W` packets
    arrive for an input and an output together. -/
theorem bounded_of_halfSampled {cfg : Config} (hcfg : cfg.withoutReplacement = true)
    (hit : min n m ≤ cfg.iterations) {sys : System (model n m cfg)} (hstart : Start cfg sys)
    {draws : ℕ → ℕ → TreeDraws n m} (hdrawn : ∀ t, Drawn (draws t))
    {channels : ℕ → Fin n → List (Packet n m)} {W r : ℕ} (hr : r < W)
    (hload : HalfAdmissible channels W r) (T : ℕ) :
    ∃ sys', runSlots (model n m cfg) draws channels sys T = .ok sys' ∧
      ∀ s d, sys'.switch.getQueueLength s d ≤ maximalCeiling W r sys := by
  obtain ⟨w, rfl, htrace, hmir⟩ := exists_trace (S := model n m cfg) draws channels hstart.mirror
    (fun t mid hmid => by
      obtain ⟨next, hok, hnext, -⟩ := maximal_slot hcfg hit (hdrawn t).valid (channels t) hmid
      exact ⟨next, hok, hnext⟩)
  refine ⟨w T, htrace.runSlots_eq T, htrace.bounded_of_maximal (fun t => ?_) hr hload T⟩
  obtain ⟨next, hok, -, hmax⟩ := maximal_slot hcfg hit (hdrawn t).valid (channels t) (hmir t)
  obtain rfl : next = w (t + 1) := Except.ok.inj (hok.symm.trans (htrace.step t))
  exact ⟨_, hmax⟩

/-- One packet in every third slot. -/
theorem bounded_qpsEveryThirdSlot :
    ∃ sys, runSlots (model 2 2 ⟨2, .longestFirst, true⟩)
        (fun _ _ => inOrderDraws 2 2 (1 / 4)) everyThirdSlot
        ⟨IQSwitch.empty 2 2, initial⟩ 1000 = .ok sys ∧
      ∀ s d, sys.switch.getQueueLength s d
        ≤ maximalCeiling 3 2 (⟨IQSwitch.empty 2 2, initial⟩ :
          System (model 2 2 ⟨2, .longestFirst, true⟩)) :=
  @bounded_of_halfSampled 2 2 ⟨2, .longestFirst, true⟩ rfl (by decide) _
    (.empty (IQSwitch.empty_empty 2 2)) _ (fun _ _ _ => ⟨1 / 4, by norm_num, by norm_num, rfl⟩)
    everyThirdSlot 3 2 (by decide) halfAdmissible_everyThirdSlot 1000

end Qps

end SschedSimulator
