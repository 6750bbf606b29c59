import SschedSimulator.Scheduler.Throughput

namespace SschedSimulator

open Foundation

/-!
# After the last arrival

A switch whose channels have fallen silent sends what it still holds.

* `MaxWeight.drained_of_heaviest` and `RandomizedMaximal.drained_of_maximal` — in every slot a
  packet leaves next to every queue that has one, so a queue is empty after as many slots as there
  are packets at its two ports;
* `Islip.emptied_of_run` — with one iteration a packet leaves somewhere, so all queues are empty
  after as many slots as there are packets.
-/

variable {n m : ℕ}

namespace MaxWeight

/-- After any run from an empty switch or from `init`: if nothing arrives any more, a queue is empty
    one slot before as many slots as there are packets at its input and for its output. -/
theorem drained_of_heaviest {mwm : Solver} {outMatchEnabled : Bool} (hmwm : Solves n m mwm)
    {sys sys' : System (model n m mwm outMatchEnabled)} (hstart : Start mwm outMatchEnabled sys)
    (hrun : Run (model n m mwm outMatchEnabled) sys sys') {T : ℕ} {s : Fin n} {d : Fin m}
    (hT : sys'.portLengths s d ≤ T + 1) :
    ∃ last, runSlots (model n m mwm outMatchEnabled) (fun _ => ()) (fun _ _ => []) sys' T
        = .ok last ∧ last.switch.getQueueLength s d = 0 := by
  obtain ⟨w, rfl, htrace, hsync⟩ := exists_trace (S := model n m mwm outMatchEnabled) (fun _ => ())
    (fun _ _ => []) (hstart.synchronised.run hmwm hrun) (fun t mid hmid => by
      obtain ⟨next, hok, hnext, -⟩ := hmid.heaviest_slot hmwm (fun _ => [])
      exact ⟨next, hok, hnext⟩)
  have hslot : ∀ t, IsMatching (w (t + 1)).scheduler.inMatch ∧ ∀ row, IsMatching row →
      pairWeight ((w t).lengths + offered (fun _ => [])) row
        ≤ pairWeight ((w t).lengths + offered (fun _ => [])) (w (t + 1)).scheduler.inMatch := by
    intro t
    obtain ⟨next, hok, -, hheaviest⟩ := (hsync t).heaviest_slot hmwm (fun _ => [])
    obtain rfl : next = w (t + 1) := Except.ok.inj (hok.symm.trans (htrace.step t))
    exact hheaviest
  exact ⟨w T, htrace.runSlots_eq T,
    htrace.empties_of_heaviest (fun t => (hslot t).1) (fun t => (hslot t).2) hT⟩

/-- Three packets at the first input, two of them for the first output. -/
theorem drained_two_slots :
    ∃ next last, switching (model 2 2 betterPair true) () (fun s => if s = 0 then
          [⟨0, 0, 0, 0⟩, ⟨0, 0, 0, 0⟩, ⟨0, 1, 0, 0⟩] else [])
        ⟨IQSwitch.empty 2 2, construct 2 2⟩ = .ok next ∧
      runSlots (model 2 2 betterPair true) (fun _ => ()) (fun _ _ => []) next 2 = .ok last ∧
      last.switch.getQueueLength 0 0 = 0 := by
  obtain ⟨next, hok, hnext⟩ := exists_of_returns
    (x := switching (model 2 2 betterPair true) () (fun s => if s = 0 then
        [⟨0, 0, 0, 0⟩, ⟨0, 0, 0, 0⟩, ⟨0, 1, 0, 0⟩] else [])
      ⟨IQSwitch.empty 2 2, construct 2 2⟩)
    (p := fun next => decide (next.portLengths 0 0 ≤ 3)) (by decide +kernel)
  obtain ⟨last, hlast, hempty⟩ := drained_of_heaviest betterPair_solves
    (.empty (IQSwitch.empty_empty 2 2)) (.step _ _ .refl hok) (T := 2) (s := 0) (d := 0)
    (of_decide_eq_true hnext)
  exact ⟨next, last, hok, hlast, hempty⟩

end MaxWeight

namespace RandomizedMaximal

/-- The same for maximal matchings, whatever the shuffles. -/
theorem drained_of_maximal {sys sys' : System (model n m)} (hstart : Start sys)
    (hrun : Run (model n m) sys sys') (shuffles : ℕ → Reorder (Fin n × Fin m)) {T : ℕ} {s : Fin n}
    {d : Fin m} (hT : sys'.portLengths s d ≤ T + 1) :
    ∃ last, runSlots (model n m) shuffles (fun _ _ => []) sys' T = .ok last ∧
      last.switch.getQueueLength s d = 0 := by
  obtain ⟨w, rfl, htrace, hsync⟩ := exists_trace (S := model n m) shuffles (fun _ _ => [])
    (hstart.synchronised.run hrun) (fun t mid hmid => by
      obtain ⟨next, hok, hnext, -⟩ := hmid.maximal_slot (shuffles t) (fun _ => [])
      exact ⟨next, hok, hnext⟩)
  refine ⟨w T, htrace.runSlots_eq T, htrace.empties_of_maximal (fun t => ?_) hT⟩
  obtain ⟨next, hok, -, hmax⟩ := (hsync t).maximal_slot (shuffles t) (fun _ => [])
  obtain rfl : next = w (t + 1) := Except.ok.inj (hok.symm.trans (htrace.step t))
  exact ⟨_, hmax⟩

/-- Three packets at the first input, two of them for the first output. -/
theorem drained_two_shuffles :
    ∃ next last, switching (model 2 2) (Reorder.inOrder _) (fun s => if s = 0 then
          [⟨0, 0, 0, 0⟩, ⟨0, 0, 0, 0⟩, ⟨0, 1, 0, 0⟩] else [])
        ⟨IQSwitch.empty 2 2, initial⟩ = .ok next ∧
      runSlots (model 2 2) (fun _ => Reorder.inOrder _) (fun _ _ => []) next 2 = .ok last ∧
      last.switch.getQueueLength 0 0 = 0 := by
  obtain ⟨next, hok, hnext⟩ := exists_of_returns
    (x := switching (model 2 2) (Reorder.inOrder _) (fun s => if s = 0 then
        [⟨0, 0, 0, 0⟩, ⟨0, 0, 0, 0⟩, ⟨0, 1, 0, 0⟩] else [])
      ⟨IQSwitch.empty 2 2, initial⟩)
    (p := fun next => decide (next.portLengths 0 0 ≤ 3)) (by decide +kernel)
  obtain ⟨last, hlast, hempty⟩ := drained_of_maximal (.empty (IQSwitch.empty_empty 2 2))
    (.step _ _ .refl hok) (fun _ => Reorder.inOrder _) (T := 2) (s := 0) (d := 0)
    (of_decide_eq_true hnext)
  exact ⟨next, last, hok, hlast, hempty⟩

end RandomizedMaximal

namespace Islip

variable {iterations : ℕ}

/-- After any run from an empty switch or from `init`, with pointers in range: if nothing arrives
    any more, all queues are empty after as many slots as there are packets. -/
theorem emptied_of_run (hit : 1 ≤ iterations) {gp : Fin m → ℕ} {ap : Fin n → ℕ}
    (hgp : ∀ o, gp o < n) (hap : ∀ i, ap i < m) {sys sys' : System (model n m iterations)}
    (hstart : Start gp ap sys) (hrun : Run (model n m iterations) sys sys') {T : ℕ}
    (hT : sys'.totalLength ≤ T) :
    ∃ last, runSlots (model n m iterations) (fun _ => ()) (fun _ _ => []) sys' T = .ok last ∧
      ∀ s d, last.switch.getQueueLength s d = 0 := by
  obtain ⟨w, rfl, htrace, hsync⟩ := exists_trace (S := model n m iterations) (fun _ => ())
    (fun _ _ => []) ((hstart.synchronised hgp hap).run hrun) (fun t mid hmid => by
      obtain ⟨next, hok, hnext, -⟩ := hmid.switching_eq_ok (fun _ => [])
      exact ⟨next, hok, hnext⟩)
  refine ⟨w T, htrace.runSlots_eq T, htrace.empties_of_some (fun t p hp => ?_) hT⟩
  obtain ⟨next, hok, -, hsafe, hmax⟩ := (hsync t).maximal_or_le_matchSize_slot (fun _ => [])
  obtain rfl : next = w (t + 1) := Except.ok.inj (hok.symm.trans (htrace.step t))
  have hlen : ∀ s d, ((w t).switch.readInputs (fun _ => [])).getQueueLength s d
      = (w t).lengths (s, d) := by
    intro s d
    rw [lengths_readInputs (w t) (fun _ => []) (s, d), offered_silent, add_zero]
  -- Some pair is matched, and it has a packet.
  have hpair : ∃ s d, (w (t + 1)).scheduler.inMatch s = some d := by
    rcases hmax with hmax | hmany
    · rcases hmax.blocked p.1 p.2 (by rw [hlen]; exact hp) with hi | ho
      · obtain ⟨d, hd⟩ := Option.ne_none_iff_exists'.mp hi
        exact ⟨p.1, d, hd⟩
      · obtain ⟨s, hs⟩ := Option.ne_none_iff_exists'.mp ho
        exact ⟨s, p.2, (hmax.inverse s p.2).mpr hs⟩
    · by_contra hnone
      have hfree : (w (t + 1)).scheduler.inMatch = fun _ => none := by
        funext s
        rw [Option.eq_none_iff_forall_ne_some]
        exact fun d hd => hnone ⟨s, d, hd⟩
      rw [hfree, matchSize_none] at hmany
      omega
  obtain ⟨s, d, hsd⟩ := hpair
  refine ⟨s, d, hsd, ?_⟩
  rw [← hlen]
  exact hsafe.backlogged s d hsd

/-- Two packets for one output. -/
theorem emptied_one_slot :
    ∃ next last, switching (model 2 2 1) () (packetsFor 0 (fun _ => 1))
        ⟨IQSwitch.empty 2 2, initial (fun _ => 0) (fun _ => 0)⟩ = .ok next ∧
      runSlots (model 2 2 1) (fun _ => ()) (fun _ _ => []) next 1 = .ok last ∧
      ∀ s d, last.switch.getQueueLength s d = 0 := by
  obtain ⟨next, hok, hnext⟩ := exists_of_returns
    (x := switching (model 2 2 1) () (packetsFor 0 (fun _ => 1))
      ⟨IQSwitch.empty 2 2, initial (fun _ => 0) (fun _ => 0)⟩)
    (p := fun next => decide (next.totalLength ≤ 1)) (by decide)
  obtain ⟨last, hlast, hempty⟩ := @emptied_of_run 2 2 1 (by decide) (fun _ => 0) (fun _ => 0)
    (by decide) (by decide) _ _ (.empty (IQSwitch.empty_empty 2 2)) (.step _ _ .refl hok) 1
    (of_decide_eq_true hnext)
  exact ⟨next, last, hok, hlast, hempty⟩

end Islip

end SschedSimulator
