import SschedSimulator.Scheduler.Throughput

namespace SschedSimulator

open Foundation

/-!
# `max_weight_scheduler.cc` — a VOQ that is never served

A maximum weight matching keeps the switch stable, but it does not care how long a packet waits.  A
packet that is alone in its VOQ stays there for ever if another VOQ of its input is longer and gets
a packet in every slot.

* `Starving` — the queues in such a situation;
* `Starving.slot` — a slot serves the longer VOQ and keeps the situation;
* `starved_of_run` — so the packet is still there after any number of slots.
-/

variable {n m : ℕ}

/-- The VOQ from `i` to `o` has a packet or more, that to `o'` has one, and there are no others. -/
structure Starving (i : Fin n) (o o' : Fin m) (len : Fin n × Fin m → ℕ) : Prop where
  busy : 1 ≤ len (i, o)
  waiting : len (i, o') = 1
  others : ∀ p, p ≠ (i, o) → p ≠ (i, o') → len p = 0

/-- One packet or more, all from `i` to `o`. -/
structure Feeds (i : Fin n) (o : Fin m) (channels : Fin n → List (Packet n m)) : Prop where
  feeds : 1 ≤ offered channels (i, o)
  only : ∀ p, p ≠ (i, o) → offered channels p = 0

namespace MaxWeight

/-- A heaviest matching of such queues has the longer one, since all weight is at its input. -/
theorem matched_of_heaviest {i : Fin n} {o o' : Fin m} {x : Fin n × Fin m → ℕ}
    (hbusy : 2 ≤ x (i, o)) (hwaiting : x (i, o') = 1)
    (hothers : ∀ p, p ≠ (i, o) → p ≠ (i, o') → x p = 0) {row : Fin n → Option (Fin m)}
    (hheaviest : ∀ row', IsMatching row' → pairWeight x row' ≤ pairWeight x row) :
    row i = some o := by
  have hinput : ∀ row : Fin n → Option (Fin m),
      pairWeight x row = (row i).elim 0 (fun d => x (i, d)) := by
    intro row
    refine Finset.sum_eq_single i (fun s _ hs => ?_) (fun hi => absurd (Finset.mem_univ i) hi)
    cases row s with
    | none => rfl
    | some d =>
      exact hothers (s, d) (fun he => hs (Prod.ext_iff.mp he).1)
        (fun he => hs (Prod.ext_iff.mp he).1)
  have hone : IsMatching (Function.update (fun _ : Fin n => none) i (some o)) :=
    isMatching_none.update (fun _ => nofun)
  have hle := hheaviest _ hone
  rw [hinput, hinput, Function.update_self, Option.elim_some] at hle
  cases hrow : row i with
  | none =>
    rw [hrow, Option.elim_none] at hle
    omega
  | some d =>
    rw [hrow, Option.elim_some] at hle
    by_cases hd : d = o
    · rw [hd]
    · -- No other VOQ of the input has two packets.
      have hlight : x (i, d) ≤ 1 := by
        by_cases hd' : d = o'
        · rw [hd', hwaiting]
        · rw [hothers (i, d) (fun he => hd (Prod.ext_iff.mp he).2)
            (fun he => hd' (Prod.ext_iff.mp he).2)]
          exact Nat.zero_le 1
      omega

variable {mwm : Solver} {outMatchEnabled : Bool} {sys : System (model n m mwm outMatchEnabled)}

theorem Starving.slot (hmwm : Solves n m mwm) (hsync : Synchronised sys) {i : Fin n} {o o' : Fin m}
    (hne : o ≠ o') (h : Starving i o o' sys.lengths) {channels : Fin n → List (Packet n m)}
    (hfeeds : Feeds i o channels) :
    ∃ next, switching (model n m mwm outMatchEnabled) () channels sys = .ok next ∧
      Synchronised next ∧ Starving i o o' next.lengths ∧ next.scheduler.inMatch i = some o := by
  obtain ⟨next, hok, hnext, -, hheaviest⟩ := hsync.heaviest_slot hmwm channels
  have hpair : (i, o') ≠ (i, o) := fun he => hne (Prod.ext_iff.mp he).2.symm
  have hbusy : 2 ≤ (sys.lengths + offered channels) (i, o) :=
    Nat.add_le_add h.busy hfeeds.feeds
  have hwaiting : (sys.lengths + offered channels) (i, o') = 1 := by
    rw [Pi.add_apply, h.waiting, hfeeds.only _ hpair]
  have hothers : ∀ p, p ≠ (i, o) → p ≠ (i, o') → (sys.lengths + offered channels) p = 0 := by
    intro p hp hp'
    rw [Pi.add_apply, h.others p hp hp', hfeeds.only p hp]
  -- The two queues share input `i`, and the longer one weighs more.
  have hmatched := matched_of_heaviest hbusy hwaiting hothers hheaviest
  refine ⟨next, hok, hnext, ⟨?_, ?_, fun p hp hp' => ?_⟩, hmatched⟩
  · have hstep := congrFun (lengths_switching hok) (i, o)
    have hone := servedOf_le_one (sys.lengths + offered channels) next.scheduler.inMatch (i, o)
    change next.lengths (i, o) + servedOf _ next.scheduler.inMatch (i, o) = _ at hstep
    omega
  · have hstep := congrFun (lengths_switching hok) (i, o')
    have hzero : servedOf (sys.lengths + offered channels) next.scheduler.inMatch (i, o') = 0 := by
      rw [servedOf, if_neg]
      rintro ⟨hserved, -⟩
      exact hne (Option.some.inj (hmatched.symm.trans hserved))
    change next.lengths (i, o') + servedOf _ next.scheduler.inMatch (i, o') = _ at hstep
    omega
  · have hstep := congrFun (lengths_switching hok) p
    have hzero := hothers p hp hp'
    change next.lengths p + _ = _ at hstep
    omega

/-- After any run from an empty switch or from `init` that has led to such queues: as long as every
    slot brings a packet for the longer VOQ and nothing else, every slot serves it, and the packet
    of the other one is never sent. -/
theorem starved_of_run (hmwm : Solves n m mwm) {sys' : System (model n m mwm outMatchEnabled)}
    (hstart : Start mwm outMatchEnabled sys)
    (hrun : Run (model n m mwm outMatchEnabled) sys sys') {i : Fin n} {o o' : Fin m} (hne : o ≠ o')
    (h : Starving i o o' sys'.lengths) {channels : ℕ → Fin n → List (Packet n m)}
    (hfeeds : ∀ t, Feeds i o (channels t)) (T : ℕ) :
    ∃ last, runSlots (model n m mwm outMatchEnabled) (fun _ => ()) channels sys' T = .ok last ∧
      last.switch.getQueueLength i o' = 1 ∧
      ∀ next, switching (model n m mwm outMatchEnabled) () (channels T) last = .ok next →
        next.scheduler.inMatch i = some o := by
  have hall : ∃ last, runSlots (model n m mwm outMatchEnabled) (fun _ => ()) channels sys' T
      = .ok last ∧ Synchronised last ∧ Starving i o o' last.lengths := by
    induction T with
    | zero => exact ⟨sys', rfl, hstart.synchronised.run hmwm hrun, h⟩
    | succ T ih =>
      obtain ⟨last, hlast, hsync, hstarving⟩ := ih
      obtain ⟨next, hok, hnext, hstarving', -⟩ := Starving.slot hmwm hsync hne hstarving (hfeeds T)
      exact ⟨next, by rw [runSlots, hlast, ok_bind, hok], hnext, hstarving'⟩
  obtain ⟨last, hlast, hsync, hstarving⟩ := hall
  refine ⟨last, hlast, hstarving.waiting, fun next hnext => ?_⟩
  obtain ⟨next', hok, -, -, hmatched⟩ := Starving.slot hmwm hsync hne hstarving (hfeeds T)
  rwa [Except.ok.inj (hnext.symm.trans hok)]

/-- Three packets at one input, then one for the first output in every slot. -/
theorem starved_thousand_slots :
    ∃ next last, switching (model 2 2 betterPair true) () (fun s => if s = 0 then
          [⟨0, 0, 0, 0⟩, ⟨0, 0, 0, 0⟩, ⟨0, 1, 0, 0⟩] else [])
        ⟨IQSwitch.empty 2 2, construct 2 2⟩ = .ok next ∧
      runSlots (model 2 2 betterPair true) (fun _ => ())
        (fun _ => packetsFor 0 (fun s => if s = 0 then 1 else 0)) next 1000 = .ok last ∧
      last.switch.getQueueLength 0 1 = 1 := by
  obtain ⟨next, hok, hnext⟩ := exists_of_returns
    (x := switching (model 2 2 betterPair true) () (fun s => if s = 0 then
        [⟨0, 0, 0, 0⟩, ⟨0, 0, 0, 0⟩, ⟨0, 1, 0, 0⟩] else [])
      ⟨IQSwitch.empty 2 2, construct 2 2⟩)
    (p := fun next => decide (1 ≤ next.lengths (0, 0) ∧ next.lengths (0, 1) = 1 ∧
      ∀ p, p ≠ (0, 0) → p ≠ (0, 1) → next.lengths p = 0)) (by decide +kernel)
  obtain ⟨hbusy, hwaiting, hothers⟩ := of_decide_eq_true hnext
  obtain ⟨last, hlast, hone, -⟩ := starved_of_run betterPair_solves
    (.empty (IQSwitch.empty_empty 2 2)) (.step _ _ .refl hok) (by decide : (0 : Fin 2) ≠ 1)
    ⟨hbusy, hwaiting, hothers⟩
    (fun _ => ⟨by decide, by decide⟩ :
      ∀ t : ℕ, Feeds 0 0 (packetsFor 0 (fun s => if s = 0 then 1 else 0))) 1000
  exact ⟨next, last, hok, hlast, hone⟩

end MaxWeight

end SschedSimulator
