import Mathlib.Data.Fin.VecNotation
import SschedSimulator.Scheduler.SbQps.AvailabilityAware

namespace SschedSimulator

open Foundation

/-!
# `sb_qps.cc` — when a round with availability counters grants one frame to each input

The input to which an output gives the current slot is the first of its proposals as they came; the
walk that follows skips the first of the sorted list.  Where these are two different inputs, the
input served now may be met again by the walk and get a second frame.

* `OneFrameEach` — no input is granted more than one frame, and no assertion fails;
* `NotServedAgain` — the walk of each output does not meet the input served now, or finds no frame
  for it.  `oneFrameEach_iff`: in every reachable state this is when `OneFrameEach` holds.  It does
  not hold in general: `not_oneFrameEach_of_run`.
-/

namespace SbQps

variable {n m : ℕ}

namespace AvailabilityAware

open Availability

variable {B t : ℕ} {sort : DescSort (Fin n)} {maxAccepts : Fin m → ℤ} {draws : TreeDraws n m}
  {core : Core (Booking n m) n m}

/-! ### One frame for each input -/

/-- One call of `qps` returns, grants no input more than one frame and no VOQ more frames than it
    has packets. -/
def OneFrameEach (sort : DescSort (Fin n)) (maxAccepts : Fin m → ℤ) (draws : TreeDraws n m)
    (t : ℕ) (core : Core (Booking n m) n m) : Prop :=
  ∃ gs core', grants sort maxAccepts draws t core = .ok gs ∧
    Availability.round sort maxAccepts draws t core = .ok core' ∧ (gs.map Prod.fst).Nodup ∧
    ∀ i o, (gs.count (i, o) : ℤ) ≤ core.voq.voqLength i o

/-- Where the walk of an output meets the first of its proposals, the proposals before it in the
    sorted list have left no earlier frame that is free for both. -/
def NotServedAgain (sort : DescSort (Fin n)) (maxAccepts : Fin m → ℤ) (draws : TreeDraws n m)
    (t : ℕ) (core : Core (Booking n m) n m) : Prop :=
  ∀ out, ∀ i ∈ (proposersOf draws core.voq out).head?, maxAccepts out > 1 →
    i ∈ remaining sort core.voq.voqLength (maxAccepts out) out (proposersOf draws core.voq out) →
    ∀ f ∈ FirstFit.leftAfter (fun i f => !core.tables.inFlag i f)
        ((remaining sort core.voq.voqLength (maxAccepts out) out
          (proposersOf draws core.voq out)).takeWhile (· ≠ i))
        (freeEarlier core.tables t out),
      core.tables.inFlag i f = true

instance : Decidable (NotServedAgain sort maxAccepts draws t core) :=
  inferInstanceAs (Decidable (∀ _, ∀ i ∈ _, _ → _ → ∀ f ∈ _, _ = true))

/-- What an output grants are distinct inputs unless its walk meets the first proposal again. -/
theorem nodup_granted_iff (out : Fin m) :
    (granted sort maxAccepts draws t core out).Nodup ↔
      ∀ i, served maxAccepts draws core.voq out = some i →
        i ∉ servedEarlier sort core.voq.voqLength (maxAccepts out) core.tables t out
          (accepted maxAccepts draws core.voq out) := by
  have hnodup := nodup_accepted maxAccepts draws core.voq out
  unfold granted served
  cases hins : accepted maxAccepts draws core.voq out with
  | nil => simp [grantedInputs]
  | cons j rest =>
    rw [hins] at hnodup
    rw [grantedInputs, List.nodup_cons, List.head?_cons]
    constructor
    · intro hnot i hi
      rw [← Option.some.inj hi]
      exact hnot.1
    · intro hserved
      exact ⟨hserved j rfl, (nodup_remaining hnodup _ _).sublist (servedEarlier_sublist _ _ _ _)⟩

/-- No output grants twice to an input exactly when none serves its first proposal again. -/
theorem nodup_granted_iff_notServedAgain :
    (∀ out, (granted sort maxAccepts draws t core out).Nodup) ↔
      NotServedAgain sort maxAccepts draws t core := by
  refine forall_congr' (fun out => (nodup_granted_iff out).trans ?_)
  by_cases hmany : maxAccepts out > 1
  · have hacc : accepted maxAccepts draws core.voq out = proposersOf draws core.voq out :=
      accepted_of_many hmany
    have hnodup := nodup_accepted maxAccepts draws core.voq out
    rw [hacc] at hnodup
    unfold served
    rw [hacc]
    refine forall_congr' (fun i => imp_congr Option.mem_def.symm ?_)
    rw [servedEarlier, if_pos hmany, FirstFit.mem_served_iff (nodup_remaining hnodup _ _)]
    simp [hmany]
  · rw [servedEarlier, if_neg hmany]
    simp [hmany]

/-- Every input that gets a frame from `out` sampled it and has a packet for it. -/
theorem granted_spec (hpos : ∀ o, ∀ i ∈ accepted maxAccepts draws core.voq o,
      0 < core.voq.voqLength i o) {out : Fin m} {i : Fin n}
    (h : i ∈ granted sort maxAccepts draws t core out) :
    draws.outputs core.voq.bst i = some out ∧ 0 < core.voq.voqLength i out :=
  ⟨sampled_of_mem_accepted (grantedInputs_subset _ _ _ _ h),
    hpos out i (grantedInputs_subset _ _ _ _ h)⟩

/-- A call of `qps` on consistent tables and exact queues, with good samples: each input gets at
    most one frame exactly when no output serves its first proposal again. -/
theorem oneFrameEach_iff_notServedAgain (ht : t < bitmapWidth)
    (h : core.tables.Consistent B t (t + 1)) (hempty : ∀ i, core.schedules t i = none)
    (hexact : core.voq.Exact) (hgood : draws.Good core.voq.bst core.voq.voqLength) :
    OneFrameEach sort maxAccepts draws t core ↔ NotServedAgain sort maxAccepts draws t core := by
  obtain ⟨outAccepts, hpropose, rfl, hpos⟩ := (proposeAll_post maxAccepts draws core.voq).exists_ok
    (fun _ _ he => he.2 hgood)
  obtain ⟨acc, haccept, -, hdep, -⟩ := acceptAll_eq_ok sort maxAccepts draws ht h hempty
  have hgrants : grants sort maxAccepts draws t core
      = .ok (proposalPairs (granted sort maxAccepts draws t core) (List.finRange m)) := by
    rw [grants, hpropose, ok_bind, haccept, ok_bind, hdep]
  have hfst : (proposalPairs (granted sort maxAccepts draws t core) (List.finRange m)).map Prod.fst
      = (List.finRange m).flatMap (granted sort maxAccepts draws t core) := by
    rw [proposalPairs, List.map_flatMap]
    congr 1
    ext1 o
    rw [List.map_map]
    exact List.map_id _
  rw [← nodup_granted_iff_notServedAgain]
  constructor
  · -- What one output grants is a part of what is granted in all.
    rintro ⟨gs, core', hgs, -, hnodup, -⟩ out
    rw [← Except.ok.inj (hgrants.symm.trans hgs), hfst] at hnodup
    exact (List.nodup_flatMap.mp hnodup).1 out (List.mem_finRange out)
  · intro hnodup
    have hall : ((List.finRange m).flatMap (granted sort maxAccepts draws t core)).Nodup := by
      refine List.nodup_flatMap.mpr ⟨fun o _ => hnodup o, (List.nodup_finRange m).imp ?_⟩
      -- An input samples one output only.
      intro o o' hne i hi hi'
      have heq := (granted_spec hpos hi).1.symm.trans (granted_spec hpos hi').1
      exact hne (Option.some.inj heq)
    -- Distinct grants are at most one for each VOQ, and each of these has a packet.
    have hcount : ∀ i o, ((proposalPairs (granted sort maxAccepts draws t core)
        (List.finRange m)).count (i, o) : ℤ) ≤ core.voq.voqLength i o := by
      refine count_le_of_nodup (List.Nodup.of_map Prod.fst (by rw [hfst]; exact hall)) ?_
        (fun i o => hexact.nonneg i o)
      rintro ⟨i, o⟩ hp
      exact (granted_spec hpos (mem_proposalPairs.mp hp).2).2
    obtain ⟨voq, hvoq, -⟩ := VoqState.handlePacketDepartures_eq_ok hexact hcount
    have hround : Availability.round sort maxAccepts draws t core
        = .ok ⟨countUnmatched t (served maxAccepts draws core.voq) acc.toBooking, voq⟩ := by
      rw [Availability.round, hpropose, ok_bind, haccept, ok_bind, hdep, hvoq, ok_bind]
      rfl
    exact ⟨_, _, hgrants, hround, by rw [hfst]; exact hall, hcount⟩

/-! ### In every reachable state -/

/-- In every reachable state of either scheduler, after any arrivals and for any shuffle and any
    samples with positive count: the call of `qps` grants each input at most one frame, and no
    assertion fails, exactly when no output serves its first proposal again. -/
theorem oneFrameEach_iff (hB1 : 1 ≤ B) (hB : B ≤ bitmapWidth) (sw : IQSwitch n m) :
    (∀ sys, Run (HalfHalfAvailabilityAware.model n m B sort) ⟨sw, initial⟩ sys → ∀ channels,
      ∃ core, enterSlot B (sys.switch.readInputs channels) sys.scheduler = .ok core ∧
        ∀ draws, draws.Good core.voq.bst core.voq.voqLength →
          let t := sys.scheduler.cfRelTime % B
          let accepts := HalfHalfAvailabilityAware.maxAccepts B t core.tables
          OneFrameEach sort accepts draws t core ↔ NotServedAgain sort accepts draws t core) ∧
    ∀ sys, Run (Adaptive.model n m B sort) ⟨sw, initial⟩ sys → ∀ channels,
      ∃ core, enterSlot B (sys.switch.readInputs channels) sys.scheduler = .ok core ∧
        ∀ draws, draws.Good core.voq.bst core.voq.voqLength →
          let t := sys.scheduler.cfRelTime % B
          let accepts := Adaptive.maxAccepts B t core.tables
          OneFrameEach sort accepts draws t core ↔ NotServedAgain sort accepts draws t core := by
  constructor
  all_goals
    intro sys hrun channels
    obtain ⟨core, hcore, hcons, hexact, hempty⟩ :=
      enterSlot_of_run hB1 hB .initial hrun (sys.switch.readInputs channels)
    have ht : sys.scheduler.cfRelTime % B < B := Nat.mod_lt _ (by omega)
    refine ⟨core, hcore, fun draws hgood => ?_⟩
    exact oneFrameEach_iff_notServedAgain (by omega) hcons hempty hexact hgood

/-- The second slot of a batch of two after an idle one, up to the call of `qps`. -/
def enterSecondSlot (maxAccepts : Policy 2 2) (channels : Fin 2 → List (Packet 2 2)) :
    Except Fault (System (model maxAccepts 2 DescSort.insertion) × Core (Booking 2 2) 2 2) := do
  let sys ← switching (model maxAccepts 2 DescSort.insertion) (inOrderDraws 2 2 (1 / 2))
    (fun _ => []) ⟨IQSwitch.empty 2 2, initial⟩
  let core ← enterSlot 2 (sys.switch.readInputs channels) sys.scheduler
  .ok (sys, core)

theorem run_of_enterSecondSlot {maxAccepts : Policy 2 2} {channels : Fin 2 → List (Packet 2 2)}
    {sys : System (model maxAccepts 2 DescSort.insertion)} {core : Core (Booking 2 2) 2 2}
    (h : enterSecondSlot maxAccepts channels = .ok (sys, core)) :
    Run (model maxAccepts 2 DescSort.insertion) ⟨IQSwitch.empty 2 2, initial⟩ sys ∧
      enterSlot 2 (sys.switch.readInputs channels) sys.scheduler = .ok core := by
  obtain ⟨sys', hok, h'⟩ := bind_eq_ok.mp h
  obtain ⟨core', hcore, h''⟩ := bind_eq_ok.mp h'
  obtain ⟨rfl, rfl⟩ := Prod.mk.inj (Except.ok.inj h'')
  exact ⟨Run.step _ _ .refl hok, hcore⟩

/-- Input `0` has two packets for output `0`, input `1` has one.  Input `0` is served now and comes
    first in the sorted list, so the walk does not meet it; input `1` gets the idle slot. -/
theorem oneFrameEach_after_slot :
    ∃ sys core, enterSecondSlot HalfHalfAvailabilityAware.maxAccepts
        (packetsFor 0 ![2, 1]) = .ok (sys, core) ∧
      OneFrameEach DescSort.insertion
        (HalfHalfAvailabilityAware.maxAccepts 2 (sys.scheduler.cfRelTime % 2) core.tables)
        (inOrderDraws 2 2 (1 / 2)) (sys.scheduler.cfRelTime % 2) core := by
  obtain ⟨⟨sys, core⟩, hok, hcond⟩ := exists_of_returns
    (x := enterSecondSlot HalfHalfAvailabilityAware.maxAccepts (packetsFor 0 ![2, 1]))
    (p := fun x => decide ((inOrderDraws 2 2 (1 / 2)).Good x.2.voq.bst x.2.voq.voqLength ∧
      NotServedAgain DescSort.insertion
        (HalfHalfAvailabilityAware.maxAccepts 2 (x.1.scheduler.cfRelTime % 2) x.2.tables)
        (inOrderDraws 2 2 (1 / 2)) (x.1.scheduler.cfRelTime % 2) x.2)) (by decide +kernel)
  obtain ⟨hgood, hagain⟩ := of_decide_eq_true hcond
  obtain ⟨hrun, hcore⟩ := run_of_enterSecondSlot hok
  refine ⟨sys, core, hok, ?_⟩
  obtain ⟨core', hcore', hiff⟩ := (oneFrameEach_iff (by decide) (by decide)
    (IQSwitch.empty 2 2)).1 sys hrun (packetsFor 0 ![2, 1])
  obtain rfl := Except.ok.inj (hcore.symm.trans hcore')
  exact (hiff (inOrderDraws 2 2 (1 / 2)) hgood).mpr hagain

/-- Input `0` has one packet for output `0`, input `1` has two.  Input `0` comes first in the
    shuffled order and is served now, but is second in the sorted list, so that it is served again
    at the idle slot; its second virtual departure fails the assertion. -/
theorem not_oneFrameEach_of_run :
    (∃ sys channels core, Run (HalfHalfAvailabilityAware.model 2 2 2 DescSort.insertion)
        ⟨IQSwitch.empty 2 2, initial⟩ sys ∧
      enterSlot 2 (sys.switch.readInputs channels) sys.scheduler = .ok core ∧
      (inOrderDraws 2 2 (1 / 2)).Good core.voq.bst core.voq.voqLength ∧
      ¬ OneFrameEach DescSort.insertion
        (HalfHalfAvailabilityAware.maxAccepts 2 (sys.scheduler.cfRelTime % 2) core.tables)
        (inOrderDraws 2 2 (1 / 2)) (sys.scheduler.cfRelTime % 2) core) ∧
    ∃ sys channels core, Run (Adaptive.model 2 2 2 DescSort.insertion)
        ⟨IQSwitch.empty 2 2, initial⟩ sys ∧
      enterSlot 2 (sys.switch.readInputs channels) sys.scheduler = .ok core ∧
      (inOrderDraws 2 2 (1 / 2)).Good core.voq.bst core.voq.voqLength ∧
      ¬ OneFrameEach DescSort.insertion
        (Adaptive.maxAccepts 2 (sys.scheduler.cfRelTime % 2) core.tables)
        (inOrderDraws 2 2 (1 / 2)) (sys.scheduler.cfRelTime % 2) core := by
  -- Both policies let an input take a second frame from an output, and an assertion fails.
  have hfault : ∀ maxAccepts : Policy 2 2,
      returns (enterSecondSlot maxAccepts (packetsFor 0 ![1, 2])) (fun x =>
        decide ((inOrderDraws 2 2 (1 / 2)).Good x.2.voq.bst x.2.voq.voqLength) &&
        !returns (Availability.round DescSort.insertion
          (maxAccepts 2 (x.1.scheduler.cfRelTime % 2) x.2.tables) (inOrderDraws 2 2 (1 / 2))
          (x.1.scheduler.cfRelTime % 2) x.2) (fun _ => true)) = true →
      ∃ sys channels core, Run (model maxAccepts 2 DescSort.insertion)
          ⟨IQSwitch.empty 2 2, initial⟩ sys ∧
        enterSlot 2 (sys.switch.readInputs channels) sys.scheduler = .ok core ∧
        (inOrderDraws 2 2 (1 / 2)).Good core.voq.bst core.voq.voqLength ∧
        ¬ OneFrameEach DescSort.insertion
          (maxAccepts 2 (sys.scheduler.cfRelTime % 2) core.tables)
          (inOrderDraws 2 2 (1 / 2)) (sys.scheduler.cfRelTime % 2) core := by
    intro maxAccepts h
    obtain ⟨⟨sys, core⟩, hok, hcond⟩ := exists_of_returns h
    obtain ⟨hgood, hfails⟩ := Bool.and_eq_true_iff.mp hcond
    obtain ⟨hrun, hcore⟩ := run_of_enterSecondSlot hok
    refine ⟨sys, _, core, hrun, hcore, of_decide_eq_true hgood, ?_⟩
    rintro ⟨gs, core', -, hround, -⟩
    rw [hround] at hfails
    cases hfails
  exact ⟨hfault _ (by decide +kernel), hfault _ (by decide +kernel)⟩

end AvailabilityAware

end SbQps

end SschedSimulator
