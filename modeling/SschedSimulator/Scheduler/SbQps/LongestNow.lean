import SschedSimulator.Scheduler.SbQps.AvailabilityAware
import SschedSimulator.Scheduler.SbQps.MultiIteration

namespace SschedSimulator

open Foundation

/-!
# `sb_qps.cc` — who gets the current slot

A comment of the source says that an output schedules the input with the largest VOQ among those
that proposed to it for the current slot.  The input it takes is the first of the list of proposals.
An output that accepts only one proposal keeps the longest one there; an output that may accept
several keeps all of them in the order in which they came, and sorts the list only afterwards.

* `LongestNow` — what the comment says, of one round;
* `FirstIsLongest` — when it holds, `longestNow_iff_firstIsLongest`;
* `longestNow_iff` — in every reachable state, for every round of the four schedulers.
-/

namespace SbQps

variable {n m : ℕ} {B : ℕ} {sort : DescSort (Fin n)}

namespace Availability

/-- Every output that gets proposals in a round gives the current slot to one with the longest
    VOQ. -/
def LongestNow (sort : DescSort (Fin n)) (maxAccepts : Fin m → ℤ) (draws : TreeDraws n m) (t : ℕ)
    (core : Core (Booking n m) n m) : Prop :=
  ∃ outAccepts acc, proposeAll maxAccepts draws core.voq = .ok outAccepts ∧
    acceptAll sort core.voq.voqLength maxAccepts t outAccepts core.tables = .ok acc ∧
    ∀ out, proposersOf draws core.voq out ≠ [] →
      ∃ i, (outAccepts out).head? = some i ∧ acc.schedules t i = some out ∧
        ∀ j ∈ proposersOf draws core.voq out, core.voq.voqLength j out ≤ core.voq.voqLength i out

/-- Of the inputs that propose to an output that may accept several, the first in the shuffled order
    has a longest VOQ. -/
def FirstIsLongest (maxAccepts : Fin m → ℤ) (draws : TreeDraws n m) (voq : VoqState n m) : Prop :=
  ∀ out, maxAccepts out > 1 → ∀ i, (proposersOf draws voq out).head? = some i →
    ∀ j ∈ proposersOf draws voq out, voq.voqLength j out ≤ voq.voqLength i out

instance (maxAccepts : Fin m → ℤ) (draws : TreeDraws n m) (voq : VoqState n m) :
    Decidable (FirstIsLongest maxAccepts draws voq) :=
  inferInstanceAs (Decidable (∀ out, maxAccepts out > 1 → ∀ i, _ → ∀ j ∈ _, _))

variable {t : ℕ} {maxAccepts : Fin m → ℤ} {draws : TreeDraws n m} {core : Core (Booking n m) n m}

/-- An output that accepts one proposal keeps the longest. -/
theorem le_of_head?_accepted {voq : VoqState n m} {out : Fin m} (hone : ¬ maxAccepts out > 1)
    {i : Fin n} (h : (accepted maxAccepts draws voq out).head? = some i) :
    ∀ j ∈ proposersOf draws voq out, voq.voqLength j out ≤ voq.voqLength i out := by
  have hkeep : accepted maxAccepts draws voq out = (proposersOf draws voq out).foldl
      (fun k i => keepLongest voq.voqLength i out k) [] := by
    unfold accepted keepProposal
    simp only [if_neg hone]
  rw [hkeep, head?_foldl_keepLongest] at h
  have hle := @le_of_foldl_challenge n (fun i => voq.voqLength i out) _ _ _ h
  exact hle.1

/-- An output that may accept several serves the first that proposes. -/
theorem LongestNow.firstIsLongest (h : LongestNow sort maxAccepts draws t core) :
    FirstIsLongest maxAccepts draws core.voq := by
  obtain ⟨outAccepts, acc, hpropose, -, hall⟩ := h
  obtain ⟨rfl, -⟩ := (proposeAll_post maxAccepts draws core.voq).of_ok hpropose
  intro out hmany i hi
  obtain ⟨i', hi', -, hle⟩ := hall out (List.ne_nil_of_mem (List.mem_of_mem_head? hi))
  rw [accepted_of_many hmany, hi, Option.some.injEq] at hi'
  exact hi' ▸ hle

/-- One round gives the current slot to the longest proposers exactly when those come first. -/
theorem longestNow_iff_firstIsLongest (ht : t < bitmapWidth)
    (h : core.tables.toReservations.Covers (t + 1))
    (hgood : draws.Good core.voq.bst core.voq.voqLength) :
    LongestNow sort maxAccepts draws t core ↔ FirstIsLongest maxAccepts draws core.voq := by
  refine ⟨LongestNow.firstIsLongest, fun hfirst => ?_⟩
  obtain ⟨outAccepts, hpropose, rfl, -⟩ :=
    (proposeAll_post maxAccepts draws core.voq).exists_ok (fun _ he hbad => hbad.2 hgood)
  obtain ⟨acc, haccept, -, hserved, -⟩ := (acceptAll_post (MultiIteration.kept_covers ht)
    (Nat.lt_succ_self t) (fun b i o hb => hb.book (Nat.lt_succ_self t) ht i o) sort
    core.voq.voqLength maxAccepts (fun o i (hi : i ∈ accepted maxAccepts draws core.voq o) =>
      sampled_of_mem_accepted hi) h).exists_ok (fun _ _ => not_false)
  refine ⟨_, acc, hpropose, haccept, fun out hne => ?_⟩
  have hkept : accepted maxAccepts draws core.voq out ≠ [] := accepted_ne_nil hne
  obtain ⟨i, hi⟩ := Option.ne_none_iff_exists'.mp
    (fun hnone => hkept (List.head?_eq_none_iff.mp hnone))
  refine ⟨i, hi, hserved out i hi, ?_⟩
  by_cases hmany : maxAccepts out > 1
  · rw [accepted_of_many hmany] at hi
    exact hfirst out hmany i hi
  · exact le_of_head?_accepted hmany hi

/-! ### Reachable states -/

/-- In every reachable state of a scheduler whose slots keep the rows covered, the next slot begins
    with rows that are covered. -/
theorem covered_of_run {D : Type} {qps : D → ℕ → Core (Booking n m) n m →
      Except Fault (Core (Booking n m) n m)} (hB1 : 1 ≤ B)
    (hqps : ∀ draws t core, t < B → core.tables.toReservations.Covers (t + 1) → core.voq.Exact →
      Post (qps draws t core) (fun _ => True)
        (fun core' => core'.tables.toReservations.Covers (t + 1) ∧ core'.voq.Exact))
    {sw : IQSwitch n m} {st₀ : State n m} (hstart : Start (Booking.empty 0) st₀)
    {sys : System (sbModel qps B)} (hrun : Run (sbModel qps B) ⟨sw, st₀⟩ sys)
    (sw' : IQSwitch n m) :
    ∃ core, enterSlot B sw' sys.scheduler = .ok core ∧
      core.tables.toReservations.Covers (sys.scheduler.cfRelTime % B + 1) ∧ core.voq.Exact := by
  have hinit : Sound (fun k (b : Booking n m) => b.toReservations.Covers k) (st₀.cfRelTime % B)
      st₀.toCore := by
    rw [hstart.eq.1, hstart.eq.2]
    exact ⟨(Reservations.tracks_empty _).toCovers, VoqState.exact_empty⟩
  have hsound := sound_of_run (C := fun _ _ _ => True) (MultiIteration.batchInvariant_covers B) hB1
    (fun _ _ _ _ _ _ _ => trivial)
    (fun draws t core ht hcore _ _ =>
      (hqps draws t core ht hcore.tables hcore.voq).imp (fun _ h => ⟨h.1, h.2⟩)) hrun hinit
  obtain ⟨core, hcore, hK, -⟩ :=
    enterSlot_eq_ok (MultiIteration.batchInvariant_covers B) sw' hsound
  exact ⟨core, hcore, hK.tables, hK.voq⟩

/-- In every reachable state of `SB_QPS_HalfHalf_AvailabilityAware` and `SB_QPS_Adaptive`, and
    before every iteration of a slot of `SB_QPS_HalfHalf_MI` and `SB_QPS_ThreeThird_MI`, after any
    arrivals and for any shuffle and any samples with positive count: every output gives the current
    slot to a longest proposer exactly when, at the outputs that may accept several proposals, one
    of these comes first. -/
theorem longestNow_iff (hB1 : 1 ≤ B) (hB : B ≤ bitmapWidth) (sw : IQSwitch n m) {st₀ : State n m}
    (hstart : Start (Booking.empty 0) st₀) :
    (∀ policy ∈ [HalfHalfAvailabilityAware.maxAccepts, Adaptive.maxAccepts],
      ∀ sys, Run (AvailabilityAware.model policy B sort) ⟨sw, st₀⟩ sys → ∀ channels,
        ∃ core, enterSlot B (sys.switch.readInputs channels) sys.scheduler = .ok core ∧
          ∀ draws, draws.Good core.voq.bst core.voq.voqLength →
            let t := sys.scheduler.cfRelTime % B
            LongestNow sort (policy B t core.tables) draws t core ↔
              FirstIsLongest (policy B t core.tables) draws core.voq) ∧
    ∀ limits ∈ [HalfHalfMI.limits, ThreeThirdMI.limits],
      ∀ sys, Run (MultiIteration.model limits n m B sort) ⟨sw, st₀⟩ sys → ∀ channels,
        ∃ first, enterSlot B (sys.switch.readInputs channels) sys.scheduler = .ok first ∧
          ∀ draws : ℕ → TreeDraws n m,
            let t := sys.scheduler.cfRelTime % B
            ∀ k < limits.maxIters B t, ∀ core,
              (List.range k).foldlM (MultiIteration.iteration limits B sort draws t) first
                = .ok core →
              (draws k).Good core.voq.bst core.voq.voqLength →
              (LongestNow sort (fun _ => limits.maxAccepts B t) (draws k) t core ↔
                FirstIsLongest (fun _ => limits.maxAccepts B t) (draws k) core.voq) := by
  have ht : ∀ time, time % B < bitmapWidth := fun time => (Nat.mod_lt _ (by omega)).trans_le hB
  constructor
  · intro policy _ sys hrun channels
    obtain ⟨core, hcore, hcovers, -⟩ := covered_of_run hB1
      (fun draws t core htB h hexact => MultiIteration.round_covers (htB.trans_le hB) h hexact)
      hstart hrun (sys.switch.readInputs channels)
    exact ⟨core, hcore, fun draws hgood => longestNow_iff_firstIsLongest (ht _) hcovers hgood⟩
  · intro limits _ sys hrun channels
    -- The iterations before this one keep the tables covered and the trees exact.
    have hiterations : ∀ (draws : ℕ → TreeDraws n m) (t k : ℕ) (core : Core (Booking n m) n m),
        t < B → core.tables.toReservations.Covers (t + 1) → core.voq.Exact →
        Post ((List.range k).foldlM (MultiIteration.iteration limits B sort draws t) core)
          (fun _ => True)
          (fun core' => core'.tables.toReservations.Covers (t + 1) ∧ core'.voq.Exact) :=
      fun draws t k core htB h hexact => Post.foldlM
        (I := fun core' : Core (Booking n m) n m =>
          core'.tables.toReservations.Covers (t + 1) ∧ core'.voq.Exact) ⟨h, hexact⟩
        (fun _ _ _ hcore => MultiIteration.round_covers (htB.trans_le hB) hcore.1 hcore.2)
    obtain ⟨first, hfirst, hcovers, hexact⟩ := covered_of_run hB1
      (fun draws t core htB h hexact => hiterations draws t _ core htB h hexact) hstart hrun
      (sys.switch.readInputs channels)
    refine ⟨first, hfirst, fun draws k _ core hcore hgood => ?_⟩
    have hbefore :=
      (hiterations draws _ k first (Nat.mod_lt _ (by omega)) hcovers hexact).of_ok hcore
    exact longestNow_iff_firstIsLongest (ht _) hbefore.1 hgood

/-- Two packets arrive at input `0` and one at input `1`, for output `0`: input `0` comes first. -/
theorem longestNow_of_first :
    ∃ core : Core (Booking 2 2) 2 2,
      enterSlot 1 ((IQSwitch.empty 2 2).readInputs (packetsFor 0 (fun i => 2 - i))) initial
        = .ok core ∧
      LongestNow DescSort.insertion (HalfHalfAvailabilityAware.maxAccepts 1 0 core.tables)
        (inOrderDraws 2 2 (1 / 2)) 0 core := by
  obtain ⟨core, hcore, hcond⟩ := exists_of_returns
    (x := enterSlot 1 ((IQSwitch.empty 2 2).readInputs (packetsFor 0 (fun i => 2 - i)))
      (initial : State 2 2))
    (p := fun core => decide ((inOrderDraws 2 2 (1 / 2)).Good core.voq.bst core.voq.voqLength ∧
      FirstIsLongest (HalfHalfAvailabilityAware.maxAccepts 1 0 core.tables)
        (inOrderDraws 2 2 (1 / 2)) core.voq)) (by decide +kernel)
  obtain ⟨hgood, hfirst⟩ := of_decide_eq_true hcond
  obtain ⟨core', hcore', hiff⟩ := (longestNow_iff (le_refl 1) (by decide) (IQSwitch.empty 2 2)
    .initial).1 _ (List.mem_cons_self ..) _ .refl (packetsFor 0 (fun i => 2 - i))
  obtain rfl := Except.ok.inj (hcore.symm.trans hcore')
  exact ⟨core, hcore, (hiff (inOrderDraws 2 2 (1 / 2)) hgood).mpr hfirst⟩

/-- One packet arrives at input `0` and two at input `1`, for output `0`: input `0` comes first and
    gets the slot. -/
theorem not_longestNow_of_first :
    ∃ core : Core (Booking 2 2) 2 2,
      enterSlot 1 ((IQSwitch.empty 2 2).readInputs (packetsFor 0 (fun i => i + 1))) initial
        = .ok core ∧
      (inOrderDraws 2 2 (1 / 2)).Good core.voq.bst core.voq.voqLength ∧
      ¬ LongestNow DescSort.insertion (HalfHalfAvailabilityAware.maxAccepts 1 0 core.tables)
        (inOrderDraws 2 2 (1 / 2)) 0 core ∧
      ∀ limits ∈ [HalfHalfMI.limits, ThreeThirdMI.limits],
        ¬ LongestNow DescSort.insertion (fun _ => limits.maxAccepts 1 0)
          (inOrderDraws 2 2 (1 / 2)) 0 core := by
  obtain ⟨core, hcore, hcond⟩ := exists_of_returns
    (x := enterSlot 1 ((IQSwitch.empty 2 2).readInputs (packetsFor 0 (fun i => i + 1)))
      (initial : State 2 2))
    (p := fun core => decide ((inOrderDraws 2 2 (1 / 2)).Good core.voq.bst core.voq.voqLength ∧
      ¬ FirstIsLongest (HalfHalfAvailabilityAware.maxAccepts 1 0 core.tables)
        (inOrderDraws 2 2 (1 / 2)) core.voq ∧
      ∀ limits ∈ [HalfHalfMI.limits, ThreeThirdMI.limits],
        ¬ FirstIsLongest (fun _ => limits.maxAccepts 1 0) (inOrderDraws 2 2 (1 / 2)) core.voq))
    (by decide +kernel)
  obtain ⟨hgood, haware, hlimits⟩ := of_decide_eq_true hcond
  exact ⟨core, hcore, hgood, fun h => haware h.firstIsLongest,
    fun limits hmem h => hlimits limits hmem h.firstIsLongest⟩

end Availability

end SbQps

end SschedSimulator
