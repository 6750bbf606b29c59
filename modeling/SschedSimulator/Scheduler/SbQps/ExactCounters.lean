import SschedSimulator.Scheduler.SbQps.AvailabilityAware

namespace SschedSimulator

open Foundation

/-!
# `sb_qps.cc` — what the availability counters count

The counters of a port are documented as the number of slots of the batch, up to the current one,
that are available to it.  `SB_QPS_HalfHalf_AvailabilityAware` and `SB_QPS_Adaptive` give the
current slot away without touching a counter and settle both kinds of counters at the end of the
round, from different tests; a reservation of an earlier slot decrements them at once.

* `ExactCounters` — the counters are what the schedule rows say;
* `acceptUntil_post` — they are so for the earlier slots at any point of the accept phase;
* `exactCounters_of_run` — after every slot of every run.
-/

namespace SbQps

variable {n m : ℕ}

/-- In how many of the first `k` frames an input is not matched. -/
def unmatchedFramesOfInput (k : ℕ) (schedules : ℕ → Fin n → Option (Fin m)) (i : Fin n) : ℕ :=
  ((Finset.range k).filter (fun f => schedules f i = none)).card

/-- In how many of the first `k` frames no input is matched to an output. -/
def unmatchedFramesOfOutput (k : ℕ) (schedules : ℕ → Fin n → Option (Fin m)) (o : Fin m) : ℕ :=
  ((Finset.range k).filter (fun f => ∀ i, schedules f i ≠ some o)).card

/-- The counters say in how many of the first `k` frames a port is not matched. -/
structure ExactCounters (k : ℕ) (b : Booking n m) : Prop where
  input : ∀ i, b.inputAvailability i = unmatchedFramesOfInput k b.schedules i
  output : ∀ o, b.outputAvailability o = unmatchedFramesOfOutput k b.schedules o

instance (k : ℕ) (b : Booking n m) : Decidable (ExactCounters k b) :=
  decidable_of_iff
    ((∀ i, b.inputAvailability i = unmatchedFramesOfInput k b.schedules i) ∧
      ∀ o, b.outputAvailability o = unmatchedFramesOfOutput k b.schedules o)
    ⟨fun h => ⟨h.1, h.2⟩, fun h => ⟨h.input, h.output⟩⟩

theorem freeFrames_inFlag {B k c : ℕ} {b : Booking n m} (h : b.toReservations.Consistent B k)
    (hc : c ≤ k) (i : Fin n) :
    freeFrames (Finset.range c) (b.inFlag i) = unmatchedFramesOfInput c b.schedules i := by
  refine congrArg Finset.card (Finset.filter_congr (fun f hf => ?_))
  rw [← Bool.not_eq_true, h.toTracks.inFlag_iff ((Finset.mem_range.mp hf).trans_le hc), not_not]

theorem freeFrames_outFlag {B k c : ℕ} {b : Booking n m} (h : b.toReservations.Consistent B k)
    (hc : c ≤ k) (o : Fin m) :
    freeFrames (Finset.range c) (b.outFlag o) = unmatchedFramesOfOutput c b.schedules o := by
  refine congrArg Finset.card (Finset.filter_congr (fun f hf => ?_))
  rw [← Bool.not_eq_true, h.toTracks.outFlag_iff ((Finset.mem_range.mp hf).trans_le hc),
    not_exists]

/-- Consistent tables have exact counters. -/
theorem exactCounters_of_consistent {B c k : ℕ} {b : Booking n m} (h : b.Consistent B c k)
    (hc : c ≤ k) : ExactCounters c b where
  input := fun i => by rw [h.inputAvailable, freeFrames_inFlag h.toConsistent hc]
  output := fun o => by rw [h.outputAvailable, freeFrames_outFlag h.toConsistent hc]

/-- The frame is free for both ports. -/
def CommonFree (schedules : ℕ → Fin n → Option (Fin m)) (f : ℕ) (i : Fin n) (o : Fin m) : Prop :=
  schedules f i = none ∧ ∀ i', schedules f i' ≠ some o

/-- Ports of which one has its counter at zero have no common free frame. -/
theorem ExactCounters.not_commonFree {k : ℕ} {b : Booking n m} (h : ExactCounters k b) {i : Fin n}
    {o : Fin m} (hzero : b.inputAvailability i = 0 ∨ ¬ b.outputAvailability o > 0) {f : ℕ}
    (hf : f < k) : ¬ CommonFree b.schedules f i o := by
  rintro ⟨hi, ho⟩
  rcases hzero with hzero | hzero
  · rw [h.input, Int.natCast_eq_zero] at hzero
    have hmem := Finset.card_eq_zero.mp hzero
    exact Finset.filter_eq_empty_iff.mp hmem (Finset.mem_range.mpr hf) hi
  · have hcount := h.output o
    have hnone : unmatchedFramesOfOutput k b.schedules o = 0 := by omega
    exact Finset.filter_eq_empty_iff.mp (Finset.card_eq_zero.mp hnone) (Finset.mem_range.mpr hf) ho

namespace AvailabilityAware

open Availability

variable {B t : ℕ} {sort : DescSort (Fin n)} {voqLength : Fin n → Fin m → ℤ}
  {maxAccepts : Fin m → ℤ}

/-- Inside the accept phase: the first `k` outputs are done; the next one has served its first
    proposal and looked at `j` of the others. -/
def acceptUntil (sort : DescSort (Fin n)) (voqLength : Fin n → Fin m → ℤ) (maxAccepts : Fin m → ℤ)
    (timeSlot : ℕ) (outAccepts : Fin m → List (Fin n)) (tables : Booking n m) (k j : ℕ) :
    Except Fault (Accepting n m) := do
  let acc ← ((List.finRange m).take k).foldlM
    (acceptOutput sort voqLength maxAccepts timeSlot outAccepts)
    { toBooking := tables, virtualDepartures := [] }
  match (List.finRange m)[k]? with
  | none => .ok acc
  | some out =>
    match outAccepts out with
    | [] => .ok acc
    | i :: rest => do
      let acc' ← serveNow timeSlot out i acc
      if maxAccepts out > 1 then
        acc'.acceptLoop (fun available => decide (available > 0)) false (earlierFrames timeSlot)
          out ((remaining sort voqLength (maxAccepts out) out (i :: rest)).take j)
      else .ok acc'

/-- At any point of the accept phase the counters say how many of the earlier frames are free. -/
theorem acceptUntil_post (ht : t < bitmapWidth) {outAccepts : Fin m → List (Fin n)}
    (hnodup : ∀ o, (outAccepts o).Nodup) {sample : Fin n → Option (Fin m)}
    (hsample : ∀ o, ∀ i ∈ outAccepts o, sample i = some o) {tables : Booking n m}
    (h : tables.Consistent B t (t + 1)) (hempty : ∀ i, tables.schedules t i = none) (k j : ℕ) :
    Post (acceptUntil sort voqLength maxAccepts t outAccepts tables k j) (fun _ => False)
      (fun acc => acc.toBooking.Consistent B t (t + 1)) := by
  let start : Accepting n m := { toBooking := tables, virtualDepartures := [] }
  obtain ⟨acc, hrun, hcons, -, hrow⟩ := acceptOutputs_eq_ok sort voqLength maxAccepts ht hnodup
    hsample ((List.finRange m).take k) ((List.nodup_finRange m).sublist (List.take_sublist k _))
    (show start.toBooking.Consistent B t (t + 1) from h)
    (fun i o hc => absurd ((hempty i).symm.trans hc) (Option.some_ne_none o).symm)
  unfold acceptUntil
  rw [hrun, ok_bind]
  cases hnext : (List.finRange m)[k]? with
  | none => exact hcons
  | some out =>
    dsimp only
    -- A cell of the slot belongs to one of the outputs done, and `out` is not one of them.
    have hcell : ∀ i o, acc.schedules t i = some o → o ≠ out ∧ sample i = some o := by
      intro i o hc
      rcases (hrow i o).mp hc with hold | ⟨ho, hi⟩
      · exact absurd ((hempty i).symm.trans hold) (Option.some_ne_none o).symm
      · refine ⟨fun heq => ?_, hsample o i (List.mem_of_mem_head? hi)⟩
        exact not_mem_take_of_getElem? (List.nodup_finRange m) hnext (heq ▸ ho)
    cases hins : outAccepts out with
    | nil => exact hcons
    | cons i rest =>
      have hi : acc.schedules t i = none := by
        cases hc : acc.schedules t i with
        | none => rfl
        | some o =>
          obtain ⟨hne, hs⟩ := hcell i o hc
          rw [hsample out i (by rw [hins]; exact List.mem_cons_self ..), Option.some.injEq] at hs
          exact absurd hs.symm hne
      have hnow := consistent_bookNow ht hcons hi (fun i' hc => (hcell i' out hc).1 rfl)
      dsimp only
      rw [serveNow_eq ht, ok_bind]
      split
      · refine (Accepting.acceptLoop_post (Booking.kept_consistent ht (fun f hf => ?_))
          (le_refl (t + 1)) _ false out _ hnow).imp (fun acc' hacc' => ?_)
        · have hlt : f < t := mem_earlierFrames.mp hf
          omega
        · obtain ⟨_, _, hcons', _⟩ := hacc'
          exact hcons'
      · exact hnow

/-- After every slot of every run from construction or a reset, before the counters are cleared at
    the end of a batch, they say in how many of the slots up to the current one a port is unmatched.
    Hence a proposal passed over or not looked at because of a counter has no common free earlier
    slot, and `SB_QPS_Adaptive` computes `maxAccepts` from the number of earlier slots that are
    free. -/
theorem exactCounters_of_run {maxAccepts : Policy n m} (hB1 : 1 ≤ B) (hB : B ≤ bitmapWidth)
    {st₀ : State n m} (hstart : Start (Booking.empty 0) st₀) {sw : IQSwitch n m}
    {sys : System (model maxAccepts B sort)}
    (hrun : Run (model maxAccepts B sort) ⟨sw, st₀⟩ sys) (sw' : IQSwitch n m)
    (draws : TreeDraws n m) :
    let t := sys.scheduler.cfRelTime % B
    (∀ st', slotRound (qps maxAccepts B sort draws) B sw' sys.scheduler = .ok st' →
      ExactCounters (t + 1) st'.tables) ∧
    ∃ core, enterSlot B sw' sys.scheduler = .ok core ∧
      (∀ o, Adaptive.maxAccepts B t core.tables o = 1 + Adaptive.roundToNearest
        ((unmatchedFramesOfOutput t core.schedules o : ℚ) / (B - t : ℕ))) ∧
      ∀ outAccepts, proposeAll (maxAccepts B t core.tables) draws core.voq = .ok outAccepts →
        ∀ k j, ∃ acc, acceptUntil sort core.voq.voqLength (maxAccepts B t core.tables) t outAccepts
            core.tables k j = .ok acc ∧
          ∀ i o, acc.inputAvailability i = 0 ∨ ¬ acc.outputAvailability o > 0 →
            ∀ f < t, ¬ CommonFree acc.schedules f i o := by
  intro t
  obtain ⟨core, hcore, hcons, hexact, hempty⟩ := enterSlot_of_run hB1 hB hstart hrun sw'
  have ht : t < bitmapWidth := (Nat.mod_lt _ (by omega)).trans_le hB
  refine ⟨fun st' hst' => ?_, core, hcore, fun o => ?_, fun outAccepts hpropose k j => ?_⟩
  · rw [slotRound, hcore, ok_bind] at hst'
    obtain ⟨core', hqps, hst'⟩ := bind_eq_ok.mp hst'
    obtain ⟨hcons', -⟩ := (round_consistent ht hcons hempty hexact).of_ok hqps
    rw [← Except.ok.inj hst']
    exact exactCounters_of_consistent hcons' (le_refl _)
  · -- before the round the counter is about the earlier frames
    have hcount := (exactCounters_of_consistent hcons (Nat.le_succ t)).output o
    rw [Adaptive.maxAccepts, hcount]
    rfl
  · obtain ⟨rfl, -⟩ := (proposeAll_post _ draws core.voq).of_ok hpropose
    obtain ⟨acc, hacc, hcons'⟩ := (acceptUntil_post ht
      (nodup_accepted (maxAccepts B t core.tables) draws core.voq)
      (fun o i hi => sampled_of_mem_accepted hi) hcons hempty k j).exists_ok (fun _ _ => not_false)
    refine ⟨acc, hacc, fun i o hzero f hf => ?_⟩
    exact (exactCounters_of_consistent hcons' (Nat.le_succ t)).not_commonFree hzero hf

/-- The first slot of a batch gives output `0` to input `0`; the other two ports can use it later.
    -/
theorem exactCounters_after_slot :
    ∃ st : State 2 2, slotRound (qps HalfHalfAvailabilityAware.maxAccepts 2 DescSort.insertion
        (inOrderDraws 2 2 (1 / 2))) 2 (.simplified ⟨fun _ _ => 1, [some (0, 0)], []⟩) initial
        = .ok st ∧ st.schedules 0 0 = some 0 ∧ ExactCounters 1 st.tables := by
  obtain ⟨st, hrun, hst⟩ := exists_of_returns
    (x := slotRound (qps HalfHalfAvailabilityAware.maxAccepts 2 DescSort.insertion
      (inOrderDraws 2 2 (1 / 2))) 2 (.simplified ⟨fun _ _ => 1, [some (0, 0)], []⟩) initial)
    (p := fun st : State 2 2 => decide (st.schedules 0 0 = some 0)) (by decide +kernel)
  have hstart : Run (model HalfHalfAvailabilityAware.maxAccepts 2 DescSort.insertion)
      ⟨IQSwitch.empty 2 2, initial⟩ ⟨IQSwitch.empty 2 2, initial⟩ := .refl
  exact ⟨st, hrun, of_decide_eq_true hst,
    (exactCounters_of_run (by decide) (by decide) .initial hstart _
      (inOrderDraws 2 2 (1 / 2))).1 st hrun⟩

end AvailabilityAware

end SbQps

end SschedSimulator
