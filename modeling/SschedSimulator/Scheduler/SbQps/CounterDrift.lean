import SschedSimulator.Scheduler.SbQps.ExactCounters
import SschedSimulator.Scheduler.SbQps.MultiAcceptSafety
import SschedSimulator.Scheduler.SbQps.MultiIteration

namespace SschedSimulator

open Foundation

/-!
# `sb_qps.cc` — counters that are updated once in every iteration

`SB_QPS_HalfHalf_MI`, `SB_QPS_ThreeThird_MI` and `SB_QPS_HalfHalf_MA_MI` count the current slot for
its unmatched ports at the end of every iteration, not at the end of the slot.  The first two give
the current slot away without touching a counter; the last one and `SB_QPS_HalfHalf_MA` decrement
the counters for it before it is ever counted.

* `Drift` — how far the counters are away from what the rows say, and what a reservation and the end
  of an iteration do to it;
* `Resettles` — the iterations after the first that add nothing to it;
* `QuietOnce` — the slots of the other two schedulers after which it is zero;
* `exactCounters_iff` — in runs all of whose slots are such, after the next slot the counters are
  exact if and only if it is such as well.
-/

namespace SbQps

variable {n m : ℕ}

/-! ### Free frames -/

/-- Whether an input has no cell in a frame, as a number. -/
def freeInput (schedules : ℕ → Fin n → Option (Fin m)) (f : ℕ) (i : Fin n) : ℤ :=
  if schedules f i = none then 1 else 0

/-- Whether no input holds an output in a frame, as a number. -/
def freeOutput (schedules : ℕ → Fin n → Option (Fin m)) (f : ℕ) (o : Fin m) : ℤ :=
  if ∀ i, schedules f i ≠ some o then 1 else 0

theorem freeInput_nonneg (schedules : ℕ → Fin n → Option (Fin m)) (f : ℕ) (i : Fin n) :
    0 ≤ freeInput schedules f i := by
  unfold freeInput
  split <;> decide

theorem freeOutput_nonneg (schedules : ℕ → Fin n → Option (Fin m)) (f : ℕ) (o : Fin m) :
    0 ≤ freeOutput schedules f o := by
  unfold freeOutput
  split <;> decide

@[simp] theorem freeInput_eq_zero {schedules : ℕ → Fin n → Option (Fin m)} {f : ℕ} {i : Fin n} :
    freeInput schedules f i = 0 ↔ schedules f i ≠ none := by
  simp [freeInput]

@[simp] theorem freeOutput_eq_zero {schedules : ℕ → Fin n → Option (Fin m)} {f : ℕ} {o : Fin m} :
    freeOutput schedules f o = 0 ↔ ∃ i, schedules f i = some o := by
  simp [freeOutput]

@[simp] theorem freeOutput_eq_one {schedules : ℕ → Fin n → Option (Fin m)} {f : ℕ} {o : Fin m} :
    freeOutput schedules f o = 1 ↔ ∀ i, schedules f i ≠ some o := by
  simp [freeOutput]

theorem unmatchedFramesOfInput_succ (k : ℕ) (schedules : ℕ → Fin n → Option (Fin m)) (i : Fin n) :
    (unmatchedFramesOfInput (k + 1) schedules i : ℤ)
      = unmatchedFramesOfInput k schedules i + freeInput schedules k i := by
  unfold unmatchedFramesOfInput freeInput
  rw [Finset.range_add_one, Finset.filter_insert]
  split
  · rw [Finset.card_insert_of_notMem (by simp)]
    rfl
  · exact (add_zero _).symm

theorem unmatchedFramesOfOutput_succ (k : ℕ) (schedules : ℕ → Fin n → Option (Fin m)) (o : Fin m) :
    (unmatchedFramesOfOutput (k + 1) schedules o : ℤ)
      = unmatchedFramesOfOutput k schedules o + freeOutput schedules k o := by
  unfold unmatchedFramesOfOutput freeOutput
  rw [Finset.range_add_one, Finset.filter_insert]
  split
  · rw [Finset.card_insert_of_notMem (by simp)]
    rfl
  · exact (add_zero _).symm

theorem unmatchedFramesOfInput_eq (k : ℕ) (schedules : ℕ → Fin n → Option (Fin m)) (i : Fin n) :
    unmatchedFramesOfInput k schedules i
      = freeFrames (Finset.range k) (fun f => decide (schedules f i ≠ none)) := by
  simp [unmatchedFramesOfInput, freeFrames]

theorem unmatchedFramesOfOutput_eq (k : ℕ) (schedules : ℕ → Fin n → Option (Fin m)) (o : Fin m) :
    unmatchedFramesOfOutput k schedules o
      = freeFrames (Finset.range k) (fun f => decide (∃ i, schedules f i = some o)) := by
  simp [unmatchedFramesOfOutput, freeFrames]

/-- Only the rows counted matter. -/
theorem unmatchedFrames_congr {k : ℕ} {schedules schedules' : ℕ → Fin n → Option (Fin m)}
    (h : ∀ f < k, schedules f = schedules' f) :
    (∀ i, unmatchedFramesOfInput k schedules i = unmatchedFramesOfInput k schedules' i) ∧
      ∀ o, unmatchedFramesOfOutput k schedules o = unmatchedFramesOfOutput k schedules' o := by
  constructor
  · intro i
    exact congrArg Finset.card (Finset.filter_congr (fun f hf => by
      rw [h f (Finset.mem_range.mp hf)]))
  · intro o
    exact congrArg Finset.card (Finset.filter_congr (fun f hf => by
      rw [h f (Finset.mem_range.mp hf)]))

/-! ### Drift -/

/-- Counters that are away from the numbers of free frames by `d` stay so when a port takes a free
    frame and its counter is decremented. -/
theorem counters_book_away {F P : Type*} [DecidableEq F] [DecidableEq P] {frames : Finset F}
    {flag flag' : P → F → Bool} {count d : P → ℤ} {q : P} {f : F}
    (h : ∀ p, count p = freeFrames frames (flag p) + d p) (hf : f ∈ frames)
    (hfree : flag q f = false) (hset : ∀ p g, flag' p g = (decide (p = q ∧ g = f) || flag p g))
    (p : P) : Function.update count q (count q - 1) p = freeFrames frames (flag' p) + d p := by
  have hcount : ∀ p, count p - d p = freeFrames frames (flag p) := fun p => by rw [h]; omega
  rw [← counters_book hcount hf hfree hset p]
  by_cases hp : p = q
  · subst hp
    rw [Function.update_self, Function.update_self]
    omega
  · rw [Function.update_of_ne hp, Function.update_of_ne hp]
    omega

/-- The counters are away from the numbers of free frames, of the first `k`, by `a` and `c`. -/
structure Drift (k : ℕ) (a : Fin n → ℤ) (c : Fin m → ℤ) (b : Booking n m) : Prop where
  input : ∀ i, b.inputAvailability i = unmatchedFramesOfInput k b.schedules i + a i
  output : ∀ o, b.outputAvailability o = unmatchedFramesOfOutput k b.schedules o + c o

variable {k : ℕ} {a : Fin n → ℤ} {c : Fin m → ℤ} {b : Booking n m}

theorem Drift.exact_iff (h : Drift k a c b) :
    ExactCounters k b ↔ (∀ i, a i = 0) ∧ ∀ o, c o = 0 := by
  constructor
  · intro hexact
    constructor
    · intro i
      have hi := hexact.input i
      rw [h.input] at hi
      omega
    · intro o
      have ho := hexact.output o
      rw [h.output] at ho
      omega
  · rintro ⟨ha, hc⟩
    exact ⟨fun i => by rw [h.input, ha, add_zero], fun o => by rw [h.output, hc, add_zero]⟩

theorem ExactCounters.drift (h : ExactCounters k b) : Drift k (fun _ => 0) (fun _ => 0) b :=
  ⟨fun i => by rw [h.input, add_zero], fun o => by rw [h.output, add_zero]⟩

/-- Counting one frame more. -/
theorem drift_succ_iff : Drift (k + 1) a c b ↔
    Drift k (fun i => freeInput b.schedules k i + a i) (fun o => freeOutput b.schedules k o + c o)
      b := by
  constructor
  · intro h
    refine ⟨fun i => ?_, fun o => ?_⟩
    · rw [h.input, unmatchedFramesOfInput_succ, add_assoc]
    · rw [h.output, unmatchedFramesOfOutput_succ, add_assoc]
  · intro h
    refine ⟨fun i => ?_, fun o => ?_⟩
    · rw [h.input, unmatchedFramesOfInput_succ, add_assoc]
    · rw [h.output, unmatchedFramesOfOutput_succ, add_assoc]

/-- A reservation of a frame that is counted and free leaves the drift as it is. -/
theorem Drift.take (h : Drift k a c b) {f : ℕ} (hf : f < k) {i : Fin n} {o : Fin m}
    (hi : b.schedules f i = none) (ho : ∀ i', b.schedules f i' ≠ some o) :
    Drift k a c (b.take f i o) := by
  have hcell : ∀ g j, (b.take f i o).schedules g j
      = if g = f ∧ j = i then some o else b.schedules g j :=
    fun g j => update₂_apply ..
  constructor
  · have hflag : ∀ p g, decide ((b.take f i o).schedules g p ≠ none)
        = (decide (p = i ∧ g = f) || decide (b.schedules g p ≠ none)) := by
      intro p g
      rw [hcell]
      by_cases hp : g = f ∧ p = i
      · simp [hp]
      · simp [hp, and_comm]
    intro p
    rw [unmatchedFramesOfInput_eq]
    exact counters_book_away (fun p => by rw [h.input, unmatchedFramesOfInput_eq])
      (Finset.mem_range.mpr hf) (by simpa using hi) hflag p
  · have hflag : ∀ p g, decide (∃ j, (b.take f i o).schedules g j = some p)
        = (decide (p = o ∧ g = f) || decide (∃ j, b.schedules g j = some p)) := by
      intro p g
      rw [← Bool.decide_or, decide_eq_decide]
      constructor
      · rintro ⟨j, hj⟩
        rw [hcell] at hj
        split at hj
        · rename_i heq
          exact .inl ⟨(Option.some.inj hj).symm, heq.1⟩
        · exact .inr ⟨j, hj⟩
      · rintro (⟨rfl, rfl⟩ | ⟨j, hj⟩)
        · exact ⟨i, by rw [hcell, if_pos ⟨rfl, rfl⟩]⟩
        · refine ⟨j, ?_⟩
          rw [hcell, if_neg (fun heq => ?_), hj]
          -- The cell that is filled was empty.
          rw [heq.1, heq.2, hi] at hj
          cases hj
    intro p
    rw [unmatchedFramesOfOutput_eq]
    exact counters_book_away (fun p => by rw [h.output, unmatchedFramesOfOutput_eq])
      (Finset.mem_range.mpr hf) (by simpa using ho) hflag p

/-- A frame of which the row is empty and that is not counted yet. -/
theorem ExactCounters.drift_succ (h : ExactCounters k b) (hempty : ∀ i, b.schedules k i = none) :
    Drift (k + 1) (fun _ => -1) (fun _ => -1) b := by
  refine drift_succ_iff.mpr ⟨fun i => ?_, fun o => ?_⟩
  · rw [h.input, freeInput, if_pos (hempty i)]
    rfl
  · rw [h.output, freeOutput_eq_one.mpr (fun i => by rw [hempty]; exact nofun)]
    rfl

/-- Rows that are not counted do not matter. -/
theorem Drift.congr (h : Drift k a c b) {r : Reservations n m}
    (hr : ∀ f < k, r.schedules f = b.schedules f) :
    Drift k a c { b with toReservations := r } :=
  ⟨fun i => by rw [(unmatchedFrames_congr hr).1]; exact h.input i,
    fun o => by rw [(unmatchedFrames_congr hr).2]; exact h.output o⟩

/-- The counters stay exact from slot to slot, and are so when they are cleared. -/
theorem batchInvariant_exact (B : ℕ) :
    BatchInvariant B (fun k (b : Booking n m) => b.toReservations.Covers k ∧ ExactCounters k b)
      (fun t b => b.toReservations.Covers (t + 1) ∧ ExactCounters t b) where
  clearRow := by
    rintro k b ⟨hcovers, hexact⟩
    have hdrift : Drift k (fun _ => 0) (fun _ => 0) (BatchTables.clearRow b k) :=
      hexact.drift.congr (fun f hf => by
        rw [Reservations.clearRow_schedules, Function.update_of_ne hf.ne])
    exact ⟨hcovers.clearRow, hdrift.exact_iff.mpr ⟨fun _ => rfl, fun _ => rfl⟩⟩
  resetBitmap := fun b _ =>
    ⟨(Reservations.tracks_resetBitmap b.toReservations).toCovers, fun _ => rfl, fun _ => rfl⟩

/-- The end of an iteration. -/
theorem Drift.countUnmatched (h : Drift k a c b) (t : ℕ) (outMatch : Fin m → Option (Fin n)) :
    Drift k (fun i => a i + freeInput b.schedules t i)
      (fun o => c o + if outMatch o = none then 1 else 0)
      (Availability.countUnmatched t outMatch b) := by
  constructor
  · intro i
    show (if b.schedules t i = none then b.inputAvailability i + 1 else b.inputAvailability i) = _
    rw [h.input, freeInput]
    show _ = (unmatchedFramesOfInput k b.schedules i : ℤ) + _
    split <;> omega
  · intro o
    show (if outMatch o = none then b.outputAvailability o + 1 else b.outputAvailability o) = _
    rw [h.output]
    show _ = (unmatchedFramesOfOutput k b.schedules o : ℤ) + _
    split <;> omega

/-! ### The schedulers with several iterations -/

namespace MultiIteration

open Availability

variable {limits : Limits} {B t : ℕ} {sort : DescSort (Fin n)}

/-- Before the iteration every port is matched in the row of the slot, and an input that holds an
    output without a proposal is served by another output. -/
def Resettles (maxAccepts : Fin m → ℤ) (draws : TreeDraws n m) (t : ℕ)
    (core : Core (Booking n m) n m) : Prop :=
  (∀ i, core.schedules t i ≠ none) ∧
    ∀ o, (∃ i, core.schedules t i = some o) ∧
      (served maxAccepts draws core.voq o = none →
        ∀ i, core.schedules t i = some o → ∃ o', served maxAccepts draws core.voq o' = some i)

instance (maxAccepts : Fin m → ℤ) (draws : TreeDraws n m) (t : ℕ)
    (core : Core (Booking n m) n m) : Decidable (Resettles maxAccepts draws t core) :=
  inferInstanceAs (Decidable ((∀ _, _ ≠ none) ∧ ∀ _, (∃ _, _ = _) ∧ (_ → ∀ _, _ → ∃ _, _)))

/-- The iterations of the slot after the first are such. -/
def SlotResettles (limits : Limits) (B : ℕ) (sort : DescSort (Fin n)) (draws : ℕ → TreeDraws n m)
    (sw : IQSwitch n m) (st : State n m) : Prop :=
  match enterSlot B sw st with
  | .ok core =>
    StepsMeet (iteration limits B sort draws (st.cfRelTime % B))
      (fun core k => 0 < k → Resettles (fun _ => limits.maxAccepts B (st.cfRelTime % B)) (draws k)
        (st.cfRelTime % B) core)
      (List.range (limits.maxIters B (st.cfRelTime % B))) core
  | .error _ => True

instance (limits : Limits) (B : ℕ) (sort : DescSort (Fin n)) (draws : ℕ → TreeDraws n m)
    (sw : IQSwitch n m) (st : State n m) :
    Decidable (SlotResettles limits B sort draws sw st) :=
  show Decidable (match enterSlot B sw st with
      | .ok _ => _
      | .error _ => True) from
    match enterSlot B sw st with
    | .ok _ => decidableStepsMeet _ _ _ _
    | .error _ => .isTrue trivial

variable {maxAccepts : Fin m → ℤ} {draws : TreeDraws n m} {core core' : Core (Booking n m) n m}

/-- What the row of the slot holds after an iteration. -/
structure Served (maxAccepts : Fin m → ℤ) (draws : TreeDraws n m) (t : ℕ)
    (core core' : Core (Booking n m) n m) : Prop where
  served : ∀ o i, served maxAccepts draws core.voq o = some i → core'.schedules t i = some o
  old : ∀ i, (∀ o, Availability.served maxAccepts draws core.voq o ≠ some i) →
    core'.schedules t i = core.schedules t i

/-- An iteration that serves nobody at an output, as a number. -/
def idleOutput (maxAccepts : Fin m → ℤ) (draws : TreeDraws n m) (voq : VoqState n m)
    (o : Fin m) : ℤ :=
  if served maxAccepts draws voq o = none then 1 else 0

/-- An output that serves somebody is matched. -/
theorem Served.le_idleOutput (h : Served maxAccepts draws t core core') (o : Fin m) :
    freeOutput core'.schedules t o ≤ idleOutput maxAccepts draws core.voq o := by
  unfold idleOutput
  cases hs : Availability.served maxAccepts draws core.voq o with
  | none =>
    rw [if_pos rfl, freeOutput]
    split <;> decide
  | some i =>
    rw [freeOutput_eq_zero.mpr ⟨i, h.served o i hs⟩]
    exact le_refl _

/-- The iterations that add nothing to the drift of any port. -/
theorem Served.resettles_iff (h : Served maxAccepts draws t core core') :
    Resettles maxAccepts draws t core ↔ (∀ i, freeInput core.schedules t i = 0) ∧
      ∀ o, freeOutput core.schedules t o + idleOutput maxAccepts draws core.voq o
        = freeOutput core'.schedules t o := by
  refine and_congr (forall_congr' (fun i => freeInput_eq_zero.symm)) (forall_congr' (fun o => ?_))
  unfold idleOutput
  cases hs : Availability.served maxAccepts draws core.voq o with
  | some i =>
    have hafter : freeOutput core'.schedules t o = 0 := freeOutput_eq_zero.mpr ⟨i, h.served o i hs⟩
    simp [hafter]
  | none =>
    -- The output is free afterwards if every holder it had is moved away.
    have hafter : freeOutput core'.schedules t o = 1 ↔ ∀ i, core.schedules t i = some o →
        ∃ o', Availability.served maxAccepts draws core.voq o' = some i := by
      rw [freeOutput_eq_one]
      constructor
      · intro hfree i hi
        by_contra hnone
        exact hfree i ((h.old i (fun o' ho' => hnone ⟨o', ho'⟩)).trans hi)
      · intro hmoved i hi
        by_cases hany : ∃ o', Availability.served maxAccepts draws core.voq o' = some i
        · obtain ⟨o', ho'⟩ := hany
          have heq : o' = o := Option.some.inj ((h.served o' i ho').symm.trans hi)
          rw [heq, hs] at ho'
          cases ho'
        · have hi' := (h.old i (fun o' ho' => hany ⟨o', ho'⟩)).symm.trans hi
          exact hany (hmoved i hi')
    have hbefore := freeOutput_nonneg core.schedules t o
    have hle : freeOutput core'.schedules t o ≤ 1 := by
      have hle := h.le_idleOutput o
      rwa [idleOutput, if_pos hs] at hle
    rw [if_pos rfl, ← freeOutput_eq_zero (f := t)]
    constructor
    · rintro ⟨hheld, hmoved⟩
      rw [hheld, hafter.mpr (hmoved rfl)]
      rfl
    · intro heq
      refine ⟨by omega, fun _ => hafter.mp (by omega)⟩

theorem kept_drift (ht : t < bitmapWidth) (a : Fin n → ℤ) (c : Fin m → ℤ) :
    Booking.Kept (earlierFrames t) (t + 1)
      (fun b : Booking n m => b.toReservations.Covers (t + 1) ∧ Drift t a c b) where
  live := fun f hf => Nat.lt_succ_of_lt (mem_earlierFrames.mp hf)
  width := ht
  covers := fun _ h => h.1
  take := by
    intro b f i o h hf hi ho
    have hft : f < t := mem_earlierFrames.mp hf
    exact ⟨(kept_covers ht).take b f i o h.1 hf hi ho, h.2.take hft
      (h.1.cell_eq_none (by omega) hi) (h.1.row_ne_some (by omega) ho)⟩

/-- One iteration: the drift of an input grows if it has no cell before, that of an output as the
    row around the iteration says. -/
theorem round_drift (ht : t < bitmapWidth) {a : Fin n → ℤ} {c : Fin m → ℤ}
    (hcovers : core.tables.toReservations.Covers (t + 1)) (hexact : core.voq.Exact)
    (h : Drift (t + 1) a c core.tables) :
    Post (Availability.round sort maxAccepts draws t core) (fun _ => True) (fun core' =>
      core'.tables.toReservations.Covers (t + 1) ∧ core'.voq.Exact ∧
      Served maxAccepts draws t core core' ∧
      Drift (t + 1) (fun i => a i + freeInput core.schedules t i)
        (fun o => c o + (freeOutput core.schedules t o + idleOutput maxAccepts draws core.voq o
          - freeOutput core'.schedules t o)) core'.tables) := by
  unfold Availability.round
  refine ((proposeAll_post maxAccepts draws core.voq).mono (fun _ _ => trivial)
    (fun _ hacc => hacc)).bind ?_
  rintro outAccepts ⟨rfl, -⟩
  have hbefore : Drift t (fun i => freeInput core.schedules t i + a i)
    (fun o => freeOutput core.schedules t o + c o) core.tables := drift_succ_iff.mp h
  refine ((acceptAll_post (kept_drift ht _ _) (Nat.lt_succ_self t) (fun b i o hb => ?_) sort
    core.voq.voqLength maxAccepts (fun o i hi => sampled_of_mem_accepted hi)
    ⟨hcovers, hbefore⟩).mono (fun _ _ => trivial) (fun _ hacc => hacc)).bind ?_
  · -- The current slot is given away without the counters.
    refine ⟨hb.1.book (Nat.lt_succ_self t) ht i o, hb.2.congr (fun f hf => ?_)⟩
    show update₂ b.schedules t i (some o) f = b.schedules f
    rw [update₂_row_of_ne _ hf.ne]
  · rintro acc ⟨⟨hcovers', hdrift⟩, hserved, hold, -⟩
    refine ((VoqState.handlePacketDepartures_post hexact acc.virtualDepartures).mono
      (fun _ _ => trivial) (fun _ hvoq => hvoq)).bind ?_
    rintro voq ⟨hexact', -⟩
    refine ⟨hcovers', hexact', ⟨hserved, hold⟩, drift_succ_iff.mpr ?_⟩
    have hnow := hdrift.countUnmatched t
      (fun out => (accepted maxAccepts draws core.voq out).head?)
    refine ⟨fun i => (hnow.input i).trans ?_, fun o => (hnow.output o).trans ?_⟩
    · show _ = (unmatchedFramesOfInput t acc.schedules i : ℤ) + (freeInput acc.schedules t i + _)
      show (unmatchedFramesOfInput t acc.schedules i : ℤ) + _ = _
      omega
    · show _ = (unmatchedFramesOfOutput t acc.schedules o : ℤ) + (freeOutput acc.schedules t o +
        (c o + (_ + _ - freeOutput acc.schedules t o)))
      show (unmatchedFramesOfOutput t acc.schedules o : ℤ) + _ = _
      unfold idleOutput served
      omega

/-- After an iteration on an empty row, an output is free if it serves nobody. -/
theorem Served.idleOutput_eq (h : Served maxAccepts draws t core core')
    (hempty : ∀ i, core.schedules t i = none) (o : Fin m) :
    idleOutput maxAccepts draws core.voq o = freeOutput core'.schedules t o := by
  refine le_antisymm ?_ (h.le_idleOutput o)
  unfold idleOutput
  split
  · rename_i hs
    refine (freeOutput_eq_one.mpr (fun i hi => ?_)).ge
    by_cases hany : ∃ o', Availability.served maxAccepts draws core.voq o' = some i
    · obtain ⟨o', ho'⟩ := hany
      have heq : o' = o := Option.some.inj ((h.served o' i ho').symm.trans hi)
      rw [heq, hs] at ho'
      cases ho'
    · have hi' := (h.old i (fun o' ho' => hany ⟨o', ho'⟩)).symm.trans hi
      rw [hempty] at hi'
      cases hi'
  · exact freeOutput_nonneg ..

variable {draws : ℕ → TreeDraws n m}

/-- Iterations after the first: no drift is ever taken back, so the counters are exact in the end
    if and only if they are at the start and every iteration resettles. -/
theorem exactCounters_iterations_iff (ht : t < bitmapWidth) {ks : List ℕ} (hks : ∀ k ∈ ks, 0 < k)
    {a : Fin n → ℤ} {c : Fin m → ℤ} (hcovers : core.tables.toReservations.Covers (t + 1))
    (hexact : core.voq.Exact) (h : Drift (t + 1) a c core.tables) (ha : ∀ i, 0 ≤ a i)
    (hc : ∀ o, 0 ≤ c o) (hrun : ks.foldlM (iteration limits B sort draws t) core = .ok core') :
    ExactCounters (t + 1) core'.tables ↔ ((∀ i, a i = 0) ∧ ∀ o, c o = 0) ∧
      StepsMeet (iteration limits B sort draws t)
        (fun core k => 0 < k → Resettles (fun _ => limits.maxAccepts B t) (draws k) t core)
        ks core := by
  induction ks generalizing core a c with
  | nil =>
    obtain rfl : core = core' := Except.ok.inj hrun
    rw [h.exact_iff]
    exact (and_iff_left trivial).symm
  | cons k rest ih =>
    rw [List.foldlM_cons] at hrun
    obtain ⟨core₁, hstep, hrest⟩ := bind_eq_ok.mp hrun
    obtain ⟨hcovers₁, hexact₁, hserved, hdrift₁⟩ := (round_drift ht hcovers hexact h).of_ok hstep
    have ha₁ : ∀ i, 0 ≤ a i + freeInput core.schedules t i :=
      fun i => add_nonneg (ha i) (freeInput_nonneg ..)
    have hadd : ∀ o, 0 ≤ freeOutput core.schedules t o +
        idleOutput (fun _ => limits.maxAccepts B t) (draws k) core.voq o
          - freeOutput core₁.schedules t o := by
      intro o
      have hle := hserved.le_idleOutput o
      have hge := freeOutput_nonneg core.schedules t o
      omega
    rw [ih (fun j hj => hks j (List.mem_cons_of_mem _ hj)) hcovers₁ hexact₁ hdrift₁ ha₁
      (fun o => add_nonneg (hc o) (hadd o)) hrest]
    rw [stepsMeet_cons_of_ok hstep, forall_prop_of_true (hks k (List.mem_cons_self ..)),
      hserved.resettles_iff]
    constructor
    · rintro ⟨⟨hin, hout⟩, hmeet⟩
      -- Both parts of either sum are non-negative, so both are zero.
      have hin' : ∀ i, a i = 0 ∧ freeInput core.schedules t i = 0 := by
        intro i
        have hsum := hin i
        have hge := ha i
        have hfree := freeInput_nonneg core.schedules t i
        omega
      have hout' : ∀ o, c o = 0 ∧ freeOutput core.schedules t o +
          idleOutput (fun _ => limits.maxAccepts B t) (draws k) core.voq o
            = freeOutput core₁.schedules t o := by
        intro o
        have hsum := hout o
        have hge := hc o
        have hmore := hadd o
        omega
      exact ⟨⟨fun i => (hin' i).1, fun o => (hout' o).1⟩,
        ⟨fun i => (hin' i).2, fun o => (hout' o).2⟩, hmeet⟩
    · rintro ⟨⟨ha0, hc0⟩, ⟨hin, hout⟩, hmeet⟩
      refine ⟨⟨fun i => ?_, fun o => ?_⟩, hmeet⟩
      · rw [ha0, hin, add_zero]
      · rw [hc0, hout, sub_self, add_zero]

/-- All iterations of a slot that starts with exact counters. -/
theorem qps_exactCounters_iff (ht : t < bitmapWidth) (hiters : 1 ≤ limits.maxIters B t)
    (hcovers : core.tables.toReservations.Covers (t + 1)) (hexact : core.voq.Exact)
    (h : ExactCounters t core.tables) (hempty : ∀ i, core.schedules t i = none)
    (hrun : qps limits B sort draws t core = .ok core') :
    ExactCounters (t + 1) core'.tables ↔ StepsMeet (iteration limits B sort draws t)
      (fun core k => 0 < k → Resettles (fun _ => limits.maxAccepts B t) (draws k) t core)
      (List.range (limits.maxIters B t)) core := by
  obtain ⟨j, hj⟩ := Nat.exists_eq_add_of_le' hiters
  rw [qps, hj, List.range_succ_eq_map, List.foldlM_cons] at hrun
  obtain ⟨core₁, hstep, hrest⟩ := bind_eq_ok.mp hrun
  rw [hj, List.range_succ_eq_map, stepsMeet_cons_of_ok hstep,
    and_iff_right (fun hpos => absurd hpos (lt_irrefl 0))]
  -- The slot is not counted yet; the first iteration makes up for it.
  have hfree : ∀ o, freeOutput core.schedules t o = 1 :=
    fun o => freeOutput_eq_one.mpr (fun i => by rw [hempty]; exact nofun)
  obtain ⟨hcovers₁, hexact₁, hserved, hdrift₁⟩ :=
    (round_drift ht hcovers hexact (h.drift_succ hempty)).of_ok hstep
  have ha : ∀ i, -1 + freeInput core.schedules t i = 0 := by
    intro i
    rw [freeInput, if_pos (hempty i)]
    rfl
  have hc : ∀ o, -1 + (freeOutput core.schedules t o +
      idleOutput (fun _ => limits.maxAccepts B t) (draws 0) core.voq o
        - freeOutput core₁.schedules t o) = 0 := by
    intro o
    rw [hfree, hserved.idleOutput_eq hempty]
    omega
  rw [exactCounters_iterations_iff ht (fun k hk => ?_) hcovers₁ hexact₁ hdrift₁
    (fun i => (ha i).ge) (fun o => (hc o).ge) hrest]
  · exact and_iff_right ⟨ha, hc⟩
  · obtain ⟨j', -, rfl⟩ := List.mem_map.mp hk
    exact Nat.succ_pos j'

/-- In runs of slots that resettle, the counters are exact after the next slot if and only if it
    resettles as well. -/
theorem exactCounters_iff_of_run (hB1 : 1 ≤ B) (hB : B ≤ bitmapWidth)
    (hiters : ∀ t, 1 ≤ limits.maxIters B t) {sw : IQSwitch n m} {st₀ : State n m}
    (hstart : Start (Booking.empty 0) st₀) {sys : System (model limits n m B sort)}
    (hrun : RunWhere (model limits n m B sort) (SlotResettles limits B sort) ⟨sw, st₀⟩ sys)
    (sw' : IQSwitch n m) {st' : State n m}
    (hst' : slotRound (qps limits B sort draws) B sw' sys.scheduler = .ok st') :
    ExactCounters (sys.scheduler.cfRelTime % B + 1) st'.tables ↔
      SlotResettles limits B sort draws sw' sys.scheduler := by
  have hsound := sound_of_run (C := fun draws t core => StepsMeet (iteration limits B sort draws t)
      (fun core k => 0 < k → Resettles (fun _ => limits.maxAccepts B t) (draws k) t core)
      (List.range (limits.maxIters B t)) core)
    (batchInvariant_exact B) hB1 (fun draws sw st core hCs hcore _ => by
      rwa [SlotResettles, hcore] at hCs) ?_ hrun ?_
  · obtain ⟨core, hcore, ⟨⟨hcovers, hexact⟩, hvoq⟩, hentered⟩ :=
      enterSlot_eq_ok (batchInvariant_exact B) sw' hsound
    rw [slotRound, hcore, ok_bind] at hst'
    obtain ⟨core', hqps, hst'⟩ := bind_eq_ok.mp hst'
    rw [← Except.ok.inj hst', SlotResettles, hcore]
    -- the row of the slot was cleared when the slot began
    have hempty : ∀ i, core.schedules (sys.scheduler.cfRelTime % B) i = none := by
      intro i
      rw [hentered.schedules, Function.update_self]
    exact qps_exactCounters_iff ((Nat.mod_lt _ (by omega)).trans_le hB) (hiters _) hcovers hvoq
      hexact hempty hqps
  · intro draws t core ht h hempty hmeet
    have htw : t < bitmapWidth := by omega
    have hcovered : Post (qps limits B sort draws t core) (fun _ => True)
        (fun core' => core'.tables.toReservations.Covers (t + 1) ∧ core'.voq.Exact) :=
      Post.foldlM (I := fun core' : Core (Booking n m) n m =>
        core'.tables.toReservations.Covers (t + 1) ∧ core'.voq.Exact) ⟨h.tables.1, h.voq⟩
        (fun _ _ _ hc => round_covers htw hc.1 hc.2)
    refine hcovered.and_eq.imp ?_
    rintro core' ⟨⟨hcovers', hvoq'⟩, hqps⟩
    have hiff := qps_exactCounters_iff htw (hiters t) h.tables.1 h.voq h.tables.2 hempty hqps
    exact ⟨⟨hcovers', hiff.mpr hmeet⟩, hvoq'⟩
  · rw [hstart.eq.1, hstart.eq.2]
    exact ⟨⟨(Reservations.tracks_empty _).toCovers, fun _ => rfl, fun _ => rfl⟩,
      VoqState.exact_empty⟩

end MultiIteration

/-! ### The schedulers that accept for the current slot as well -/

namespace MultiAccept

open Availability

variable {B t : ℕ} {sort : DescSort (Fin n)} {maxIters : ℕ → ℕ → ℕ}

/-! ### Drift over the iterations -/

/-- The accept phase of an iteration before which the outputs of `before` were matched in the row of
    the slot: those are not matched again. -/
structure Counted (t : ℕ) (a : Fin n → ℤ) (c : Fin m → ℤ) (before : Fin m → Prop)
    (acc : MultiAccepting n m) : Prop where
  covers : acc.toReservations.Covers (t + 1)
  drift : Drift (t + 1) a c acc.toBooking
  marked : ∀ o, acc.outMatch o ≠ none → acc.outFlag o t = true
  old : ∀ o, before o → acc.outFlag o t = true ∧ acc.outMatch o = none

theorem keptByReserve_counted (ht : t < bitmapWidth) (a : Fin n → ℤ) (c : Fin m → ℤ)
    (before : Fin m → Prop) : KeptByReserve t (Counted (n := n) t a c before) := by
  intro acc f i out acc' h hf hin hout hstep
  obtain ⟨hwidth, hcell, hbook, hmatch⟩ := of_reserveFrame hstep
  have hflag : ∀ o g, acc'.outFlag o g = (decide (o = out ∧ g = f) || acc.outFlag o g) := by
    intro o g
    rw [hbook]
    exact Reservations.book_outFlag _ hwidth i out o g
  constructor
  · rw [hbook]
    exact h.covers.book (by omega) ht i out
  · rw [hbook]
    exact h.drift.take (by omega) hcell (h.covers.row_ne_some (by omega) hout)
  · intro o ho
    rw [hflag, Bool.or_eq_true, decide_eq_true_iff]
    by_cases hnew : o = out ∧ t = f
    · exact .inl hnew
    · refine .inr (h.marked o (fun hnone => ho ?_))
      rw [hmatch]
      split
      · rename_i hft
        rw [Function.update_of_ne (fun heq => hnew ⟨heq, hft.symm⟩), hnone]
      · exact hnone
  · intro o ho
    obtain ⟨hset, hnone⟩ := h.old o ho
    refine ⟨by rw [hflag, hset, Bool.or_true], ?_⟩
    rw [hmatch]
    split
    · -- A frame whose bit is set for the output is not reserved.
      rename_i hft
      rw [Function.update_of_ne, hnone]
      rintro rfl
      rw [hft, hset] at hout
      cases hout
    · exact hnone

variable {draws : ℕ → TreeDraws n m} {core core' : Core (Booking n m) n m}

theorem accept_counted (ht : t < bitmapWidth) {a : Fin n → ℤ} {c : Fin m → ℤ}
    (hcovers : core.tables.toReservations.Covers (t + 1)) (h : Drift (t + 1) a c core.tables)
    (draws : TreeDraws n m) :
    Post (accept B sort draws t core) (fun _ => True)
      (Counted t a c (fun o => core.tables.outFlag o t = true)) := by
  have hstart : Counted t a c (fun o => core.tables.outFlag o t = true) (start core) :=
    ⟨hcovers, h, fun o ho => absurd rfl ho, fun o ho => ⟨ho, rfl⟩⟩
  exact (Post.top _).bind (fun outAccepts _ => Post.foldlM hstart (fun out _ acc hacc =>
    (keptByReserve_counted ht a c _).acceptOutput _ outAccepts out hacc))

/-- One iteration counts the slot for the ports that it does not match. -/
theorem iteration_drift (ht : t < bitmapWidth) {a : Fin n → ℤ} {c : Fin m → ℤ}
    (hcovers : core.tables.toReservations.Covers (t + 1)) (h : Drift (t + 1) a c core.tables)
    (k : ℕ) :
    Post (iteration B sort draws t core k) (fun _ => True) (fun core' =>
      core'.tables.toReservations.Covers (t + 1) ∧ ∃ outMatch : Fin m → Option (Fin n),
        Drift (t + 1) (fun i => a i + freeInput core'.schedules t i)
          (fun o => c o + if outMatch o = none then 1 else 0) core'.tables ∧
        (∀ o, outMatch o ≠ none → core'.tables.outFlag o t = true) ∧
        ∀ o, core.tables.outFlag o t = true → core'.tables.outFlag o t = true ∧
          outMatch o = none) := by
  unfold iteration
  refine (accept_counted ht hcovers h _).bind (fun acc hacc => (Post.top _).bind (fun bst _ => ?_))
  exact ⟨hacc.covers, acc.outMatch, hacc.drift.countUnmatched t acc.outMatch, hacc.marked,
    hacc.old⟩

/-- Whether the bit of an output is set at a frame, as a number. -/
def markedOutput (b : Booking n m) (t : ℕ) (o : Fin m) : ℤ := if b.outFlag o t = true then 1 else 0

/-- Every iteration adds to the drift of an output, except the one that matches it. -/
theorem iterations_drift (ht : t < bitmapWidth) {a : Fin n → ℤ} {c : Fin m → ℤ} {ks : List ℕ}
    (hcovers : core.tables.toReservations.Covers (t + 1)) (h : Drift (t + 1) a c core.tables)
    (hrun : ks.foldlM (iteration B sort draws t) core = .ok core') :
    ∃ a' c', Drift (t + 1) a' c' core'.tables ∧
      (∀ o, c o + markedOutput core.tables t o + ks.length ≤ c' o + markedOutput core'.tables t o) ∧
      (m = 0 → ∀ i, a' i = a i + ks.length) := by
  induction ks generalizing core a c with
  | nil =>
    obtain rfl : core = core' := Except.ok.inj hrun
    exact ⟨a, c, h, fun o => by simp, fun _ i => by simp⟩
  | cons k rest ih =>
    rw [List.foldlM_cons] at hrun
    obtain ⟨core₁, hstep, hrest⟩ := bind_eq_ok.mp hrun
    obtain ⟨hcovers₁, outMatch, hdrift₁, hmarked, hold⟩ :=
      (iteration_drift ht hcovers h k).of_ok hstep
    obtain ⟨a', c', hdrift, hout, hin⟩ := ih hcovers₁ hdrift₁ hrest
    refine ⟨a', c', hdrift, fun o => ?_, fun hm i => ?_⟩
    · have hrest := hout o
      -- an iteration counts the frame for the output, or marks the output
      have hone : c o + markedOutput core.tables t o + 1
          ≤ (c o + if outMatch o = none then 1 else 0) + markedOutput core₁.tables t o := by
        unfold markedOutput
        by_cases hset : core.tables.outFlag o t = true
        · rw [if_pos hset, if_pos (hold o hset).1, if_pos (hold o hset).2]
        · rw [if_neg hset]
          by_cases hmatch : outMatch o = none
          · rw [if_pos hmatch]
            split <;> omega
          · rw [if_neg hmatch, if_pos (hmarked o hmatch)]
      rw [List.length_cons]
      push_cast
      omega
    · subst hm
      have hnone : core₁.schedules t i = none := by
        cases hc : core₁.schedules t i with
        | none => rfl
        | some o => exact o.elim0
      rw [hin rfl, freeInput, if_pos hnone, List.length_cons]
      push_cast
      omega

/-- Three iterations leave some counter wrong. -/
theorem not_exactCounters_of_three (ht : t < bitmapWidth) (hiters : 3 ≤ maxIters B t)
    (hports : ¬ (n = 0 ∧ m = 0)) (hcovers : core.tables.toReservations.Covers (t + 1))
    (h : ExactCounters t core.tables) (hempty : ∀ i, core.schedules t i = none)
    (hrun : qps maxIters B sort draws t core = .ok core') :
    ¬ ExactCounters (t + 1) core'.tables := by
  obtain ⟨a, c, hdrift, hout, hin⟩ := iterations_drift ht hcovers (h.drift_succ hempty) hrun
  rw [hdrift.exact_iff]
  rintro ⟨ha, hc⟩
  rw [List.length_range] at hout hin
  cases m with
  | zero =>
    cases n with
    | zero => exact hports ⟨rfl, rfl⟩
    | succ n =>
      have hzero := hin rfl 0
      rw [ha] at hzero
      omega
  | succ m =>
    have hle := hout 0
    rw [hc] at hle
    have hmarked : markedOutput core'.tables t 0 ≤ 1 := by
      unfold markedOutput
      split <;> decide
    have hzero : 0 ≤ markedOutput core.tables t 0 := by
      unfold markedOutput
      split <;> decide
    omega

/-! ### Batches in which nothing is reserved -/

/-- No frame is reserved and the first `k` are counted for every port. -/
structure Idle (k : ℕ) (b : Booking n m) : Prop where
  inFlag : ∀ i f, b.inFlag i f = false
  outFlag : ∀ o f, b.outFlag o f = false
  inputAvailable : ∀ i, b.inputAvailability i = k
  outputAvailable : ∀ o, b.outputAvailability o = k

theorem Idle.unused {k : ℕ} {b : Booking n m} (h : Idle k b) : Unused k b where
  inFlag := h.inFlag
  outFlag := h.outFlag
  inputAvailable := fun i => (h.inputAvailable i).ge
  outputAvailable := fun o => (h.outputAvailable o).ge
  notYet := fun hzero o => by rw [h.outputAvailable, hzero]; rfl

theorem Idle.exactCounters {k rows : ℕ} {b : Booking n m} (h : Idle k b)
    (hcovers : b.toReservations.Covers rows) (hk : k ≤ rows) : ExactCounters k b where
  input := by
    intro i
    rw [h.inputAvailable, unmatchedFramesOfInput, Finset.filter_true_of_mem, Finset.card_range]
    intro f hf
    exact hcovers.cell_eq_none ((Finset.mem_range.mp hf).trans_le hk) (h.inFlag i f)
  output := by
    intro o
    rw [h.outputAvailable, unmatchedFramesOfOutput, Finset.filter_true_of_mem, Finset.card_range]
    intro f hf
    exact hcovers.row_ne_some ((Finset.mem_range.mp hf).trans_le hk) (h.outFlag o f)

/-- An iteration that accepts nothing counts the slot. -/
theorem Idle.countUnmatched {b : Booking n m} (h : Idle t b)
    (hcovers : b.toReservations.Covers (t + 1)) :
    Idle (t + 1) (Availability.countUnmatched t (fun _ => none) b) where
  inFlag := h.inFlag
  outFlag := h.outFlag
  inputAvailable := by
    intro i
    have hcell : b.schedules t i = none := hcovers.cell_eq_none (Nat.lt_succ_self t) (h.inFlag i t)
    show (if b.schedules t i = none then b.inputAvailability i + 1 else b.inputAvailability i) = _
    rw [if_pos hcell, h.inputAvailable]
    rfl
  outputAvailable := by
    intro o
    show b.outputAvailability o + 1 = _
    rw [h.outputAvailable]
    rfl

theorem batchInvariant_idle (B : ℕ) :
    BatchInvariant B (fun k (b : Booking n m) => b.toReservations.Covers k ∧ Idle k b)
      (fun t b => b.toReservations.Covers (t + 1) ∧ Idle t b) where
  clearRow := fun _ _ h =>
    ⟨h.1.clearRow, h.2.inFlag, h.2.outFlag, h.2.inputAvailable, h.2.outputAvailable⟩
  resetBitmap := fun b _ => ⟨(Reservations.tracks_resetBitmap b.toReservations).toCovers,
    b.toReservations.resetBitmap_inFlag, b.toReservations.resetBitmap_outFlag, fun _ => rfl,
    fun _ => rfl⟩

variable {k : ℕ}

/-- After the first slot, the first iteration with a packet makes the counters of an idle batch
    wrong. -/
theorem iteration_matches (hpos : 0 < t) (ht : t < bitmapWidth)
    (hgood : (draws k).Good core.voq.bst core.voq.voqLength)
    (hcovers : core.tables.toReservations.Covers (t + 1)) (hidle : Idle t core.tables)
    (hexact : core.voq.Exact) (hpacket : ¬ ∀ i o, core.voq.voqLength i o = 0) :
    Post (iteration B sort draws t core k) (fun _ => True)
      (fun core' => ¬ ExactCounters (t + 1) core'.tables) := by
  have hempty : ∀ i, core.tables.schedules t i = none :=
    fun i => hcovers.cell_eq_none (Nat.lt_succ_self t) (hidle.inFlag i t)
  have hdrift := (hidle.exactCounters hcovers (Nat.le_succ t)).drift_succ hempty
  unfold iteration
  refine (accept_books hpos hgood hidle.unused hexact hpacket).and_eq.bind ?_
  rintro acc ⟨⟨o, i, hbooked⟩, haccept⟩
  have hcounted := (accept_counted ht hcovers hdrift (draws k)).of_ok haccept
  refine (Post.top _).bind (fun bst _ => ?_)
  -- The output that is matched was decremented for a slot that was not counted.
  have hafter := hcounted.drift.countUnmatched t acc.outMatch
  intro hexact'
  have hzero := (hafter.exact_iff.mp hexact').2 o
  rw [if_neg ((hbooked t (le_refl t)).2 rfl)] at hzero
  cases hzero

/-! ### Slots and runs -/

/-- The slot is quiet and has one iteration, or there is no port. -/
def QuietOnce (maxIters : ℕ → ℕ → ℕ) (B : ℕ) (sw : IQSwitch n m) (st : State n m) : Prop :=
  Quiet B sw st ∧ (maxIters B (st.cfRelTime % B) = 1 ∨ n = 0 ∧ m = 0)

instance (maxIters : ℕ → ℕ → ℕ) (B : ℕ) (sw : IQSwitch n m) (st : State n m) :
    Decidable (QuietOnce maxIters B sw st) :=
  inferInstanceAs (Decidable (_ ∧ (_ = 1 ∨ _ = 0 ∧ _ = 0)))

/-- A quiet slot with one iteration only counts itself. -/
theorem qps_of_quiet (hvalid : ∀ k, (draws k).Valid) (hidle : Idle t core.tables)
    (hexact : core.voq.Exact) (hquiet : t = 0 ∨ ∀ i o, core.voq.voqLength i o = 0)
    (honce : maxIters B t = 1) :
    qps maxIters B sort draws t core
      = .ok { core with tables := countUnmatched t (fun _ => none) core.tables } := by
  have hnothing : ∀ out, accepted (fun _ => maxAccepts B t) (draws 0) core.voq out = [] ∨
      core.tables.outputAvailability out ≤ 0 := by
    intro out
    rcases hquiet with rfl | hnone
    · exact .inr (hidle.outputAvailable out).le
    · exact .inl (accepted_eq_nil
        (fun i => (hexact.getQueueLengthForInput_eq_zero i).mpr (hnone i)) out)
  obtain ⟨hiter, -⟩ := iteration_of_nothing B sort hexact ((hvalid 0).good hexact) hnothing
  rw [qps, honce, List.range_one, List.foldlM_cons, hiter]
  rfl

/-- Such a slot leaves the batch idle. -/
theorem qps_idle (hvalid : ∀ k, (draws k).Valid)
    (hcovers : core.tables.toReservations.Covers (t + 1)) (hidle : Idle t core.tables)
    (hexact : core.voq.Exact) (hquiet : t = 0 ∨ ∀ i o, core.voq.voqLength i o = 0)
    (honce : maxIters B t = 1 ∨ n = 0 ∧ m = 0) :
    Post (qps maxIters B sort draws t core) (fun _ => True) (fun core' =>
      Sound (fun k (b : Booking n m) => b.toReservations.Covers k ∧ Idle k b) (t + 1) core') := by
  rcases honce with honce | ⟨rfl, rfl⟩
  · rw [qps_of_quiet hvalid hidle hexact hquiet honce]
    exact ⟨⟨hcovers, hidle.countUnmatched hcovers⟩, hexact⟩
  · -- Without ports there is nothing to check.
    refine (Post.top _).imp (fun core' _ => ⟨⟨?_, ?_⟩, fun i => i.elim0⟩)
    · exact ⟨fun _ i => i.elim0, fun _ i => i.elim0, fun _ i => i.elim0, fun _ o => o.elim0⟩
    · exact ⟨fun i => i.elim0, fun o => o.elim0, fun i => i.elim0, fun o => o.elim0⟩

/-- In an idle batch no other slot leaves the counters exact. -/
theorem qps_exactCounters_iff (hiters : maxIters B t = 1 ∨ 3 ≤ maxIters B t) (ht : t < bitmapWidth)
    (hvalid : ∀ k, (draws k).Valid) (hcovers : core.tables.toReservations.Covers (t + 1))
    (hidle : Idle t core.tables) (hexact : core.voq.Exact)
    (hrun : qps maxIters B sort draws t core = .ok core') :
    ExactCounters (t + 1) core'.tables ↔ (t = 0 ∨ ∀ i o, core.voq.voqLength i o = 0) ∧
      (maxIters B t = 1 ∨ n = 0 ∧ m = 0) := by
  constructor
  · intro hexact'
    by_contra hnot
    rcases hiters with hone | hthree
    · -- One iteration, and it has a packet.
      have hbusy : ¬ (t = 0 ∨ ∀ i o, core.voq.voqLength i o = 0) :=
        fun hquiet => hnot ⟨hquiet, .inl hone⟩
      rw [not_or] at hbusy
      rw [qps, hone, List.range_one, List.foldlM_cons] at hrun
      obtain ⟨core₁, hiter, hend⟩ := bind_eq_ok.mp hrun
      obtain rfl : core₁ = core' := Except.ok.inj hend
      exact (iteration_matches (Nat.pos_of_ne_zero hbusy.1) ht ((hvalid 0).good hexact) hcovers
        hidle hexact hbusy.2).of_ok hiter hexact'
    · by_cases hports : n = 0 ∧ m = 0
      · refine hnot ⟨.inr (fun i => ?_), .inr hports⟩
        obtain ⟨rfl, rfl⟩ := hports
        exact i.elim0
      · exact not_exactCounters_of_three ht hthree hports hcovers
          (hidle.exactCounters hcovers (Nat.le_succ t))
          (fun i => hcovers.cell_eq_none (Nat.lt_succ_self t) (hidle.inFlag i t)) hrun hexact'
  · rintro ⟨hquiet, honce⟩
    have hsound := (qps_idle hvalid hcovers hidle hexact hquiet honce).of_ok hrun
    exact hsound.tables.2.exactCounters hsound.tables.1 (le_refl _)

/-- In runs of slots that are quiet and have one iteration, the counters are exact after the next
    slot if and only if it is such as well. -/
theorem exactCounters_iff_of_run (hB1 : 1 ≤ B) (hB : B ≤ bitmapWidth)
    (hiters : ∀ t, maxIters B t = 1 ∨ 3 ≤ maxIters B t) {sw : IQSwitch n m} {st₀ : State n m}
    (hstart : Start (Booking.empty 0) st₀) {sys : System (model maxIters n m B sort)}
    (hrun : RunWhere (model maxIters n m B sort)
      (fun draws sw st => (∀ k, (draws k).Valid) ∧ QuietOnce maxIters B sw st) ⟨sw, st₀⟩ sys)
    (sw' : IQSwitch n m) (hvalid : ∀ k, (draws k).Valid) {st' : State n m}
    (hst' : slotRound (qps maxIters B sort draws) B sw' sys.scheduler = .ok st') :
    ExactCounters (sys.scheduler.cfRelTime % B + 1) st'.tables ↔
      QuietOnce maxIters B sw' sys.scheduler := by
  have hsound := sound_of_run (C := fun draws t core => (∀ k, (draws k).Valid) ∧
      (t = 0 ∨ ∀ i o, core.voq.voqLength i o = 0) ∧ (maxIters B t = 1 ∨ n = 0 ∧ m = 0))
    (batchInvariant_idle B) hB1 (fun draws sw st core hCs _ hentered => ⟨hCs.1,
      hCs.2.1.imp id (fun hnone i o => by rw [hentered.voqLength, hnone]), hCs.2.2⟩)
    (fun draws t core ht h _ hC =>
      qps_idle hC.1 h.tables.1 h.tables.2 h.voq hC.2.1 hC.2.2) hrun (by
        rw [hstart.eq.1, hstart.eq.2]
        exact ⟨⟨(Reservations.tracks_empty _).toCovers, Reservations.empty_inFlag,
          Reservations.empty_outFlag, fun _ => rfl, fun _ => rfl⟩, VoqState.exact_empty⟩)
  obtain ⟨core, hcore, ⟨⟨hcovers, hidle⟩, hvoq⟩, hentered⟩ :=
    enterSlot_eq_ok (batchInvariant_idle B) sw' hsound
  rw [slotRound, hcore, ok_bind] at hst'
  obtain ⟨core', hqps, hst'⟩ := bind_eq_ok.mp hst'
  rw [← Except.ok.inj hst']
  refine (qps_exactCounters_iff (hiters _) ((Nat.mod_lt _ (by omega)).trans_le hB) hvalid hcovers
    hidle hvoq hqps).trans (and_congr_left' (or_congr_right (forall₂_congr (fun i o => ?_))))
  rw [hentered.voqLength]

end MultiAccept

open Availability in
/-- `SB_QPS_HalfHalf_MI` and `SB_QPS_ThreeThird_MI` in runs whose slots all resettle, and
    `SB_QPS_HalfHalf_MA` and `SB_QPS_HalfHalf_MA_MI` in runs whose slots are all quiet with one
    iteration: after the next slot, before the counters are cleared at the end of a batch, they say
    in how many of the slots up to the current one a port is unmatched if and only if that slot is
    such as well. -/
theorem exactCounters_iff {B : ℕ} (hB1 : 1 ≤ B) (hB : B ≤ bitmapWidth) (sort : DescSort (Fin n))
    (sw : IQSwitch n m) {st₀ : State n m} (hstart : Start (Booking.empty 0) st₀) :
    (∀ limits ∈ [HalfHalfMI.limits, ThreeThirdMI.limits],
      ∀ sys, RunWhere (MultiIteration.model limits n m B sort)
        (MultiIteration.SlotResettles limits B sort) ⟨sw, st₀⟩ sys →
      ∀ channels draws st', slotRound (MultiIteration.qps limits B sort draws) B
          (sys.switch.readInputs channels) sys.scheduler = .ok st' →
        (ExactCounters (sys.scheduler.cfRelTime % B + 1) st'.tables ↔
          MultiIteration.SlotResettles limits B sort draws (sys.switch.readInputs channels)
            sys.scheduler)) ∧
    ∀ maxIters ∈ [HalfHalfMA.maxIters, HalfHalfMAMI.maxIters],
      ∀ sys, RunWhere (MultiAccept.model maxIters n m B sort) (fun draws sw st =>
        (∀ k, (draws k).Valid) ∧ MultiAccept.QuietOnce maxIters B sw st) ⟨sw, st₀⟩ sys →
      ∀ channels draws st', (∀ k, (draws k).Valid) →
        slotRound (MultiAccept.qps maxIters B sort draws) B (sys.switch.readInputs channels)
          sys.scheduler = .ok st' →
        (ExactCounters (sys.scheduler.cfRelTime % B + 1) st'.tables ↔
          MultiAccept.QuietOnce maxIters B (sys.switch.readInputs channels) sys.scheduler) := by
  constructor
  · intro limits hlimits sys hrun channels draws st' hst'
    refine MultiIteration.exactCounters_iff_of_run hB1 hB (fun t => ?_) hstart hrun _ hst'
    -- there is an iteration in every slot
    rcases List.mem_pair.mp hlimits with rfl | rfl
    · show 1 ≤ if _ then 3 else 1
      split <;> decide
    · show 1 ≤ if _ then 3 else if _ then 2 else 1
      split
      · decide
      · split <;> decide
  · intro maxIters hiters sys hrun channels draws st' hvalid hst'
    refine MultiAccept.exactCounters_iff_of_run hB1 hB (fun t => ?_) hstart hrun _ hvalid hst'
    rcases List.mem_pair.mp hiters with rfl | rfl
    · exact .inl rfl
    · unfold HalfHalfMAMI.maxIters
      split
      · exact .inr (le_refl 3)
      · exact .inl rfl

open Availability in
/-- On a single queue with three packets every iteration serves the same pair; a batch of the other
    schedulers begins with a slot that accepts nothing. -/
theorem exactCounters_after_iterations :
    (∃ st' : State 1 1, slotRound (MultiIteration.qps HalfHalfMI.limits 1 DescSort.insertion
        (fun _ => inOrderDraws 1 1 (1 / 2))) 1
          ((IQSwitch.empty 1 1).readInputs (packetsFor 0 (fun _ => 3))) initial = .ok st' ∧
      st'.voq.voqLength 0 0 = 0 ∧ ExactCounters 1 st'.tables) ∧
    ∃ st' : State 2 2, slotRound (MultiAccept.qps HalfHalfMA.maxIters 2 DescSort.insertion
        (fun _ => inOrderDraws 2 2 (1 / 2))) 2
          ((IQSwitch.empty 2 2).readInputs (packetsFor 0 (fun _ => 1))) initial = .ok st' ∧
      ExactCounters 1 st'.tables := by
  constructor
  · obtain ⟨st', hrun, hcond⟩ := exists_of_returns
      (x := slotRound (MultiIteration.qps HalfHalfMI.limits 1 DescSort.insertion
        (fun _ => inOrderDraws 1 1 (1 / 2))) 1
          ((IQSwitch.empty 1 1).readInputs (packetsFor 0 (fun _ => 3))) (initial : State 1 1))
      (p := fun st' => decide (st'.voq.voqLength 0 0 = 0)) (by decide +kernel)
    refine ⟨st', hrun, of_decide_eq_true hcond, ?_⟩
    exact (((exactCounters_iff (le_refl 1) (by decide) DescSort.insertion (IQSwitch.empty 1 1)
      .initial).1 _ (List.mem_cons_self ..) _ .refl _ _ st' hrun).mpr (by decide +kernel))
  · obtain ⟨st', hrun, -⟩ := exists_of_returns
      (x := slotRound (MultiAccept.qps HalfHalfMA.maxIters 2 DescSort.insertion
        (fun _ => inOrderDraws 2 2 (1 / 2))) 2
          ((IQSwitch.empty 2 2).readInputs (packetsFor 0 (fun _ => 1))) (initial : State 2 2))
      (p := fun _ => true) (by decide +kernel)
    refine ⟨st', hrun, ?_⟩
    exact ((exactCounters_iff (by decide) (by decide) DescSort.insertion (IQSwitch.empty 2 2)
      .initial).2 _ (List.mem_cons_self ..) _ .refl _ _ st'
        (fun _ => valid_inOrderDraws 2 2 (by norm_num) (by norm_num)) hrun).mpr (by decide +kernel)

open Availability in
/-- With `B = 1` and no packets, the three iterations count the slot three times.  With `B = 2` and
    a packet in each slot, `SB_QPS_HalfHalf_MA` reserves both frames in the second slot, and the
    counters of the two ports are `-1`. -/
theorem not_exactCounters_of_run :
    (∀ limits ∈ [HalfHalfMI.limits, ThreeThirdMI.limits],
      ∃ st' : State 2 2, slotRound (MultiIteration.qps limits 1 DescSort.insertion
        (fun _ => inOrderDraws 2 2 (1 / 2))) 1 ((IQSwitch.empty 2 2).readInputs (fun _ => []))
          initial = .ok st' ∧ st'.tables.inputAvailability 0 = 3 ∧ ¬ ExactCounters 1 st'.tables) ∧
    (∃ sys st', Run (HalfHalfMA.model 2 2 2 DescSort.insertion) ⟨IQSwitch.empty 2 2, initial⟩ sys ∧
      slotRound (MultiAccept.qps HalfHalfMA.maxIters 2 DescSort.insertion
        (fun _ => inOrderDraws 2 2 (1 / 2))) 2 (sys.switch.readInputs (packetsFor 0 ![1, 0]))
          sys.scheduler = .ok st' ∧ sys.scheduler.cfRelTime % 2 = 1 ∧
      st'.tables.inputAvailability 0 = -1 ∧ ¬ ExactCounters 2 st'.tables) ∧
    ∃ st' : State 2 2, slotRound (MultiAccept.qps HalfHalfMAMI.maxIters 1 DescSort.insertion
        (fun _ => inOrderDraws 2 2 (1 / 2))) 1 ((IQSwitch.empty 2 2).readInputs (fun _ => []))
          initial = .ok st' ∧ st'.tables.inputAvailability 0 = 3 ∧ ¬ ExactCounters 1 st'.tables := by
  -- Where the batch has one frame, every iteration of an idle slot counts it once more.
  refine ⟨fun limits hlimits => ?_, ?_, ?_⟩
  · obtain ⟨st', hrun, hcond⟩ := exists_of_returns
      (x := slotRound (MultiIteration.qps limits 1 DescSort.insertion
        (fun _ => inOrderDraws 2 2 (1 / 2))) 1 ((IQSwitch.empty 2 2).readInputs (fun _ => []))
          (initial : State 2 2))
      (p := fun st' => decide (st'.tables.inputAvailability 0 = 3 ∧ ¬ ExactCounters 1 st'.tables))
      (by rcases List.mem_pair.mp hlimits with rfl | rfl <;> decide +kernel)
    exact ⟨st', hrun, of_decide_eq_true hcond⟩
  · obtain ⟨sys, hok, hnext⟩ := exists_of_returns
      (x := switching (HalfHalfMA.model 2 2 2 DescSort.insertion)
        (fun _ => inOrderDraws 2 2 (1 / 2)) (packetsFor 0 ![1, 0]) ⟨IQSwitch.empty 2 2, initial⟩)
      (p := fun sys => decide (sys.scheduler.cfRelTime % 2 = 1) &&
        returns (slotRound (MultiAccept.qps HalfHalfMA.maxIters 2 DescSort.insertion
          (fun _ => inOrderDraws 2 2 (1 / 2))) 2 (sys.switch.readInputs (packetsFor 0 ![1, 0]))
            sys.scheduler) (fun st' => decide (st'.tables.inputAvailability 0 = -1 ∧
              ¬ ExactCounters 2 st'.tables)))
      (by decide +kernel)
    obtain ⟨htime, hslot⟩ := Bool.and_eq_true_iff.mp hnext
    obtain ⟨st', hrun, hcond⟩ := exists_of_returns hslot
    exact ⟨sys, st', Run.step _ _ .refl hok, hrun, of_decide_eq_true htime,
      of_decide_eq_true hcond⟩
  · obtain ⟨st', hrun, hcond⟩ := exists_of_returns
      (x := slotRound (MultiAccept.qps HalfHalfMAMI.maxIters 1 DescSort.insertion
        (fun _ => inOrderDraws 2 2 (1 / 2))) 1 ((IQSwitch.empty 2 2).readInputs (fun _ => []))
          (initial : State 2 2))
      (p := fun st' => decide (st'.tables.inputAvailability 0 = 3 ∧ ¬ ExactCounters 1 st'.tables))
      (by decide +kernel)
    exact ⟨st', hrun, of_decide_eq_true hcond⟩

end SbQps

end SschedSimulator
