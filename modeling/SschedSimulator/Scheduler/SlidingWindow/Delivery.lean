import SschedSimulator.Scheduler.SlidingWindow.Invariant

namespace SschedSimulator

open Foundation

/-!
# `Sliding_Window_QPS` — every reservation is dispatched once

A reservation made in round `T` at frame `f` is due in the first later dispatch of row `f`:
round `T + ((f - t) mod batchSize)` without batching, where the dispatch of a round follows its
reservations, and round `T + batchSize - (t - f)` with batching, where it precedes them
(`t = T mod batchSize`).  `dispatched_once` shows that the cell keeps its output until then, that
it is copied to `_in_match` in that round and emptied.
-/

namespace SlidingWindowQps

variable {n m : ℕ} {cfg : Config} {sort : DescSort (Fin n)}

/-- An unbounded sequence of calls; round `R` leads from state `R` to state `R + 1`. -/
structure Execution (n m : ℕ) (cfg : Config) (sort : DescSort (Fin n)) where
  state : ℕ → State n m
  draws : ℕ → Draws n m
  switch : ℕ → IQSwitch n m
  reachable : Reachable cfg sort (state 0)
  start : (state 0).cfRelTime = 0
  step : ∀ R, schedule cfg sort (draws R) (switch R) (state R) = .ok (state (R + 1))

namespace Execution

/-- Round `T` writes `schedules[f][i] = o`. -/
def Books (x : Execution n m cfg sort) (T f : ℕ) (i : Fin n) (o : Fin m) : Prop :=
  ∃ st₀ st₁, dispatchIf cfg.batching (T % cfg.batchSize) (x.state T) = .ok st₀ ∧
    qps cfg sort (x.draws T) (x.switch T) (T % cfg.batchSize) st₀ = .ok st₁ ∧
    st₀.schedules f i = none ∧ st₁.schedules f i = some o

/-- The dispatch of round `R` finds `o` in the cell `(f, i)`, copies it to `_in_match[i]` and
    empties the cell. -/
def Copies (x : Execution n m cfg sort) (R f : ℕ) (i : Fin n) (o : Fin m) : Prop :=
  R % cfg.batchSize = f ∧
  ∃ st st', (if cfg.batching then st = x.state R
      else qps cfg sort (x.draws R) (x.switch R) (R % cfg.batchSize) (x.state R) = .ok st) ∧
    dispatchSchedule (R % cfg.batchSize) st = .ok st' ∧
    st.schedules f i = some o ∧ st'.schedules f i = none ∧
    (x.state (R + 1)).inMatch i = some o

/-- The round in which a reservation for frame `f` made in round `T` is due. -/
def due (cfg : Config) (T f : ℕ) : ℕ :=
  if cfg.batching then T + (cfg.batchSize - (T % cfg.batchSize - f))
  else T + (f + (cfg.batchSize - T % cfg.batchSize)) % cfg.batchSize

theorem sound (x : Execution n m cfg sort) (hB1 : 1 ≤ cfg.batchSize)
    (hB : cfg.batchSize ≤ bitmapWidth) (R : ℕ) : Sound cfg (x.state R) := by
  have hreach : Reachable cfg sort (x.state R) := by
    induction R with
    | zero => exact x.reachable
    | succ R ih => exact .schedule _ _ ih (x.step R)
  exact sound_of_reachable hB1 hB hreach

theorem cfRelTime_eq (x : Execution n m cfg sort) (hB1 : 1 ≤ cfg.batchSize)
    (hB : cfg.batchSize ≤ bitmapWidth) (R : ℕ) : (x.state R).cfRelTime = R := by
  induction R with
  | zero => exact x.start
  | succ R ih =>
    obtain ⟨_, _, _, hcall⟩ :=
      (schedule_post hB1 hB sort (x.draws R) (x.switch R) (x.sound hB1 hB R)).of_ok (x.step R)
    rw [hcall.cfRelTime, ih]

/-- Every round is a call on the slot of its number. -/
theorem call (x : Execution n m cfg sort) (hB1 : 1 ≤ cfg.batchSize)
    (hB : cfg.batchSize ≤ bitmapWidth) (R : ℕ) : (x.state R).cfRelTime = R ∧ ∃ st₀ st₁ gs,
    Call cfg sort (x.draws R) (x.switch R) (x.state R) st₀ st₁ (x.state (R + 1)) gs :=
  ⟨x.cfRelTime_eq hB1 hB R,
    (schedule_post hB1 hB sort (x.draws R) (x.switch R) (x.sound hB1 hB R)).of_ok (x.step R)⟩

/-! ### When a row is dispatched -/

/-- Advancing by at most a whole batch wraps around once. -/
theorem add_mod_batchSize {B T e : ℕ} (hB1 : 1 ≤ B) (he : e ≤ B) :
    (T + e) % B = if T % B + e < B then T % B + e else T % B + e - B := by
  have ht : T % B < B := Nat.mod_lt _ (by omega)
  rw [← Nat.mod_add_mod]
  split
  · rename_i h
    exact Nat.mod_eq_of_lt h
  · rename_i h
    rw [Nat.mod_eq_sub_mod (by omega), Nat.mod_eq_of_lt (by omega)]

/-- The distance to the due round, with the wrap-around made explicit. -/
theorem due_eq_add {T f : ℕ} (hB1 : 1 ≤ cfg.batchSize) (hf : f < cfg.batchSize)
    (hbatch : cfg.batching = true → f ≤ T % cfg.batchSize) :
    ∃ d, due cfg T f = T + d ∧ d ≤ cfg.batchSize ∧
      (T % cfg.batchSize + d = f ∨ T % cfg.batchSize + d = f + cfg.batchSize) ∧
      if cfg.batching then 0 < d else d < cfg.batchSize := by
  have ht : T % cfg.batchSize < cfg.batchSize := Nat.mod_lt _ (by omega)
  unfold due
  generalize T % cfg.batchSize = t at ht hbatch
  cases hb : cfg.batching with
  | true =>
    have hle := hbatch hb
    exact ⟨cfg.batchSize - (t - f), if_pos rfl, by omega, by omega, by simp; omega⟩
  | false =>
    refine ⟨(f + (cfg.batchSize - t)) % cfg.batchSize, if_neg Bool.false_ne_true, ?_⟩
    -- A frame behind the current one is reached after the wrap-around.
    rcases Nat.lt_or_ge f t with hlt | hge
    · rw [Nat.mod_eq_of_lt (by omega : f + (cfg.batchSize - t) < cfg.batchSize)]
      exact ⟨by omega, by omega, by simp; omega⟩
    · rw [Nat.mod_eq_sub_mod (by omega : cfg.batchSize ≤ f + (cfg.batchSize - t)),
        Nat.mod_eq_of_lt (by omega : f + (cfg.batchSize - t) - cfg.batchSize < cfg.batchSize)]
      exact ⟨by omega, by omega, by simp; omega⟩

/-- The due round dispatches row `f`, and no round in between does. -/
theorem due_spec {T f : ℕ} (hB1 : 1 ≤ cfg.batchSize) (hf : f < cfg.batchSize)
    (hbatch : cfg.batching = true → f ≤ T % cfg.batchSize) :
    due cfg T f % cfg.batchSize = f ∧ T ≤ due cfg T f ∧
      (cfg.batching = true → T < due cfg T f) ∧
      ∀ R, T ≤ R → (cfg.batching = true → T < R) → R < due cfg T f → R % cfg.batchSize ≠ f := by
  obtain ⟨d, hd, hdB, hdf, hpos⟩ := due_eq_add hB1 hf hbatch
  have hmod : ∀ e ≤ cfg.batchSize, (T + e) % cfg.batchSize
      = if T % cfg.batchSize + e < cfg.batchSize then T % cfg.batchSize + e
        else T % cfg.batchSize + e - cfg.batchSize := fun e he => add_mod_batchSize hB1 he
  rw [hd]
  refine ⟨?_, by omega, fun hb => ?_, fun R hT hTR hR heq => ?_⟩
  · rw [hmod d hdB]
    split <;> omega
  · rw [if_pos hb] at hpos
    omega
  · obtain ⟨e, rfl⟩ := Nat.exists_eq_add_of_le hT
    rw [hmod e (by omega)] at heq
    split at hpos
    · have hlt := hTR ‹_›
      split at heq <;> omega
    · split at heq <;> omega

/-! ### The life of a reservation -/

/-- The round that books a cell, as a call. -/
theorem Books.call {x : Execution n m cfg sort} (hB1 : 1 ≤ cfg.batchSize)
    (hB : cfg.batchSize ≤ bitmapWidth) {T f : ℕ} {i : Fin n} {o : Fin m}
    (h : x.Books T f i o) : ∃ st₀ st₁ gs,
    Call cfg sort (x.draws T) (x.switch T) (x.state T) st₀ st₁ (x.state (T + 1)) gs ∧
      st₀.schedules f i = none ∧ st₁.schedules f i = some o := by
  obtain ⟨st₀, st₁, hdisp, hqps, hnone, hsome⟩ := h
  obtain ⟨htime, st₀', st₁', gs, hcall⟩ := x.call hB1 hB T
  have hdisp' := hcall.entered
  have hqps' := hcall.ran
  rw [htime] at hdisp' hqps'
  obtain rfl : st₀' = st₀ := Except.ok.inj (hdisp'.symm.trans hdisp)
  obtain rfl : st₁' = st₁ := Except.ok.inj (hqps'.symm.trans hqps)
  exact ⟨st₀', st₁', gs, hcall, hnone, hsome⟩

/-- From the round after the booking to the due round the cell holds its output. -/
theorem Books.held {x : Execution n m cfg sort} (hB1 : 1 ≤ cfg.batchSize)
    (hB : cfg.batchSize ≤ bitmapWidth) {T f : ℕ} {i : Fin n} {o : Fin m}
    (h : x.Books T f i o)
    (hbetween : ∀ R, T ≤ R → (cfg.batching = true → T < R) → R < due cfg T f →
      R % cfg.batchSize ≠ f) {R : ℕ} (hT : T < R) (hR : R ≤ due cfg T f) :
    (x.state R).schedules f i = some o := by
  induction R with
  | zero => omega
  | succ R ih =>
    rcases Nat.lt_or_ge T R with hlt | hge
    · -- A round after the booking: it dispatches another row.
      obtain ⟨htime, _, _, _, hcall⟩ := x.call hB1 hB R
      have hne := hbetween R hlt.le (fun _ => hlt) (by omega)
      exact (hcall.keeps (by rw [htime]; exact hne.symm) (ih hlt (by omega))).2
    · -- The round of the booking itself; without batching its dispatch comes afterwards.
      obtain rfl : R = T := by omega
      obtain ⟨_, _, _, hcall, _, hsome⟩ := h.call hB1 hB
      rw [hcall.finish]
      cases hb : cfg.batching with
      | true => exact hsome
      | false =>
        have hne := hbetween R (le_refl R) (fun htrue => by simp [hb] at htrue) (by omega)
        rw [if_neg Bool.false_ne_true, x.cfRelTime_eq hB1 hB, Function.update_of_ne hne.symm, hsome]

/-- When the dispatch of the due round starts, the reservation is still in its cell. -/
theorem Books.waiting {x : Execution n m cfg sort} (hB1 : 1 ≤ cfg.batchSize)
    (hB : cfg.batchSize ≤ bitmapWidth) {T f : ℕ} {i : Fin n} {o : Fin m}
    (h : x.Books T f i o) {D : ℕ} (hT : T ≤ D) (hbatch : cfg.batching = true → T < D)
    (hheld : T < D → (x.state D).schedules f i = some o) : ∃ st₀ st₁ gs,
    Call cfg sort (x.draws D) (x.switch D) (x.state D) st₀ st₁ (x.state (D + 1)) gs ∧
      (if cfg.batching then (x.state D).schedules else st₁.schedules) f i = some o := by
  rcases Nat.lt_or_eq_of_le hT with hlt | rfl
  · obtain ⟨-, st₀, st₁, gs, hcall⟩ := x.call hB1 hB D
    refine ⟨st₀, st₁, gs, hcall, ?_⟩
    have hstart := hcall.start
    cases hb : cfg.batching with
    | true => exact hheld hlt
    | false =>
      rw [hb, if_neg Bool.false_ne_true] at hstart
      exact hcall.round.kept (by rw [hstart]; exact hheld hlt)
  · obtain ⟨st₀, st₁, gs, hcall, -, hsome⟩ := h.call hB1 hB
    refine ⟨st₀, st₁, gs, hcall, ?_⟩
    rw [if_neg (fun hb => lt_irrefl _ (hbatch hb))]
    exact hsome

/-- The due round copies the reservation out and empties its cell. -/
theorem copies_of_waiting {x : Execution n m cfg sort} (hB1 : 1 ≤ cfg.batchSize)
    (hB : cfg.batchSize ≤ bitmapWidth) {D f : ℕ} (hD : D % cfg.batchSize = f) {i : Fin n}
    {o : Fin m} {st₀ st₁ : State n m} {gs : List (Fin n × Fin m)}
    (hcall : Call cfg sort (x.draws D) (x.switch D) (x.state D) st₀ st₁ (x.state (D + 1)) gs)
    (hcell : (if cfg.batching then (x.state D).schedules else st₁.schedules) f i = some o) :
    x.Copies D f i o := by
  have hDB : D % cfg.batchSize < cfg.batchSize := Nat.mod_lt _ (by omega)
  have htime := x.cfRelTime_eq hB1 hB D
  have hmatch : (x.state (D + 1)).inMatch i = some o := by
    rw [hcall.inMatch, htime, hD]
    exact hcell
  have hstart := hcall.start
  have hran := hcall.ran
  refine ⟨hD, ?_⟩
  cases hb : cfg.batching with
  | true =>
    -- The dispatch reads the state in which the round starts.
    rw [hb, if_pos rfl] at hcell
    obtain ⟨st', hdisp, -, hsched, -⟩ := dispatchSchedule_eq_ok hB hDB (x.sound hB1 hB D)
    refine ⟨x.state D, st', rfl, hdisp, hcell, ?_, hmatch⟩
    rw [hsched, hD, Function.update_self]
  | false =>
    -- The dispatch reads the state after the reservations of the round.
    rw [hb, if_neg Bool.false_ne_true] at hcell
    obtain ⟨st', hdisp, -, hsched, -⟩ := dispatchSchedule_eq_ok hB hDB hcall.booked
    have hentered := hcall.entered
    rw [hb] at hentered
    obtain rfl : x.state D = st₀ := Except.ok.inj hentered
    rw [htime] at hran
    refine ⟨st₁, st', hran, hdisp, hcell, ?_, hmatch⟩
    rw [hsched, hD, Function.update_self]

end Execution

/-- A reservation made in round `T` at frame `f` of the window keeps its cell until its due
    round, which copies it to `_in_match` and empties the cell; no dispatch of row `f` comes in
    between.  Without batching the due round is less than a batch away, with batching it lies
    in the next batch. -/
theorem dispatched_once (hB1 : 1 ≤ cfg.batchSize) (hB : cfg.batchSize ≤ bitmapWidth)
    (x : Execution n m cfg sort) {T f : ℕ} {i : Fin n} {o : Fin m} (h : x.Books T f i o) :
    (f < cfg.batchSize ∧ (cfg.batching = true → f ≤ T % cfg.batchSize)) ∧
    (cfg.batching = false → Execution.due cfg T f ≤ T + (cfg.batchSize - 1)) ∧
    (cfg.batching = true → Execution.due cfg T f / cfg.batchSize = T / cfg.batchSize + 1) ∧
    (∀ R, T < R → R ≤ Execution.due cfg T f → (x.state R).schedules f i = some o) ∧
    x.Copies (Execution.due cfg T f) f i o ∧
    ∀ R, T ≤ R → (cfg.batching = true → T < R) → R < Execution.due cfg T f →
      R % cfg.batchSize ≠ f := by
  obtain ⟨st₀, st₁, gs, hcall, hnone, hsome⟩ := h.call hB1 hB
  have hwindow := (hcall.round.added hsome hnone).1
  rw [x.cfRelTime_eq hB1 hB] at hwindow
  obtain ⟨hrow, hT, hbatch, hbetween⟩ := Execution.due_spec hB1 hwindow.1 hwindow.2
  have hheld := fun R => h.held hB1 hB hbetween (R := R)
  obtain ⟨_, _, _, hdue, hcell⟩ :=
    h.waiting hB1 hB hT hbatch (fun hlt => hheld _ hlt (le_refl _))
  refine ⟨hwindow, fun hb => ?_, fun hb => ?_, hheld,
    Execution.copies_of_waiting hB1 hB hrow hdue hcell, hbetween⟩
  · have hlt : (f + (cfg.batchSize - T % cfg.batchSize)) % cfg.batchSize < cfg.batchSize :=
      Nat.mod_lt _ (by omega)
    rw [Execution.due, hb, if_neg Bool.false_ne_true]
    omega
  · have hle := hwindow.2 hb
    -- the due round is slot `f` of the next batch
    have hsplit : T + (cfg.batchSize - (T % cfg.batchSize - f))
        = f + cfg.batchSize * (T / cfg.batchSize + 1) := by
      have hdiv := Nat.mod_add_div T cfg.batchSize
      have ht : T % cfg.batchSize < cfg.batchSize := Nat.mod_lt _ (by omega)
      rw [Nat.mul_add, Nat.mul_one]
      omega
    rw [Execution.due, hb, if_pos rfl, hsplit, Nat.add_mul_div_left _ _ (by omega),
      Nat.div_eq_of_lt hwindow.1, zero_add]

/-! ### Runs do not get stuck -/

/-- On a sound state some sample is good, so a call returns. -/
theorem exists_call (hB1 : 1 ≤ cfg.batchSize) (hB : cfg.batchSize ≤ bitmapWidth)
    (shuffle : Shuffle n) (sw : IQSwitch n m) {st : State n m} (h : Sound cfg st) :
    ∃ draws st', draws.shuffle = shuffle ∧ schedule cfg sort draws sw st = .ok st' := by
  have hnonneg : ∀ i o, 0 ≤ (handlePacketArrivals sw st).inputQueues i o := by
    intro i o
    have hio := h.nonneg i o
    rw [handlePacketArrivals_inputQueues]
    omega
  have hpick : ∀ i, ∃ out : Option (Fin m),
      getQueueLengthForInput (handlePacketArrivals sw st) i ≠ 0 →
      ∃ o, out = some o ∧ 0 < (handlePacketArrivals sw st).inputQueues i o := by
    intro i
    by_cases hlen : getQueueLengthForInput (handlePacketArrivals sw st) i = 0
    · exact ⟨none, fun hne => absurd hlen hne⟩
    · have hsome := mt (QueueSampler.getQueueLength_eq_zero (hnonneg i)).mpr hlen
      obtain ⟨o, ho⟩ := not_forall.mp hsome
      exact ⟨some o, fun _ => ⟨o, rfl, lt_of_le_of_ne (hnonneg i o) (Ne.symm ho)⟩⟩
  -- Sampling these outputs, no input can fail an assertion.
  choose sample hsample using hpick
  obtain ⟨st', hrun, -⟩ := (schedule_post hB1 hB sort ⟨shuffle, sample⟩ sw h).exists_ok
    (fun e _ he => he.2 hsample)
  exact ⟨⟨shuffle, sample⟩, st', rfl, hrun⟩

/-- Every first call from an initial state extends to an execution. -/
theorem exists_execution (hB1 : 1 ≤ cfg.batchSize) (hB : cfg.batchSize ≤ bitmapWidth)
    {st st₁ : State n m} (hreach : Reachable cfg sort st) (hstart : st.cfRelTime = 0)
    {draws : Draws n m} {sw : IQSwitch n m} (hrun : schedule cfg sort draws sw st = .ok st₁) :
    ∃ x : Execution n m cfg sort, x.state 0 = st ∧ x.draws 0 = draws ∧ x.switch 0 = sw := by
  have hnext : ∀ a : {s : State n m // Reachable cfg sort s}, ∃ d s',
      schedule cfg sort d sw a.val = .ok s' := by
    intro a
    obtain ⟨d, s', -, hd⟩ :=
      exists_call hB1 hB draws.shuffle sw (sound_of_reachable hB1 hB a.property)
    exact ⟨d, s', hd⟩
  -- After the given call, every round makes the choices picked for the state it finds.
  choose next state' hstep using hnext
  let later : ℕ → {s : State n m // Reachable cfg sort s} := fun R =>
    Nat.rec ⟨st₁, hreach.schedule _ _ hrun⟩
      (fun _ a => ⟨state' a, a.property.schedule _ _ (hstep a)⟩) R
  refine ⟨{ state := fun R => R.casesOn st (fun k => (later k).val)
            draws := fun R => R.casesOn draws (fun k => next (later k))
            switch := fun _ => sw
            reachable := hreach
            start := hstart
            step := ?_ }, rfl, rfl, rfl⟩
  rintro (_ | R)
  · exact hrun
  · exact hstep (later R)

/-- Two inputs propose to one output: the reservation at the next frame is dispatched in the
    next round. -/
theorem dispatched_next_round :
    ∃ x : Execution 2 2 ⟨2, 3, false, false⟩ .insertion, x.Books 0 1 0 0 ∧ x.Copies 1 1 0 0 := by
  let sw : IQSwitch 2 2 := .simplified ⟨fun _ _ => 1, [some (0, 0), some (1, 0)], []⟩
  let draws : Draws 2 2 := ⟨⟨[1, 0], by decide⟩, fun _ => some 0⟩
  obtain ⟨st', hrun, -⟩ := exists_of_returns (x := schedule ⟨2, 3, false, false⟩ .insertion draws
    sw (State.initial ⟨2, 3, false, false⟩)) (p := fun _ => true) (by decide)
  obtain ⟨st₁, hqps, hst₁⟩ := exists_of_returns (x := qps ⟨2, 3, false, false⟩ .insertion draws
    sw 0 (State.initial ⟨2, 3, false, false⟩))
    (p := fun st => decide (st.schedules 1 0 = some 0)) (by decide)
  obtain ⟨x, hstate, hdraws, hswitch⟩ := exists_execution (by decide) (by decide) .initial rfl hrun
  have hbooks : x.Books 0 1 0 0 :=
    ⟨State.initial ⟨2, 3, false, false⟩, st₁, by rw [hstate]; rfl,
      by rw [hdraws, hswitch]; exact hqps, rfl, of_decide_eq_true hst₁⟩
  exact ⟨x, hbooks, (dispatched_once (by decide) (by decide) x hbooks).2.2.2.2.1⟩

end SlidingWindowQps

end SschedSimulator
