import SschedSimulator.Scheduler.SbQps.Availability

namespace SschedSimulator

open Foundation

/-!
# `sb_qps.cc` — the schedulers `SB_QPS_HalfHalf_MI` and `SB_QPS_ThreeThird_MI`

Both repeat the round with availability counters up to three times for the same slot.  A port
matched by one iteration proposes and accepts again in the next, and the current slot is assigned
whatever its row holds.  Hence two things can go wrong, each of which is characterised here by a
condition on the state before an iteration and its proposals:

* `KeepsHolders` — an output that holds a cell of the row is given to somebody else only if its
  holder is moved to another output.  Then all rows stay partial matchings
  (`isMatching_of_run`);
* `ServesUnmatched` — no input served now has a cell in the row.  Then no reservation is lost and
  the queues of the switch are accounted for (`noLostReservation_of_run`).

Neither holds in general: `not_isMatching_of_run`, `lostReservation_of_run`.
-/

namespace SbQps

variable {n m : ℕ}

namespace MultiIteration

open Availability

/-- The number of iterations in a slot and of proposals an output may accept in each, as functions
    of the batch size and the slot. -/
structure Limits where
  maxIters : ℕ → ℕ → ℕ
  maxAccepts : ℕ → ℕ → ℤ

/-- `qps(timeSlot)`: one iteration. -/
def iteration (limits : Limits) (B : ℕ) (sort : DescSort (Fin n)) (draws : ℕ → TreeDraws n m)
    (timeSlot : ℕ) (core : Core (Booking n m) n m) (i : ℕ) :
    Except Fault (Core (Booking n m) n m) :=
  round sort (fun _ => limits.maxAccepts B timeSlot) (draws i) timeSlot core

/-- `qps(iqSwitch, timeSlot)`: all iterations of a slot; the `i`-th makes the choices `draws i`. -/
def qps (limits : Limits) (B : ℕ) (sort : DescSort (Fin n)) (draws : ℕ → TreeDraws n m)
    (timeSlot : ℕ) (core : Core (Booking n m) n m) : Except Fault (Core (Booking n m) n m) :=
  (List.range (limits.maxIters B timeSlot)).foldlM (iteration limits B sort draws timeSlot) core

/-- A scheduler of this kind as a switch drives it. -/
abbrev model (limits : Limits) (n m B : ℕ) (sort : DescSort (Fin n)) : SchedulerModel n m :=
  sbModel (qps (m := m) limits B sort) B

end MultiIteration

namespace HalfHalfMI

/-- `maxIters` and `maxAccepts` of `SB_QPS_HalfHalf_MI`. -/
def limits : MultiIteration.Limits where
  maxIters B timeSlot := if (timeSlot + 1) * 2 > B then 3 else 1
  maxAccepts B timeSlot := if (timeSlot + 1) * 2 > B then 2 else 1

/-- `SB_QPS_HalfHalf_MI` as a switch drives it. -/
abbrev model (n m B : ℕ) (sort : DescSort (Fin n)) : SchedulerModel n m :=
  MultiIteration.model limits n m B sort

end HalfHalfMI

namespace ThreeThirdMI

/-- `maxIters` and `maxAccepts` of `SB_QPS_ThreeThird_MI`; the source compares
    `(timeSlot + 1) * 1.5` with the batch size. -/
def limits : MultiIteration.Limits where
  maxIters B timeSlot :=
    if (timeSlot + 1) * 3 > 2 * B then 3 else if (timeSlot + 1) * 2 > B then 2 else 1
  maxAccepts B timeSlot :=
    if (timeSlot + 1) * 3 > 2 * B then 4 else if (timeSlot + 1) * 2 > B then 2 else 1

/-- `SB_QPS_ThreeThird_MI` as a switch drives it. -/
abbrev model (n m B : ℕ) (sort : DescSort (Fin n)) : SchedulerModel n m :=
  MultiIteration.model limits n m B sort

end ThreeThirdMI

namespace MultiIteration

open Availability

/-! ### Conditions on the iterations of a slot -/

/-- Every iteration of the slot meets `P`, a condition on the choices of the iteration, the slot and
    the tables and queues in which it starts. -/
def SlotMeets (P : (Fin m → ℤ) → TreeDraws n m → ℕ → Core (Booking n m) n m → Prop)
    (limits : Limits) (B : ℕ) (sort : DescSort (Fin n)) (draws : ℕ → TreeDraws n m)
    (sw : IQSwitch n m) (st : State n m) : Prop :=
  match enterSlot B sw st with
  | .ok core =>
    StepsMeet (iteration limits B sort draws (st.cfRelTime % B))
      (fun core i => P (fun _ => limits.maxAccepts B (st.cfRelTime % B)) (draws i)
        (st.cfRelTime % B) core)
      (List.range (limits.maxIters B (st.cfRelTime % B))) core
  | .error _ => True

/-- An output that has a cell in the row of the slot is served now only if the input that holds it
    is served now as well. -/
def KeepsHolders (maxAccepts : Fin m → ℤ) (draws : TreeDraws n m) (t : ℕ)
    (core : Core (Booking n m) n m) : Prop :=
  ∀ o i i', served maxAccepts draws core.voq o = some i → core.schedules t i' = some o →
    ∃ o', served maxAccepts draws core.voq o' = some i'

/-- No input served now has a cell in the row of the slot. -/
def ServesUnmatched (maxAccepts : Fin m → ℤ) (draws : TreeDraws n m) (t : ℕ)
    (core : Core (Booking n m) n m) : Prop :=
  ∀ o i, served maxAccepts draws core.voq o = some i → core.schedules t i = none

instance (maxAccepts : Fin m → ℤ) (draws : TreeDraws n m) (t : ℕ)
    (core : Core (Booking n m) n m) : Decidable (KeepsHolders maxAccepts draws t core) :=
  inferInstanceAs (Decidable (∀ _ _ _, _ → _ → ∃ _, _))

instance (maxAccepts : Fin m → ℤ) (draws : TreeDraws n m) (t : ℕ)
    (core : Core (Booking n m) n m) : Decidable (ServesUnmatched maxAccepts draws t core) :=
  inferInstanceAs (Decidable (∀ _ _, _ → _))

instance (P : (Fin m → ℤ) → TreeDraws n m → ℕ → Core (Booking n m) n m → Prop)
    [∀ a d t core, Decidable (P a d t core)] (limits : Limits) (B : ℕ) (sort : DescSort (Fin n))
    (draws : ℕ → TreeDraws n m) (sw : IQSwitch n m) (st : State n m) :
    Decidable (SlotMeets P limits B sort draws sw st) :=
  show Decidable (match enterSlot B sw st with
      | .ok _ => _
      | .error _ => True) from
    match enterSlot B sw st with
    | .ok _ => decidableStepsMeet _ _ _ _
    | .error _ => .isTrue trivial

variable {limits : Limits} {B : ℕ} {sort : DescSort (Fin n)}

/-- What a slot condition says about the loop over the iterations. -/
theorem SlotMeets.steps {P : (Fin m → ℤ) → TreeDraws n m → ℕ → Core (Booking n m) n m → Prop}
    {draws : ℕ → TreeDraws n m} {sw : IQSwitch n m} {st : State n m}
    (h : SlotMeets P limits B sort draws sw st) {core : Core (Booking n m) n m}
    (hcore : enterSlot B sw st = .ok core) :
    StepsMeet (iteration limits B sort draws (st.cfRelTime % B))
      (fun core i => P (fun _ => limits.maxAccepts B (st.cfRelTime % B)) (draws i)
        (st.cfRelTime % B) core)
      (List.range (limits.maxIters B (st.cfRelTime % B))) core := by
  unfold SlotMeets at h
  rw [hcore] at h
  exact h

/-! ### Rows that stay matchings -/

/-- All rows are partial matchings, except perhaps row `t`, and the bits cover the first `k`. -/
structure MatchedBut (B t k : ℕ) (b : Booking n m) : Prop where
  covers : b.toReservations.Covers k
  matching : ∀ f < B, f ≠ t → IsMatching (b.schedules f)

/-- All rows are partial matchings and the bits cover the first `k`. -/
structure Matched (B k : ℕ) (b : Booking n m) : Prop where
  covers : b.toReservations.Covers k
  matching : ∀ f < B, IsMatching (b.schedules f)

theorem kept_matchedBut {t : ℕ} (ht : t < bitmapWidth) :
    Booking.Kept (earlierFrames t) (t + 1)
      (fun b : Booking n m => MatchedBut B t (t + 1) b) where
  live := fun f hf => Nat.lt_succ_of_lt (mem_earlierFrames.mp hf)
  width := ht
  covers := fun _ h => h.covers
  take := by
    intro b f i o h hf hi ho
    have hft : f < t := mem_earlierFrames.mp hf
    refine ⟨h.covers.book (by omega) ht i o, fun g hg hgt => ?_⟩
    show IsMatching (update₂ b.schedules f i (some o) g)
    by_cases hgf : g = f
    · subst hgf
      simpa [update₂] using (h.matching g hg hgt).update (h.covers.row_ne_some (by omega) ho)
    · rw [update₂_row_of_ne _ hgf]
      exact h.matching g hg hgt

/-- Giving the current slot away touches its row only. -/
theorem MatchedBut.bookNow {t : ℕ} (ht : t < bitmapWidth) (b : Booking n m) (i : Fin n)
    (o : Fin m) (h : MatchedBut B t (t + 1) b) :
    MatchedBut B t (t + 1) (bookNow t i o b) where
  covers := h.covers.book (Nat.lt_succ_self t) ht i o
  matching := by
    intro g hg hgt
    show IsMatching (update₂ b.schedules t i (some o) g)
    rw [update₂_row_of_ne _ hgt]
    exact h.matching g hg hgt

/-- The row of the slot after an iteration: the inputs served now replace what was there.  It stays
    a matching exactly when the iteration keeps the holders. -/
theorem isMatching_served_iff {row row' : Fin n → Option (Fin m)} {served : Fin m → Option (Fin n)}
    (hserved : ∀ o i, served o = some i → row' i = some o)
    (hold : ∀ i, (∀ o, served o ≠ some i) → row' i = row i) (hrow : IsMatching row) :
    IsMatching row' ↔
      ∀ o i i', served o = some i → row i' = some o → ∃ o', served o' = some i' := by
  constructor
  · -- A holder that is not served keeps its cell, next to the new one.
    intro hmatch o i i' hi hi'
    by_contra hnone
    have hkept := hold i' (fun o' ho' => hnone ⟨o', ho'⟩)
    have heq : i' = i := hmatch (hkept.trans hi') (hserved o i hi)
    exact hnone ⟨o, heq ▸ hi⟩
  · intro hkeep i i' o hi hi'
    by_cases hs : ∃ p, served p = some i <;> by_cases hs' : ∃ p, served p = some i'
    · obtain ⟨p, hp⟩ := hs
      obtain ⟨p', hp'⟩ := hs'
      -- Both are served by `o` itself.
      have hpo : p = o := Option.some.inj ((hserved p i hp).symm.trans hi)
      have hpo' : p' = o := Option.some.inj ((hserved p' i' hp').symm.trans hi')
      rw [hpo] at hp
      rw [hpo'] at hp'
      exact Option.some.inj (hp.symm.trans hp')
    · -- `o` serves `i` now, so its holder `i'` would have to be served as well.
      obtain ⟨p, hp⟩ := hs
      have hpo : p = o := Option.some.inj ((hserved p i hp).symm.trans hi)
      rw [hold i' (fun p' hp' => hs' ⟨p', hp'⟩)] at hi'
      exact absurd (hkeep o i i' (hpo ▸ hp) hi') hs'
    · obtain ⟨p', hp'⟩ := hs'
      have hpo' : p' = o := Option.some.inj ((hserved p' i' hp').symm.trans hi')
      rw [hold i (fun p hp => hs ⟨p, hp⟩)] at hi
      exact absurd (hkeep o i' i (hpo' ▸ hp') hi) hs
    · rw [hold i (fun p hp => hs ⟨p, hp⟩)] at hi
      rw [hold i' (fun p' hp' => hs' ⟨p', hp'⟩)] at hi'
      exact hrow hi hi'

/-- An iteration on rows that are matchings: they stay so exactly when it keeps the holders. -/
theorem iteration_matched {t : ℕ} (ht : t < B) (hB : B ≤ bitmapWidth)
    (draws : ℕ → TreeDraws n m) (k : ℕ) {core : Core (Booking n m) n m}
    (h : Matched B (t + 1) core.tables) (hexact : core.voq.Exact) :
    Post (iteration limits B sort draws t core k) (fun _ => True) (fun core' =>
      MatchedBut B t (t + 1) core'.tables ∧ core'.voq.Exact ∧
      (IsMatching (core'.schedules t) ↔
        KeepsHolders (fun _ => limits.maxAccepts B t) (draws k) t core)) := by
  have htw : t < bitmapWidth := by omega
  refine (round_post (kept_matchedBut htw) ht (fun b i o hb => hb.bookNow htw b i o)
    (fun b _ hb => ⟨hb.covers, hb.matching⟩) sort _ (draws k)
    (⟨h.covers, fun f hf _ => h.matching f hf⟩ : MatchedBut B t (t + 1) core.tables) hexact).mono
    (fun _ _ => trivial) ?_
  rintro core' ⟨hbut, hexact', hserved, hold, -⟩
  exact ⟨hbut, hexact', isMatching_served_iff hserved hold (h.matching t ht)⟩

theorem batchInvariant_matched (B : ℕ) :
    BatchInvariant B (fun k (b : Booking n m) => Matched B k b)
      (fun t b => Matched B (t + 1) b) where
  clearRow := by
    intro k b h
    refine ⟨Reservations.Covers.clearRow h.covers, fun f hf => ?_⟩
    show IsMatching (Function.update b.schedules k (fun _ => none) f)
    rw [Function.update_apply]
    split
    · exact isMatching_none
    · exact h.matching f hf
  resetBitmap := fun b h =>
    ⟨(Reservations.tracks_resetBitmap b.toReservations).toCovers, h.matching⟩

/-- The iterations of a slot that all keep the holders. -/
theorem qps_matched {t : ℕ} (ht : t < B) (hB : B ≤ bitmapWidth) {draws : ℕ → TreeDraws n m}
    {core : Core (Booking n m) n m}
    (h : Sound (fun t (b : Booking n m) => Matched B (t + 1) b) t core)
    (hkeep : StepsMeet (iteration limits B sort draws t)
      (fun core k => KeepsHolders (fun _ => limits.maxAccepts B t) (draws k) t core)
      (List.range (limits.maxIters B t)) core) :
    Post (qps limits B sort draws t core) (fun _ => True)
      (fun core' => Sound (fun k (b : Booking n m) => Matched B k b) (t + 1) core') := by
  refine (Post.foldlM_meeting
    (I := fun core : Core (Booking n m) n m => Matched B (t + 1) core.tables ∧ core.voq.Exact)
    ⟨h.tables, h.voq⟩ hkeep ?_).imp (fun core' hc => ⟨hc.1, hc.2⟩)
  -- The other rows stay matchings anyway, and the row of the slot does by the condition.
  rintro core k ⟨htables, hexact⟩ hk
  refine (iteration_matched ht hB draws k htables hexact).imp ?_
  rintro core' ⟨hbut, hexact', hrow⟩
  refine ⟨⟨hbut.covers, fun f hf => ?_⟩, hexact'⟩
  by_cases hft : f = t
  · rw [hft]
    exact hrow.mpr hk
  · exact hbut.matching f hf hft

/-- In every run of a scheduler of this kind whose iterations all keep the holders, all rows and
    every row dispatched are partial matchings. -/
theorem matched_of_run (hB1 : 1 ≤ B) (hB : B ≤ bitmapWidth) {sw : IQSwitch n m}
    {sys : System (model limits n m B sort)}
    (hrun : RunWhere (model limits n m B sort) (SlotMeets KeepsHolders limits B sort)
      ⟨sw, initial⟩ sys) :
    (∀ f < B, IsMatching (sys.scheduler.schedules f)) ∧ IsMatching sys.scheduler.inMatch := by
  have hsound₀ : Sound (fun k (b : Booking n m) => Matched B k b)
      ((initial : State n m).cfRelTime % B) (initial : State n m).toCore :=
    ⟨⟨(Reservations.tracks_empty _).toCovers, fun _ _ => isMatching_none⟩, VoqState.exact_empty⟩
  have hsound : ∀ sys : System (model limits n m B sort),
      RunWhere (model limits n m B sort) (SlotMeets KeepsHolders limits B sort) ⟨sw, initial⟩ sys →
      Sound (fun k (b : Booking n m) => Matched B k b) (sys.scheduler.cfRelTime % B)
        sys.scheduler.toCore := by
    intro sys hrun
    exact sound_of_run (C := fun draws t core => StepsMeet (iteration limits B sort draws t)
        (fun core k => KeepsHolders (fun _ => limits.maxAccepts B t) (draws k) t core)
        (List.range (limits.maxIters B t)) core)
      (batchInvariant_matched B) hB1 (fun _ _ _ _ hC hcore _ => hC.steps hcore)
      (fun _ _ _ ht hcore _ hsteps => qps_matched ht hB hcore hsteps) hrun hsound₀
  refine ⟨(hsound sys hrun).tables.matching, ?_⟩
  cases hrun with
  | refl => exact isMatching_none
  | step draws channels hmid _ hok =>
    -- The row dispatched last was one of the rows of the state before.
    rw [inMatch_of_switching hok]
    exact (hsound _ hmid).tables.matching _ (Nat.mod_lt _ (by omega))

/-- In every run of either scheduler whose iterations all keep the holders, all rows and every row
    dispatched are partial matchings. -/
theorem isMatching_of_run (hB1 : 1 ≤ B) (hB : B ≤ bitmapWidth) (sw : IQSwitch n m) :
    (∀ sys : System (HalfHalfMI.model n m B sort),
      RunWhere (HalfHalfMI.model n m B sort) (SlotMeets KeepsHolders HalfHalfMI.limits B sort)
        ⟨sw, initial⟩ sys →
      (∀ f < B, IsMatching (sys.scheduler.schedules f)) ∧ IsMatching sys.scheduler.inMatch) ∧
    ∀ sys : System (ThreeThirdMI.model n m B sort),
      RunWhere (ThreeThirdMI.model n m B sort) (SlotMeets KeepsHolders ThreeThirdMI.limits B sort)
        ⟨sw, initial⟩ sys →
      (∀ f < B, IsMatching (sys.scheduler.schedules f)) ∧ IsMatching sys.scheduler.inMatch :=
  ⟨fun _ hrun => matched_of_run hB1 hB hrun, fun _ hrun => matched_of_run hB1 hB hrun⟩

/-- Choices for every iteration: the inputs in order, and offsets at a quarter of the total. -/
def quarterDraws (n m : ℕ) (_ : ℕ) : TreeDraws n m := inOrderDraws n m (1 / 4)

/-- Two inputs that ask for different outputs are both matched in the first iteration; the other
    two have nothing to do. -/
theorem isMatching_after_slot :
    ∃ sys : System (HalfHalfMI.model 2 2 1 DescSort.insertion),
      (sys.scheduler.schedules 0 0 = some 0 ∧ sys.scheduler.schedules 0 1 = some 1) ∧
        IsMatching (sys.scheduler.schedules 0) := by
  let channels : Fin 2 → List (Packet 2 2) := fun i => [⟨i, i, 0, 0⟩]
  obtain ⟨sys, hok, hcells⟩ := exists_of_returns
    (x := switching (HalfHalfMI.model 2 2 1 DescSort.insertion) (quarterDraws 2 2) channels
      ⟨IQSwitch.empty 2 2, initial⟩)
    (p := fun sys => decide (sys.scheduler.schedules 0 0 = some 0 ∧
      sys.scheduler.schedules 0 1 = some 1)) (by decide +kernel)
  refine ⟨sys, of_decide_eq_true hcells, ?_⟩
  have hmeets : SlotMeets KeepsHolders HalfHalfMI.limits 1 DescSort.insertion (quarterDraws 2 2)
      ((IQSwitch.empty 2 2).readInputs channels) initial := by decide +kernel
  exact ((isMatching_of_run (le_refl 1) (by decide) (IQSwitch.empty 2 2)).1 sys
    (RunWhere.step _ channels .refl hmeets hok)).1 0 Nat.one_pos

/-- With `B = 1`, two inputs whose only packet is for output `0` are both matched to it. -/
theorem not_isMatching_of_run :
    (∃ sys, Run (HalfHalfMI.model 2 2 1 DescSort.insertion) ⟨IQSwitch.empty 2 2, initial⟩ sys ∧
      ¬ IsMatching (sys.scheduler.schedules 0)) ∧
    ∃ sys, Run (ThreeThirdMI.model 2 2 1 DescSort.insertion) ⟨IQSwitch.empty 2 2, initial⟩ sys ∧
      ¬ IsMatching (sys.scheduler.schedules 0) := by
  let channels : Fin 2 → List (Packet 2 2) := fun i => [⟨i, 0, 0, 0⟩]
  constructor
  · obtain ⟨sys, hok, hrow⟩ := exists_of_returns
      (x := switching (HalfHalfMI.model 2 2 1 DescSort.insertion) (quarterDraws 2 2) channels
        ⟨IQSwitch.empty 2 2, initial⟩)
      (p := fun sys => decide (¬ IsMatching (sys.scheduler.schedules 0))) (by decide +kernel)
    exact ⟨sys, Run.step _ channels .refl hok, of_decide_eq_true hrow⟩
  · obtain ⟨sys, hok, hrow⟩ := exists_of_returns
      (x := switching (ThreeThirdMI.model 2 2 1 DescSort.insertion) (quarterDraws 2 2) channels
        ⟨IQSwitch.empty 2 2, initial⟩)
      (p := fun sys => decide (¬ IsMatching (sys.scheduler.schedules 0))) (by decide +kernel)
    exact ⟨sys, Run.step _ channels .refl hok, of_decide_eq_true hrow⟩

/-! ### Reservations that are not lost -/

theorem batchInvariant_covers (B : ℕ) :
    BatchInvariant B (fun k (b : Booking n m) => b.toReservations.Covers k)
      (fun t b => b.toReservations.Covers (t + 1)) where
  clearRow := fun _ _ h => Reservations.Covers.clearRow h
  resetBitmap := fun b _ => (Reservations.tracks_resetBitmap b.toReservations).toCovers

theorem kept_covers {t : ℕ} (ht : t < bitmapWidth) :
    Booking.Kept (earlierFrames t) (t + 1)
      (fun b : Booking n m => b.toReservations.Covers (t + 1)) where
  live := fun f hf => Nat.lt_succ_of_lt (mem_earlierFrames.mp hf)
  width := ht
  covers := fun _ h => h
  take := by
    intro b f i o h hf _ _
    have hft : f < t := mem_earlierFrames.mp hf
    exact h.book (by omega) ht i o

/-- A round keeps the rows covered by the bits. -/
theorem round_covers {t : ℕ} {maxAccepts : Fin m → ℤ} {draws : TreeDraws n m}
    {core : Core (Booking n m) n m} (ht : t < bitmapWidth)
    (h : core.tables.toReservations.Covers (t + 1)) (hexact : core.voq.Exact) :
    Post (Availability.round sort maxAccepts draws t core) (fun _ => True)
      (fun core' => core'.tables.toReservations.Covers (t + 1) ∧ core'.voq.Exact) :=
  (round_post (kept_covers ht) (Nat.lt_succ_self t)
    (fun _ i o hb => hb.book (Nat.lt_succ_self t) ht i o) (fun _ _ hb => hb) sort maxAccepts draws h
    hexact).mono (fun _ _ => trivial) (fun _ hcore => ⟨hcore.1, hcore.2.1⟩)

/-- The iterations of a slot that all serve unmatched inputs only grant. -/
theorem qps_grants {t : ℕ} (ht : t < B) (hB : B ≤ bitmapWidth) {draws : ℕ → TreeDraws n m}
    {core : Core (Booking n m) n m}
    (h : Sound (fun t (b : Booking n m) => b.toReservations.Covers (t + 1)) t core)
    (hfresh : StepsMeet (iteration limits B sort draws t)
      (fun core k => ServesUnmatched (fun _ => limits.maxAccepts B t) (draws k) t core)
      (List.range (limits.maxIters B t)) core) :
    Post (qps limits B sort draws t core) (fun _ => True) (fun core' =>
      Sound (fun k (b : Booking n m) => b.toReservations.Covers k) (t + 1) core' ∧
        Grants B t core core') := by
  have htw : t < bitmapWidth := by omega
  refine (Post.foldlM_meeting (I := fun core' : Core (Booking n m) n m =>
      core'.tables.toReservations.Covers (t + 1) ∧ core'.voq.Exact ∧ Grants B t core core')
    ⟨h.tables, h.voq, Grants.refl B t core⟩ hfresh ?_).imp
    (fun core' hc => ⟨⟨hc.1, hc.2.1⟩, hc.2.2⟩)
  rintro core' k ⟨htables, hexact, hgrants⟩ hk
  refine (round_post (kept_covers htw) ht (fun b i o hb => hb.book (Nat.lt_succ_self t) htw i o)
    (fun b _ hb => hb) sort _ (draws k) htables hexact).mono (fun _ _ => trivial) ?_
  rintro core'' ⟨hcovers, hexact', -, -, hgrant⟩
  exact ⟨hcovers, hexact', hgrants.trans (hgrant hk)⟩

/-- `schedule()` conserves packets in the slots whose iterations all serve unmatched inputs. -/
theorem conserves (hB1 : 1 ≤ B) (hB : B ≤ bitmapWidth) :
    Conserves (model limits n m B sort) (SlotMeets ServesUnmatched limits B sort)
      (fun st => Sound (fun k (b : Booking n m) => b.toReservations.Covers k)
        (st.cfRelTime % B) st.toCore)
      (fun st => held B st.toCore)
      (fun draws sw st _ => ∃ core, enterSlot B sw st = .ok core ∧ True) :=
  conserves_of_grants (C := fun draws t core => StepsMeet (iteration limits B sort draws t)
      (fun core k => ServesUnmatched (fun _ => limits.maxAccepts B t) (draws k) t core)
      (List.range (limits.maxIters B t)) core)
    (E := fun _ _ _ => True) (batchInvariant_covers B) hB1
    (fun _ _ _ _ hC hcore => hC.steps hcore) (fun _ _ _ _ _ _ _ _ => trivial)
    (fun _ _ _ ht hcore _ hsteps => qps_grants ht hB hcore hsteps)

/-- In every run of an initially empty switch driven by a scheduler of this kind, whose iterations
    all serve unmatched inputs, no reservation is lost. -/
theorem balanced_of_run (hB1 : 1 ≤ B) (hB : B ≤ bitmapWidth) {sw : IQSwitch n m} (hsw : sw.Empty)
    {sys : System (model limits n m B sort)}
    (hrun : RunWhere (model limits n m B sort) (SlotMeets ServesUnmatched limits B sort)
      ⟨sw, initial⟩ sys) (s : Fin n) (d : Fin m) :
    (sys.switch.getQueueLength s d : ℤ)
      = sys.scheduler.voq.voqLength s d + pending (Finset.range B) sys.scheduler.schedules s d := by
  have hsound₀ : Sound (fun k (b : Booking n m) => b.toReservations.Covers k)
      ((initial : State n m).cfRelTime % B) (initial : State n m).toCore :=
    ⟨(Reservations.tracks_empty _).toCovers, VoqState.exact_empty⟩
  exact ((conserves hB1 hB).run hrun hsound₀ (held_initial hsw (fun _ _ => rfl))).2 s d

/-- In every run of either scheduler from an empty switch, whose iterations all serve unmatched
    inputs: every queue of the switch holds the packets in `VOQLength` and those promised to
    pending rows. -/
theorem noLostReservation_of_run (hB1 : 1 ≤ B) (hB : B ≤ bitmapWidth) {sw : IQSwitch n m}
    (hsw : sw.Empty) :
    (∀ sys : System (HalfHalfMI.model n m B sort),
      RunWhere (HalfHalfMI.model n m B sort) (SlotMeets ServesUnmatched HalfHalfMI.limits B sort)
        ⟨sw, initial⟩ sys →
      ∀ s d, (sys.switch.getQueueLength s d : ℤ) = sys.scheduler.voq.voqLength s d
        + pending (Finset.range B) sys.scheduler.schedules s d) ∧
    ∀ sys : System (ThreeThirdMI.model n m B sort),
      RunWhere (ThreeThirdMI.model n m B sort)
        (SlotMeets ServesUnmatched ThreeThirdMI.limits B sort) ⟨sw, initial⟩ sys →
      ∀ s d, (sys.switch.getQueueLength s d : ℤ) = sys.scheduler.voq.voqLength s d
        + pending (Finset.range B) sys.scheduler.schedules s d :=
  ⟨fun _ hrun => balanced_of_run hB1 hB hsw hrun, fun _ hrun => balanced_of_run hB1 hB hsw hrun⟩

/-- Two inputs that ask for different outputs are matched, and the reservation of the second
    accounts for its packet. -/
theorem noLostReservation_after_slot :
    ∃ sys : System (HalfHalfMI.model 2 2 1 DescSort.insertion),
      sys.scheduler.schedules 0 1 = some 1 ∧
        (sys.switch.getQueueLength 1 1 : ℤ) = sys.scheduler.voq.voqLength 1 1
          + pending (Finset.range 1) sys.scheduler.schedules 1 1 := by
  let channels : Fin 2 → List (Packet 2 2) := fun i => [⟨i, i, 0, 0⟩]
  obtain ⟨sys, hok, hcell⟩ := exists_of_returns
    (x := switching (HalfHalfMI.model 2 2 1 DescSort.insertion) (quarterDraws 2 2) channels
      ⟨IQSwitch.empty 2 2, initial⟩)
    (p := fun sys => decide (sys.scheduler.schedules 0 1 = some 1)) (by decide +kernel)
  refine ⟨sys, of_decide_eq_true hcell, ?_⟩
  have hmeets : SlotMeets ServesUnmatched HalfHalfMI.limits 1 DescSort.insertion
      (quarterDraws 2 2) ((IQSwitch.empty 2 2).readInputs channels) initial := by decide +kernel
  exact (noLostReservation_of_run (le_refl 1) (by decide) (IQSwitch.empty_empty 2 2)).1 sys
    (RunWhere.step _ channels .refl hmeets hok) 1 1

/-- With `B = 1`, an input with one packet for each of two outputs is matched to the first and then
    to the second; the first packet is no longer in `VOQLength` and no row holds it. -/
theorem lostReservation_of_run :
    (∃ sys, Run (HalfHalfMI.model 2 2 1 DescSort.insertion) ⟨IQSwitch.empty 2 2, initial⟩ sys ∧
      (sys.switch.getQueueLength 0 0 : ℤ) ≠ sys.scheduler.voq.voqLength 0 0
        + pending (Finset.range 1) sys.scheduler.schedules 0 0) ∧
    ∃ sys, Run (ThreeThirdMI.model 2 2 1 DescSort.insertion) ⟨IQSwitch.empty 2 2, initial⟩ sys ∧
      (sys.switch.getQueueLength 0 0 : ℤ) ≠ sys.scheduler.voq.voqLength 0 0
        + pending (Finset.range 1) sys.scheduler.schedules 0 0 := by
  let channels : Fin 2 → List (Packet 2 2) :=
    fun i => if i = 0 then [⟨0, 0, 0, 0⟩, ⟨0, 1, 0, 0⟩] else []
  constructor
  · obtain ⟨sys, hok, hlost⟩ := exists_of_returns
      (x := switching (HalfHalfMI.model 2 2 1 DescSort.insertion) (quarterDraws 2 2) channels
        ⟨IQSwitch.empty 2 2, initial⟩)
      (p := fun sys => decide ((sys.switch.getQueueLength 0 0 : ℤ) ≠
        sys.scheduler.voq.voqLength 0 0
          + pending (Finset.range 1) sys.scheduler.schedules 0 0)) (by decide +kernel)
    exact ⟨sys, Run.step _ channels .refl hok, of_decide_eq_true hlost⟩
  · obtain ⟨sys, hok, hlost⟩ := exists_of_returns
      (x := switching (ThreeThirdMI.model 2 2 1 DescSort.insertion) (quarterDraws 2 2) channels
        ⟨IQSwitch.empty 2 2, initial⟩)
      (p := fun sys => decide ((sys.switch.getQueueLength 0 0 : ℤ) ≠
        sys.scheduler.voq.voqLength 0 0
          + pending (Finset.range 1) sys.scheduler.schedules 0 0)) (by decide +kernel)
    exact ⟨sys, Run.step _ channels .refl hok, of_decide_eq_true hlost⟩

end MultiIteration

end SbQps

end SschedSimulator
