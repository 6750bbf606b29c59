import SschedSimulator.Scheduler.SbQps.CounterDrift
import SschedSimulator.Scheduler.SbQps.Oblivious

namespace SschedSimulator

open Foundation

/-!
# `sb_qps.cc` — `SB_QPS_HalfHalf_MA` beside `SB_QPS_HalfHalf_Oblivious`

The README calls the two effectively the same.  They are not from the first packet on: in the first
slot of a batch `SB_QPS_HalfHalf_MA` accepts nothing, because its counters are zero, and in a later
one the first proposal it accepts gets every frame up to the current one, where the other scheduler
gives an input one frame in a slot.

* `Blank` — a scheduler that has not met a packet, and `blank_of_run`;
* `HalfHalfOblivious.qps_of_packet`, `MultiAccept.qps_of_packet` — what the first packet brings;
* `agree_iff_no_arrivals` — the two agree in every slot as long as nothing arrives, and no longer.
-/

namespace SbQps

variable {τ : Type} {n m : ℕ} {B : ℕ}

/-! ### Before the first packet -/

section

variable [BatchTables τ n m] {J K : ℕ → τ → Prop}

/-- A scheduler after `T` slots in which no packet arrived. -/
structure Blank (J : ℕ → τ → Prop) (B T : ℕ) (st : SbState τ n m) : Prop where
  time : st.cfRelTime = T
  sound : Sound J (T % B) st.toCore
  voqLength : ∀ i o, st.voq.voqLength i o = 0
  schedules : ∀ f i, st.schedules f i = none
  inMatch : ∀ i, st.inMatch i = none

/-- What a round does that has no packet. -/
def Rests (K J : ℕ → τ → Prop) (B : ℕ) (qps : ℕ → Core τ n m → Except Fault (Core τ n m)) : Prop :=
  ∀ t core, t < B → Sound K t core → (∀ i o, core.voq.voqLength i o = 0) →
    ∃ core', qps t core = .ok core' ∧ Sound J (t + 1) core' ∧ core'.schedules = core.schedules ∧
      core'.voq = core.voq

/-- The next slot begins with empty rows and the packets that arrive. -/
theorem Blank.enterSlot (hJ : BatchInvariant B J K) {T : ℕ} {st : SbState τ n m}
    (h : Blank J B T st) (sw : IQSwitch n m) :
    ∃ core, SbQps.enterSlot B sw st = .ok core ∧ Sound K (T % B) core ∧
      (∀ f i, core.schedules f i = none) ∧
      ∀ i o, core.voq.voqLength i o = sw.getArrivals.count (i, o) := by
  obtain ⟨core, hcore, hK, hentered⟩ := enterSlot_eq_ok hJ sw (by rw [h.time]; exact h.sound)
  rw [h.time] at hK
  refine ⟨core, hcore, hK, fun f i => ?_, fun i o => ?_⟩
  · rw [hentered.schedules, Function.update_apply]
    split
    · rfl
    · exact h.schedules f i
  · rw [hentered.voqLength, h.voqLength, zero_add]

/-- One more slot without arrivals. -/
theorem Blank.step {D : Type} {qps : D → ℕ → Core τ n m → Except Fault (Core τ n m)}
    (hJ : BatchInvariant B J K) (hB1 : 1 ≤ B) {draws : D} (hrest : Rests K J B (qps draws)) {T : ℕ}
    {sys : System (sbModel qps B)} (h : Blank J B T sys.scheduler)
    {channels : Fin n → List (Packet n m)} (hnone : ∀ i, channels i = []) :
    ∃ sys', switching (sbModel qps B) draws channels sys = .ok sys' ∧
      Blank J B (T + 1) sys'.scheduler := by
  have ht : T % B < B := Nat.mod_lt _ (by omega)
  obtain ⟨core, hcore, hK, hrows, harrive⟩ := h.enterSlot hJ (sys.switch.readInputs channels)
  -- No packet has arrived, and none arrives now.
  have hzero : ∀ i o, core.voq.voqLength i o = 0 := by
    intro i o
    rw [harrive, IQSwitch.readInputs_arrivals, arrivalsOf_eq_nil.mpr hnone]
    rfl
  obtain ⟨core', hqps, hJ', hsame, hvoq⟩ := hrest _ core ht hK hzero
  let mid : SbState τ n m := ⟨core', T, sys.scheduler.schedules (T % B)⟩
  have hcall : (sbModel qps B).schedule draws (sys.switch.readInputs channels) sys.scheduler
      = .ok (endSlot B mid) := by
    show schedule _ _ _ _ = _
    rw [schedule, slotRound, hcore, ok_bind, h.time, hqps]
    rfl
  have hmatch : IsMatching ((sbModel qps B).inMatch (endSlot B mid)) := by
    intro i i' o hi _
    cases (h.schedules (T % B) i).symm.trans hi
  obtain ⟨sys', hrun, hend, -⟩ := switching_eq_ok draws hcall hmatch
  refine ⟨sys', hrun, ?_⟩
  rw [hend]
  have hsound : Sound J (mid.cfRelTime % B + 1) mid.toCore := hJ'
  refine ⟨rfl, endSlot_sound hJ hB1 hsound, fun i o => ?_, fun f i => ?_, h.schedules (T % B)⟩
  · show core'.voq.voqLength i o = 0
    rw [hvoq, hzero]
  · rw [show (endSlot B mid).toCore.schedules = mid.schedules from endSlot_schedules B mid]
    show core'.schedules f i = none
    rw [hsame, hrows]

/-- The slot in which the first packet arrives, if it returns. -/
theorem Blank.next {D : Type} {qps : D → ℕ → Core τ n m → Except Fault (Core τ n m)}
    (hJ : BatchInvariant B J K) {draws : D} {T : ℕ} {sys sys' : System (sbModel qps B)}
    (h : Blank J B T sys.scheduler) {channels : Fin n → List (Packet n m)}
    (hsome : ¬ ∀ i, channels i = [])
    (hrun : switching (sbModel qps B) draws channels sys = .ok sys') :
    ∃ core core', Sound K (T % B) core ∧ (∀ f i, core.schedules f i = none) ∧
      (¬ ∀ i o, core.voq.voqLength i o = 0) ∧ qps draws (T % B) core = .ok core' ∧
      sys'.scheduler.schedules = core'.schedules := by
  obtain ⟨core, hcore, hK, hrows, harrive⟩ := h.enterSlot hJ (sys.switch.readInputs channels)
  obtain ⟨st, hst, hend⟩ := bind_eq_ok.mp (schedule_of_switching hrun)
  rw [slotRound, hcore, ok_bind, h.time] at hst
  obtain ⟨core', hqps, hst⟩ := bind_eq_ok.mp hst
  refine ⟨core, core', hK, hrows, fun hzero => hsome (arrivalsOf_eq_nil.mp ?_), hqps, ?_⟩
  · refine List.eq_nil_iff_forall_not_mem.mpr (fun p hp => ?_)
    have hcount := hzero p.1 p.2
    rw [harrive, IQSwitch.readInputs_arrivals, Int.natCast_eq_zero] at hcount
    exact List.count_eq_zero.mp hcount hp
  · rw [← Except.ok.inj hend, show (endSlot B st).toCore.schedules = st.schedules from
      endSlot_schedules B st, ← Except.ok.inj hst]

/-- A run without arrivals. -/
theorem blank_of_run {D : Type} {qps : D → ℕ → Core τ n m → Except Fault (Core τ n m)}
    (hJ : BatchInvariant B J K) (hB1 : 1 ≤ B) {draws : ℕ → D}
    (hrest : ∀ T, Rests K J B (qps (draws T))) {channels : ℕ → Fin n → List (Packet n m)}
    {sys : System (sbModel qps B)} (h : Blank J B 0 sys.scheduler) {T : ℕ}
    (hnone : ∀ T' < T, ∀ i, channels T' i = []) :
    ∃ sys', runSlots (sbModel qps B) draws channels sys T = .ok sys' ∧
      Blank J B T sys'.scheduler := by
  induction T with
  | zero => exact ⟨sys, rfl, h⟩
  | succ T ih =>
    obtain ⟨mid, hmid, hblank⟩ := ih (fun T' hT' => hnone T' (Nat.lt_succ_of_lt hT'))
    obtain ⟨next, hnext, hblank'⟩ := hblank.step hJ hB1 (hrest T) (hnone T (Nat.lt_succ_self T))
    exact ⟨next, by rw [runSlots, hmid, ok_bind, hnext], hblank'⟩

end

/-! ### `SB_QPS_HalfHalf_Oblivious` -/

namespace HalfHalfOblivious

variable {t : ℕ}

theorem rests (draws : TreeDraws n m) :
    Rests (fun t (r : Reservations n m) => r.Consistent B (t + 1))
      (fun k r => r.Consistent B k) B (qps B draws) := by
  intro t core ht h hzero
  have hnone : ∀ i, core.voq.getQueueLengthForInput i = 0 :=
    fun i => (h.voq.getQueueLengthForInput_eq_zero i).mpr (hzero i)
  have hskip : ∀ outs : List (Fin m), outs.foldlM (acceptOutput B t (fun _ => (none, none)))
      { toReservations := core.tables, virtualDepartures := [] }
        = .ok { toReservations := core.tables, virtualDepartures := [] } := by
    intro outs
    induction outs with
    | nil => rfl
    | cons out rest ih => rw [List.foldlM_cons, acceptOutput, ok_bind, ih]
  refine ⟨core, ?_, ⟨h.tables, h.voq⟩, rfl, rfl⟩
  rw [qps, propose_of_no_packets hnone, ok_bind, hskip]
  rfl

/-- A reservation of an earlier slot leaves the row of the slot as it is. -/
theorem fill_row (ht : t < bitmapWidth) (acc : PlainAccepting n m) (out : Fin m) (i : Fin n) :
    Post (acc.fill (earlierFrames t) out i) (fun _ => True)
      (fun acc' => acc'.schedules t = acc.schedules t) := by
  have hframes : ∀ f ∈ earlierFrames t, f < t := fun f hf => mem_earlierFrames.mp hf
  unfold PlainAccepting.fill
  rw [acc.firstFree_eq (fun f hf => (hframes f hf).trans ht), ok_bind]
  cases hc : (earlierFrames t).find? (fun f => !(acc.inFlag i f || acc.outFlag out f)) with
  | none => rfl
  | some f =>
    have hf : f < t := hframes f (List.mem_of_find?_eq_some hc)
    dsimp only
    unfold Reservations.reserve
    by_cases hcell : acc.schedules f i = none
    · rw [require_pos (hf.trans ht), ok_bind, require_pos hcell, ok_bind, ok_bind]
      exact update₂_row_of_ne _ hf.ne' ..
    · rw [require_pos (hf.trans ht), ok_bind, Foundation.require, if_neg hcell]
      trivial

/-- The row of the slot after one output: its first proposal is served there. -/
theorem acceptOutput_row (ht : t < bitmapWidth) (outAccepts : Fin m → TopTwo n)
    (acc : PlainAccepting n m) (out : Fin m) :
    Post (acceptOutput B t outAccepts acc out) (fun _ => True) (fun acc' =>
      ((outAccepts out).1 = none → acc'.schedules t = acc.schedules t) ∧
      ∀ i, (outAccepts out).1 = some i →
        acc'.schedules t = Function.update (acc.schedules t) i (some out)) := by
  unfold acceptOutput
  cases hfirst : (outAccepts out).1 with
  | none => exact ⟨fun _ => rfl, fun i hi => nomatch hi⟩
  | some i =>
    have hnow : ∀ j, some i = some j → (acc.toReservations.book t i out).schedules t
        = Function.update (acc.schedules t) j (some out) := by
      rintro j ⟨⟩
      exact Function.update_self ..
    dsimp only
    rw [PlainAccepting.serveNow, Reservations.assignNow_eq_ok _ ht, ok_bind, ok_bind]
    cases (outAccepts out).2 with
    | none => exact ⟨fun hn => absurd hn (Option.some_ne_none i), hnow⟩
    | some second =>
      dsimp only
      split
      · refine (fill_row ht _ out second).imp
          (fun acc' hacc' => ⟨fun hn => absurd hn (Option.some_ne_none i), ?_⟩)
        intro j hj
        rw [hacc']
        exact hnow j hj
      · exact ⟨fun hn => absurd hn (Option.some_ne_none i), hnow⟩

/-- An output with a proposal keeps one at the first place. -/
theorem foldl_keepTopTwo_ne_none (voqLength : Fin n → Fin m → ℤ) (out : Fin m)
    {ins : List (Fin n)} (h : ins ≠ []) (kept : TopTwo n) :
    (ins.foldl (fun k i => keepTopTwo voqLength i out k) kept).1 ≠ none := by
  obtain ⟨rest, i, hins⟩ := List.eq_nil_or_concat ins |>.resolve_left h
  rw [hins, List.concat_eq_append, List.foldl_append, List.foldl_cons, List.foldl_nil]
  unfold keepTopTwo
  split
  · exact Option.some_ne_none i
  · split
    · exact Option.some_ne_none i
    · split
      · exact Option.some_ne_none _
      · split <;> exact Option.some_ne_none _

/-- The first slot with a packet fills a cell of its row, and gives no pair two frames. -/
theorem qps_of_packet (hB : B ≤ bitmapWidth) {draws : TreeDraws n m} (ht : t < B)
    {core : Core (Reservations n m) n m}
    (h : Sound (fun t (r : Reservations n m) => r.Consistent B (t + 1)) t core)
    (hrows : ∀ f i, core.schedules f i = none)
    (hgood : draws.Good core.voq.bst core.voq.voqLength)
    (hpacket : ¬ ∀ i o, core.voq.voqLength i o = 0) :
    Post (qps B draws t core) (fun _ => True) (fun core' =>
      (∃ i o, core'.schedules t i = some o) ∧
      ∀ i o, ∀ f < B, ∀ f' < B, core'.schedules f i = some o → core'.schedules f' i = some o →
        f = f') := by
  have htw : t < bitmapWidth := by omega
  have hcell : Post (qps B draws t core) (fun _ => True)
      (fun core' => ∃ i o, core'.schedules t i = some o) := by
    obtain ⟨out, hprop⟩ := Availability.exists_proposer hgood h.voq hpacket
    unfold qps
    refine ((propose_post (keepTopTwo core.voq.voqLength) draws.shuffle.val
      (fun _ => (none, none))).mono (fun _ _ => trivial) (fun _ hacc => hacc)).bind ?_
    rintro outAccepts ⟨hkept, -⟩
    -- A cell is filled as soon as an output with a proposal has been passed.
    have hloop := Post.foldlM_rest (E := fun _ => True) (f := acceptOutput B t outAccepts)
      (fun rest acc => (∃ i o, acc.schedules t i = some o) ∨
        ∀ o, o ∉ rest → (outAccepts o).1 = none) (List.finRange m)
      { toReservations := core.tables, virtualDepartures := [] }
      (.inr (fun o ho => absurd (List.mem_finRange o) ho)) (fun o rest acc hacc => ?_)
    · refine hloop.bind (fun acc hacc => (Post.top _).bind (fun voq _ => ?_))
      rcases hacc with hfilled | hnone
      · exact hfilled
      · refine absurd (hnone out List.not_mem_nil) ?_
        rw [hkept]
        exact foldl_keepTopTwo_ne_none _ _ hprop _
    · refine (acceptOutput_row htw outAccepts acc o).imp ?_
      rintro acc' ⟨hsame, hserved⟩
      cases hfirst : (outAccepts o).1 with
      | some i =>
        refine .inl ⟨i, o, ?_⟩
        rw [hserved i hfirst, Function.update_self]
      | none =>
        refine hacc.imp (fun hfilled => by rwa [hsame hfirst]) (fun hnone p hp => ?_)
        by_cases hpo : p = o
        · rw [hpo, hfirst]
        · exact hnone p (by rw [List.mem_cons, not_or]; exact ⟨hpo, hp⟩)
  refine hcell.and_eq.imp ?_
  rintro core' ⟨hfilled, hrun⟩
  refine ⟨hfilled, fun i o f hf f' hf' hc hc' => ?_⟩
  obtain ⟨-, gs, hnodup, hext, -⟩ :=
    (qps_grants hB draws ht ⟨h.tables, h.voq⟩ (hrows t)).of_ok hrun
  -- The pair is granted at most once, so it has at most one cell.
  have hpending := hext.pending_eq i o
  rw [pending_eq_zero (fun g _ => hrows g i), Nat.zero_add] at hpending
  have hone : pending (Finset.range B) core'.schedules i o ≤ 1 :=
    hpending.trans_le (List.nodup_iff_count_le_one.mp hnodup (i, o))
  exact Finset.card_le_one.mp hone f (Finset.mem_filter.mpr ⟨Finset.mem_range.mpr hf, hc⟩) f'
    (Finset.mem_filter.mpr ⟨Finset.mem_range.mpr hf', hc'⟩)

end HalfHalfOblivious

/-! ### `SB_QPS_HalfHalf_MA` -/

namespace MultiAccept

open Availability

variable {t : ℕ} {sort : DescSort (Fin n)}

theorem rests {draws : ℕ → TreeDraws n m} (hvalid : ∀ k, (draws k).Valid) :
    Rests (fun t (b : Booking n m) => b.toReservations.Covers (t + 1) ∧ Idle t b)
      (fun k b => b.toReservations.Covers k ∧ Idle k b) B
      (qps HalfHalfMA.maxIters B sort draws) := by
  intro t core _ h hzero
  exact ⟨_, qps_of_quiet hvalid h.tables.2 h.voq (.inr hzero) rfl,
    ⟨⟨h.tables.1, h.tables.2.countUnmatched h.tables.1⟩, h.voq⟩, rfl, rfl⟩

/-- The first slot with a packet leaves the rows empty or gives two frames to one pair. -/
theorem qps_of_packet {draws : ℕ → TreeDraws n m} (hvalid : ∀ k, (draws k).Valid)
    {core : Core (Booking n m) n m}
    (h : Sound (fun t (b : Booking n m) => b.toReservations.Covers (t + 1) ∧ Idle t b) t core)
    (hrows : ∀ f i, core.schedules f i = none)
    (hpacket : ¬ ∀ i o, core.voq.voqLength i o = 0) :
    Post (qps HalfHalfMA.maxIters B sort draws t core) (fun _ => True) (fun core' =>
      (∀ f i, core'.schedules f i = none) ∨
      0 < t ∧ ∃ out i, ∀ f ≤ t, core'.schedules f i = some out) := by
  rcases Nat.eq_zero_or_pos t with rfl | hpos
  · rw [qps_of_quiet hvalid h.tables.2 h.voq (.inl rfl) rfl]
    exact .inl hrows
  · have hiteration : Post (iteration B sort draws t core 0) (fun _ => True)
        (fun core' => ∃ out i, ∀ f ≤ t, core'.schedules f i = some out) := by
      unfold iteration
      refine (accept_books hpos ((hvalid 0).good h.voq) h.tables.2.unused h.voq hpacket).bind
        (fun acc hacc => (Post.top _).bind (fun bst _ => ?_))
      obtain ⟨out, i, hbooked⟩ := hacc
      exact ⟨out, i, fun f hf => (hbooked f hf).1⟩
    exact hiteration.bind (fun core' hcells => .inr ⟨hpos, hcells⟩)

end MultiAccept

/-! ### The two in lock-step -/

/-- After `T` slots with the same arrivals, shuffles and draws, both schedulers have returned, hold
    the same rows and have dispatched the same matching. -/
def AgreeAt (B : ℕ) (sort : DescSort (Fin n)) (draws : ℕ → TreeDraws n m)
    (channels : ℕ → Fin n → List (Packet n m)) (sw : IQSwitch n m) (T : ℕ) : Prop :=
  ∃ obl ma, runSlots (HalfHalfOblivious.model n m B) draws channels
      ⟨sw, HalfHalfOblivious.initial⟩ T = .ok obl ∧
    runSlots (HalfHalfMA.model n m B sort) (fun T _ => draws T) channels
      ⟨sw, Availability.initial⟩ T = .ok ma ∧
    (∀ f < B, obl.scheduler.schedules f = ma.scheduler.schedules f) ∧
    obl.scheduler.inMatch = ma.scheduler.inMatch

variable {sort : DescSort (Fin n)} {draws : ℕ → TreeDraws n m}
  {channels : ℕ → Fin n → List (Packet n m)} {sw : IQSwitch n m} {T : ℕ}

/-- Without arrivals both schedulers do nothing. -/
theorem both_blank (sort : DescSort (Fin n)) (sw : IQSwitch n m) (hB1 : 1 ≤ B)
    (hvalid : ∀ T, (draws T).Valid) (hnone : ∀ T' < T, ∀ i, channels T' i = []) :
    ∃ obl ma, runSlots (HalfHalfOblivious.model n m B) draws channels
        ⟨sw, HalfHalfOblivious.initial⟩ T = .ok obl ∧
      runSlots (HalfHalfMA.model n m B sort) (fun T _ => draws T) channels
        ⟨sw, Availability.initial⟩ T = .ok ma ∧
      Blank (fun k (r : Reservations n m) => r.Consistent B k) B T obl.scheduler ∧
      Blank (fun k (b : Booking n m) => b.toReservations.Covers k ∧ MultiAccept.Idle k b) B T
        ma.scheduler := by
  have hobl₀ : Blank (fun k (r : Reservations n m) => r.Consistent B k) B 0
      (⟨sw, HalfHalfOblivious.initial⟩ : System (HalfHalfOblivious.model n m B)).scheduler :=
    ⟨rfl, by rw [Nat.zero_mod]; exact HalfHalfOblivious.sound_initial B, fun _ _ => rfl,
      fun _ _ => rfl, fun _ => rfl⟩
  have hma₀ : Blank (fun k (b : Booking n m) => b.toReservations.Covers k ∧ MultiAccept.Idle k b)
      B 0 (⟨sw, Availability.initial⟩ : System (HalfHalfMA.model n m B sort)).scheduler := by
    refine ⟨rfl, ?_, fun _ _ => rfl, fun _ _ => rfl, fun _ => rfl⟩
    rw [Nat.zero_mod]
    exact ⟨⟨(Reservations.tracks_empty _).toCovers, Reservations.empty_inFlag,
      Reservations.empty_outFlag, fun _ => rfl, fun _ => rfl⟩, VoqState.exact_empty⟩
  obtain ⟨obl, hobl, hblank⟩ := blank_of_run (batchInvariant_consistent B) hB1
    (fun T => HalfHalfOblivious.rests (draws T)) hobl₀ hnone
  obtain ⟨ma, hma, hblank'⟩ := blank_of_run (MultiAccept.batchInvariant_idle B) hB1
    (fun T => MultiAccept.rests (fun _ => hvalid T)) hma₀ hnone
  exact ⟨obl, ma, hobl, hma, hblank, hblank'⟩

/-- They part at the first slot in which a packet arrives. -/
theorem not_agreeAt_succ (hB1 : 1 ≤ B) (hB : B ≤ bitmapWidth) (hvalid : ∀ T, (draws T).Valid)
    (hnone : ∀ T' < T, ∀ i, channels T' i = []) (hsome : ¬ ∀ i, channels T i = []) :
    ¬ AgreeAt B sort draws channels sw (T + 1) := by
  rintro ⟨obl', ma', hobl', hma', hrows, -⟩
  have ht : T % B < B := Nat.mod_lt _ (by omega)
  obtain ⟨obl, ma, hobl, hma, hblank, hblank'⟩ := both_blank sort sw hB1 hvalid hnone
  rw [runSlots, hobl, ok_bind] at hobl'
  rw [runSlots, hma, ok_bind] at hma'
  obtain ⟨core, coreO, hK, hempty, hpacket, hqps, hobl'⟩ :=
    hblank.next (batchInvariant_consistent B) hsome hobl'
  obtain ⟨core', coreM, hK', hempty', hpacket', hqps', hma'⟩ :=
    hblank'.next (MultiAccept.batchInvariant_idle B) hsome hma'
  obtain ⟨⟨i, o, hcell⟩, honce⟩ := (HalfHalfOblivious.qps_of_packet hB ht hK hempty
    ((hvalid T).good hK.voq) hpacket).of_ok hqps
  rw [hobl', hma'] at hrows
  rcases (MultiAccept.qps_of_packet (fun _ => hvalid T) hK' hempty' hpacket').of_ok hqps' with
    hnothing | ⟨hpos, out, j, hcells⟩
  · -- The first slot of a batch: one books, the other does not.
    rw [hrows _ ht, hnothing] at hcell
    cases hcell
  · -- A later slot: one pair has two frames, which the other never gives.
    have hzero := honce j out 0 (by omega) (T % B) ht
      (by rw [hrows 0 (by omega)]; exact hcells 0 (Nat.zero_le _))
      (by rw [hrows _ ht]; exact hcells _ (le_refl _))
    omega

/-- On the same arrivals and the same shuffles and draws of positive count, for the first `N` slots:
    the two schedulers fill the same rows and dispatch the same matchings in every slot if and only
    if no packet arrives. -/
theorem agree_iff_no_arrivals (hB1 : 1 ≤ B) (hB : B ≤ bitmapWidth) (sort : DescSort (Fin n))
    {draws : ℕ → TreeDraws n m} (hvalid : ∀ T, (draws T).Valid)
    (channels : ℕ → Fin n → List (Packet n m)) (sw : IQSwitch n m) (N : ℕ) :
    (∀ T ≤ N, AgreeAt B sort draws channels sw T) ↔ ∀ T < N, ∀ i, channels T i = [] := by
  constructor
  · intro hagree T
    induction T using Nat.strong_induction_on with
    | _ T ih =>
      intro hT
      by_contra hsome
      exact not_agreeAt_succ hB1 hB hvalid (fun T' hT' => ih T' hT' (hT'.trans hT)) hsome
        (hagree (T + 1) hT)
  · intro hnone T hT
    obtain ⟨obl, ma, hobl, hma, hblank, hblank'⟩ :=
      both_blank sort sw hB1 hvalid (fun T' hT' => hnone T' (hT'.trans_le hT))
    refine ⟨obl, ma, hobl, hma, fun f _ => funext (fun i => ?_), funext (fun i => ?_)⟩
    · rw [hblank.schedules, hblank'.schedules]
    · rw [hblank.inMatch, hblank'.inMatch]

/-- Three slots without packets. -/
theorem agreeAt_of_no_packets :
    AgreeAt 2 DescSort.insertion (fun _ => inOrderDraws 2 2 (1 / 2)) (fun _ _ => [])
      (IQSwitch.empty 2 2) 3 :=
  (agree_iff_no_arrivals (by decide) (by decide) DescSort.insertion
    (fun _ => valid_inOrderDraws 2 2 (by norm_num) (by norm_num)) (fun _ _ => [])
    (IQSwitch.empty 2 2) 3).mpr (fun _ _ _ => rfl) 3 (le_refl 3)

/-- With `B = 1` a single packet, which arrives in the first slot, is dispatched by
    `SB_QPS_HalfHalf_Oblivious` in the second; `SB_QPS_HalfHalf_MA` dispatches nothing. -/
theorem not_agreeAt_of_packet :
    let draws : ℕ → TreeDraws 2 2 := fun _ => inOrderDraws 2 2 (1 / 2)
    let channels : ℕ → Fin 2 → List (Packet 2 2) :=
      fun T => if T = 0 then packetsFor 0 ![1, 0] else fun _ => []
    ∃ obl ma, runSlots (HalfHalfOblivious.model 2 2 1) draws channels
        ⟨IQSwitch.empty 2 2, HalfHalfOblivious.initial⟩ 2 = .ok obl ∧
      runSlots (HalfHalfMA.model 2 2 1 DescSort.insertion) (fun T _ => draws T) channels
        ⟨IQSwitch.empty 2 2, Availability.initial⟩ 2 = .ok ma ∧
      (obl.scheduler.inMatch 0 = some 0 ∧ ma.scheduler.inMatch 0 = none) ∧
      ¬ AgreeAt 1 DescSort.insertion draws channels (IQSwitch.empty 2 2) 2 := by
  intro draws channels
  obtain ⟨obl, hobl, hsome⟩ := exists_of_returns
    (x := runSlots (HalfHalfOblivious.model 2 2 1) draws channels
      ⟨IQSwitch.empty 2 2, HalfHalfOblivious.initial⟩ 2)
    (p := fun sys => decide (sys.scheduler.inMatch 0 = some 0)) (by decide +kernel)
  obtain ⟨ma, hma, hnone⟩ := exists_of_returns
    (x := runSlots (HalfHalfMA.model 2 2 1 DescSort.insertion) (fun T _ => draws T) channels
      ⟨IQSwitch.empty 2 2, Availability.initial⟩ 2)
    (p := fun sys => decide (sys.scheduler.inMatch 0 = none)) (by decide +kernel)
  have hcells := And.intro (of_decide_eq_true hsome) (of_decide_eq_true hnone)
  refine ⟨obl, ma, hobl, hma, hcells, ?_⟩
  rintro ⟨obl', ma', hobl', hma', -, hsame⟩
  obtain rfl := Except.ok.inj (hobl.symm.trans hobl')
  obtain rfl := Except.ok.inj (hma.symm.trans hma')
  rw [hsame, hcells.2] at hcells
  cases hcells.1

end SbQps

end SschedSimulator
