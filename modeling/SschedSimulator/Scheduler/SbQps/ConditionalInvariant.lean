import Mathlib.Data.Fin.VecNotation
import SschedSimulator.Scheduler.SbQps.Conditional

namespace SschedSimulator

open Foundation

/-!
# `SB_QPS_Conditional` — no frame is booked twice, and no packet that does not exist

Every row is written by `match()`, which is called only when the bits of both ports are clear at
the frame and the queue holds a packet; then it takes the packet out of the queue.  Why each caller
knows this is the content of this file:

* `proposeAll_post` — in a round, the input has just sampled the output, and no other output has
  matched it meanwhile (`qps_post`);
* `fillFrame` tests the input and the queue, and the frames it is called with are those at which the
  output was free, each one once (`fillOutput_post`).  It does not matter which inputs are approved,
  or how old the approvals are;
* `invariant_of_run` — the rows, the bits, the counters and the queues agree at every point between
  two calls of `match()`, and the queues of the switch are accounted for.
-/

namespace SbQps.Conditional

variable {n : ℕ}

/-! ### The invariant -/

/-- The tables are consistent, with the first `k` rows rewritten, and no queue is negative. -/
structure Agrees (B k : ℕ) (s : Members n) : Prop where
  booking : s.toBooking.Consistent B B k
  nonneg : ∀ i o, 0 ≤ s.inputQueues i o

/-- The packets from `i` to `o` that the scheduler accounts for. -/
def held (B : ℕ) (s : Members n) (i o : Fin n) : ℤ :=
  (s.inputQueues i).getPacketNumber o + pending (Finset.range B) s.schedules i o

/-- During a slot: the members have agreed at every point so far, and what is held is `H`. -/
structure During (B k : ℕ) (H : Fin n → Fin n → ℤ) (w : Working n) : Prop where
  now : Agrees B k w.toMembers
  held : ∀ i o, held B w.toMembers i o = H i o
  before : ∀ s ∈ w.between, Agrees B k s

variable {B k t : ℕ} {H : Fin n → Fin n → ℤ}

/-- A call of `match()` at a frame that is free for both ports, with a packet in the queue. -/
theorem matchPorts_eq_ok (hk : k ≤ B) (hB : B ≤ bitmapWidth) {w : Working n} (h : During B k H w)
    (ht : t < k) {i o : Fin n} (hi : w.inFlag i t = false) (ho : w.outFlag o t = false)
    (hpos : 0 < w.inputQueues i o) :
    ∃ w', matchPorts i o t w = .ok w' ∧ During B k H w' ∧
      w'.toBooking = w.toBooking.take t i o ∧
      w'.inputQueues = update₂ w.inputQueues i o (w.inputQueues i o - 1) := by
  let s : Members n :=
    { toBooking := w.toBooking.take t i o
      inputQueues := update₂ w.inputQueues i o (w.inputQueues i o - 1)
      conditionalApprovals := w.conditionalApprovals }
  have hcell : w.schedules t i = none := h.now.booking.covers.cell_eq_none ht hi
  have hrun : matchPorts i o t w = .ok { toMembers := s, between := w.between ++ [s] } := by
    rw [matchPorts, w.toBooking.reserve_eq_ok (by omega) hcell, ok_bind,
      QueueSampler.removeItem_eq_ok hpos, ok_bind]
    rfl
  have hagrees : Agrees B k s := by
    refine ⟨h.now.booking.take (by omega) ht (by omega) hi ho, fun i' o' => ?_⟩
    show 0 ≤ update₂ w.inputQueues i o (w.inputQueues i o - 1) i' o'
    rw [update₂_apply]
    split
    · omega
    · exact h.now.nonneg i' o'
  refine ⟨_, hrun, ⟨hagrees, fun i' o' => ?_, fun s' hs' => ?_⟩, rfl, rfl⟩
  · -- The packet moves from the queue to the row.
    rw [← h.held i' o']
    unfold Conditional.held QueueSampler.getPacketNumber
    show update₂ w.inputQueues i o (w.inputQueues i o - 1) i' o'
      + (pending (Finset.range B) (update₂ w.schedules t i (some o)) i' o' : ℤ)
      = w.inputQueues i' o' + pending (Finset.range B) w.schedules i' o'
    rw [show w.inputQueues i o - 1 = w.inputQueues i o + -1 from rfl, update₂_add,
      pending_update₂ (Finset.mem_range.mpr (by omega)) _ _ _ _ _ hcell]
    split <;> push_cast <;> omega
  · rcases List.mem_append.mp hs' with hs' | hs'
    · exact h.before s' hs'
    · rw [List.mem_singleton.mp hs']
      exact hagrees

/-! ### A round at one frame -/

/-- An input that may be served by `out` at the frame: it is not matched there and has a packet. -/
def Ready (w : Members n) (t : ℕ) (i out : Fin n) : Prop :=
  w.inFlag i t = false ∧ 0 < w.inputQueues i out

/-- Step 1: every entry of the queue of `out` is an input that is ready for it and sampled it. -/
theorem proposeAll_post (ht : t < bitmapWidth) {c : RoundChoices n} (hc : c.Valid) {s : Members n}
    (h0 : ∀ i o, 0 ≤ s.inputQueues i o) :
    Post (proposeAll c t s) (fun _ => False) (fun outAccepts => ∀ out i pri,
      (some i, pri) ∈ outAccepts out →
      c.sample i (s.inputQueues i) = some out ∧ Ready s t i out) := by
  unfold proposeAll
  refine Post.foldlM (I := fun outAccepts : Fin n → LinearPriorityQueue (Fin n) => ∀ out i pri,
    (some i, pri) ∈ outAccepts out → c.sample i (s.inputQueues i) = some out ∧ Ready s t i out)
    ?_ ?_
  · intro out i pri hmem
    cases List.eq_of_mem_replicate hmem
  · intro j _ outAccepts hacc
    unfold proposeStep
    split
    · exact hacc
    · rename_i hlen
      unfold testBit
      rw [require_pos ht, ok_bind, ok_bind]
      cases hbit : (s.inputMatchBitmap j).test t with
      | true => exact hacc
      | false =>
        obtain ⟨o, hsample, hpos⟩ := hc j (s.inputQueues j) (h0 j) hlen
        rw [if_neg Bool.false_ne_true, hsample]
        dsimp only
        rw [require_pos hpos, ok_bind]
        intro out i pri hmem
        -- what is in the queue of `o` was there before, or is the new proposal
        by_cases hout : out = o
        · subst hout
          rw [Function.update_self] at hmem
          rcases LinearPriorityQueue.mem_insert hmem with heq | hmem
          · obtain ⟨hij, -⟩ := Prod.mk.inj heq
            rw [Option.some.inj hij]
            exact ⟨hsample, hbit, hpos⟩
          · exact hacc out i pri hmem
        · rw [Function.update_of_ne hout] at hmem
          exact hacc out i pri hmem

/-- Remembering an approval changes nothing that the invariant speaks of. -/
theorem During.approve {w : Working n} (h : During B k H w) (t : ℕ) (out i : Fin n) :
    During B k H (approve t out i w) where
  now := ⟨h.now.booking, h.now.nonneg⟩
  held := h.held
  before := h.before

/-- One output: afterwards, an input that sampled another output is as ready for it as before. -/
theorem acceptStep_post (hk : k ≤ B) (hB : B ≤ bitmapWidth) (ht : t < k)
    {outAccepts : Fin n → LinearPriorityQueue (Fin n)} {sample : Fin n → Option (Fin n)}
    (hsample : ∀ out i pri, (some i, pri) ∈ outAccepts out → sample i = some out) {w : Working n}
    (h : During B k H w) {out : Fin n}
    (hready : ∀ i pri, (some i, pri) ∈ outAccepts out → Ready w.toMembers t i out) :
    Post (acceptStep t outAccepts w out) (fun _ => False) (fun w' => During B k H w' ∧
      ∀ i o, sample i = some o → o ≠ out → Ready w.toMembers t i o → Ready w'.toMembers t i o) := by
  unfold acceptStep
  cases hfirst : (outAccepts out).value 0 with
  | none => exact ⟨h, fun _ _ _ _ hr => hr⟩
  | some i =>
    obtain ⟨pri, hmem⟩ := LinearPriorityQueue.mem_of_value_eq_some hfirst
    obtain ⟨hi, hpos⟩ := hready i pri hmem
    dsimp only
    unfold testBit
    rw [require_pos (by omega), ok_bind, ok_bind]
    cases hused : (w.outputMatchBitmap out).test t with
    -- An approval is remembered, and nothing is matched.
    | true => exact ⟨h.approve t out i, fun _ _ _ _ hr => hr⟩
    | false =>
      obtain ⟨w', hrun, hw', hbook, hqueue⟩ := matchPorts_eq_ok hk hB h ht hi hused hpos
      have hother : ∀ j o, sample j = some o → o ≠ out → Ready w.toMembers t j o →
          Ready w'.toMembers t j o := by
        intro j o hj ho hr
        -- `i` sampled `out`, so `j` is another input.
        have hne : j ≠ i := by
          intro he
          subst he
          exact ho (Option.some.inj (hj.symm.trans (hsample out j pri hmem)))
        constructor
        · show w'.toBooking.toReservations.inFlag j t = false
          rw [hbook]
          exact (congrFun (w.book_inFlag_of_ne t out hne) t).trans hr.1
        · rw [hqueue, update₂_row_of_ne _ hne]
          exact hr.2
      rw [if_neg Bool.false_ne_true, hrun, ok_bind]
      cases (outAccepts out).value 1 with
      | none => exact ⟨hw', hother⟩
      | some j => exact ⟨hw'.approve t out j, hother⟩

/-- A round at a live frame. -/
theorem qps_post (hk : k ≤ B) (hB : B ≤ bitmapWidth) (ht : t < k) {c : RoundChoices n}
    (hc : c.Valid) {w : Working n} (h : During B k H w) :
    Post (qps c t w) (fun _ => False) (During B k H) := by
  unfold qps
  refine (proposeAll_post (by omega) hc h.now.nonneg).bind (fun outAccepts hacc => ?_)
  have hsample : ∀ out i pri, (some i, pri) ∈ outAccepts out →
      c.sample i (w.inputQueues i) = some out := fun out i pri hmem => (hacc out i pri hmem).1
  -- The proposals to the outputs still to come are as good as when they were made.
  refine (Post.foldlM_rest (fun rest (w' : Working n) => rest.Nodup ∧ During B k H w' ∧
    ∀ out ∈ rest, ∀ i pri, (some i, pri) ∈ outAccepts out → Ready w'.toMembers t i out)
    (List.finRange n) w
    ⟨List.nodup_finRange n, h, fun out _ i pri hmem => (hacc out i pri hmem).2⟩ ?_).imp
    (fun _ hw' => hw'.2.1)
  rintro out rest w' ⟨hnodup, hw', hready⟩
  obtain ⟨hout, hrest⟩ := List.nodup_cons.mp hnodup
  refine (acceptStep_post hk hB ht hsample hw' (hready out (List.mem_cons_self ..))).imp ?_
  rintro w'' ⟨hw'', hkeep⟩
  refine ⟨hrest, hw'', fun o ho i pri hmem => ?_⟩
  exact hkeep i o (hsample o i pri hmem) (fun he => hout (he ▸ ho))
    (hready o (List.mem_cons_of_mem _ ho) i pri hmem)

/-! ### Filling free frames from approvals -/

/-- With at most `2 ^ 31` frames the conversions of the difference lose nothing. -/
theorem extraFreeTime_eq {free approvals : ℕ} (h : approvals ≤ free) (hfree : free < 2 ^ 31) :
    intOfSize (extraFreeTime free approvals) = (free - approvals : ℕ) := by
  have hextra : extraFreeTime free approvals = free - approvals := by
    unfold extraFreeTime
    omega
  have hmod : (free - approvals) % 2 ^ 32 = free - approvals := Nat.mod_eq_of_lt (by omega)
  rw [hextra, intOfSize, hmod, if_pos (by omega)]

/-- As many ports are repeated as the loop says. -/
theorem length_repeated (draw : ℕ → ℕ) {approvals : List (Fin n)} (h : approvals ≠ []) (count : ℕ) :
    (repeated draw approvals count).length = count := by
  have hpos : 0 < approvals.length := List.length_pos_of_ne_nil h
  unfold repeated
  induction count with
  | zero => rfl
  | succ count ih =>
    have hlt := Nat.mod_lt (draw count) hpos
    rw [List.range_succ, List.filterMap_append, List.length_append, ih,
      List.filterMap_cons, List.getElem?_eq_getElem hlt]
    rfl

/-- One port and one frame at which the output is free. -/
theorem fillFrame_post (hB : B ≤ bitmapWidth) {w : Working n} (h : During B B H w) {out : Fin n}
    (p : Fin n × ℕ) (hp : p.2 < B) (hout : w.outFlag out p.2 = false) :
    Post (fillFrame out w p) (fun _ => False) (fun w' => During B B H w' ∧
      ∀ t, t ≠ p.2 → w'.outFlag out t = w.outFlag out t) := by
  unfold fillFrame testBit
  rw [require_pos (by omega), ok_bind, ok_bind]
  split
  · rename_i hcond
    obtain ⟨w', hrun, hw', hbook, -⟩ :=
      matchPorts_eq_ok (le_refl B) hB h hp hcond.1 hout hcond.2
    rw [hrun]
    refine ⟨hw', fun t ht => ?_⟩
    show w'.toBooking.toReservations.outFlag out t = _
    rw [hbook]
    exact w.book_outFlag_of_frame_ne (by omega) p.1 out out ht
  · exact ⟨h, fun _ _ => rfl⟩

/-- Any ports and distinct frames at which the output is free. -/
theorem fillFrames_post (hB : B ≤ bitmapWidth) {w : Working n} (h : During B B H w) {out : Fin n}
    {pairs : List (Fin n × ℕ)} (hnodup : (pairs.map Prod.snd).Nodup)
    (hfree : ∀ t ∈ pairs.map Prod.snd, t < B ∧ w.outFlag out t = false) :
    Post (pairs.foldlM (fillFrame out) w) (fun _ => False) (During B B H) := by
  -- The frames still to come are distinct and free for `out`.
  refine (Post.foldlM_rest (fun rest (w' : Working n) => During B B H w' ∧
    (rest.map Prod.snd).Nodup ∧ ∀ t ∈ rest.map Prod.snd, t < B ∧ w'.outFlag out t = false)
    _ w ⟨h, hnodup, hfree⟩ ?_).imp (fun _ hw' => hw'.1)
  rintro p rest w' ⟨hw', hnodup', hall⟩
  rw [List.map_cons, List.nodup_cons] at hnodup'
  obtain ⟨hp, hbit⟩ := hall p.2 (List.mem_cons_self ..)
  refine (fillFrame_post hB hw' p hp hbit).imp ?_
  rintro w'' ⟨hw'', hsame⟩
  refine ⟨hw'', hnodup'.2, fun t ht => ?_⟩
  obtain ⟨htB, htbit⟩ := hall t (List.mem_cons_of_mem _ ht)
  exact ⟨htB, by rw [hsame t (fun he => hnodup'.1 (he ▸ ht)), htbit]⟩

/-- The ports that approve, with the repeated ones, are enough for the free frames. -/
theorem free_le_ports (draw : ℕ → ℕ) {free approvals : ℕ} {ports : List (Fin n)}
    (hne : ports ≠ []) (hlen : ports.length = approvals) (hfree : free < 2 ^ 31) :
    free ≤ (ports ++ repeated draw ports
      (intOfSize (extraFreeTime free approvals)).toNat).length := by
  rw [List.length_append, length_repeated _ hne, hlen]
  rcases Nat.le_total approvals free with hle | hge
  · rw [extraFreeTime_eq hle hfree, Int.toNat_natCast]
    omega
  · omega

/-- One output: whatever inputs are approved, it is matched only where it was free. -/
theorem fillOutput_post (hB : B ≤ bitmapWidth) (c : FillChoices n) {w : Working n}
    (h : During B B H w) (out : Fin n) :
    Post (fillOutput B c w out) (fun _ => False) (During B B H) := by
  unfold fillOutput
  rw [require_pos hB, ok_bind]
  split
  · exact h
  · rename_i hne
    have hperm := (c.approvals out).property (approvalPorts B w out)
    generalize (c.approvals out).val (approvalPorts B w out) = shuffled at hperm
    have hshuffled : shuffled ≠ [] := by
      intro hnil
      rw [hnil] at hperm
      exact hne hperm.nil_eq.symm
    have hfree : (freeTimeSlots B w out).length ≤ B := by
      unfold freeTimeSlots
      exact (List.length_filter_le _ _).trans (List.length_range).le
    have henough := free_le_ports (c.draw out) hshuffled rfl
      (lt_of_le_of_lt (hfree.trans hB) (by decide) : (freeTimeSlots B w out).length < 2 ^ 31)
    dsimp only
    rw [require_pos henough, ok_bind]
    refine fillFrames_post hB h ?_ (fun t ht => ?_)
    · rw [List.map_snd_zip henough]
      exact List.nodup_range.filter _
    · rw [List.map_snd_zip henough] at ht
      obtain ⟨hmem, hbit⟩ := List.mem_filter.mp ht
      exact ⟨List.mem_range.mp hmem, by simpa using hbit⟩

theorem endOfBatchOptimization_post (hB : B ≤ bitmapWidth) (c : FillChoices n) {w : Working n}
    (h : During B B H w) :
    Post (endOfBatchOptimization B c w) (fun _ => False) (During B B H) := by
  rw [endOfBatchOptimization, require_pos (le_refl n), ok_bind]
  exact Post.foldlM h (fun out _ _ hw' => fillOutput_post hB c hw' out)

/-! ### A slot -/

/-- The rounds of a slot. -/
theorem rounds_post (hB : B ≤ bitmapWidth) (numIterations : ℕ) (ht : t < B) {c : Choices n}
    (hc : ∀ r f, (c.qps r f).Valid) {w : Working n} (h : During B (t + 1) H w) :
    Post (rounds B numIterations c t w) (fun _ => False) (During B (t + 1) H) := by
  unfold rounds
  refine (qps_post (by omega : t + 1 ≤ B) hB (Nat.lt_succ_self t) (hc 1 t) h).bind
    (fun w₁ h₁ => ?_)
  split
  · -- In the last slot all rows are rewritten.
    rename_i hlast
    obtain rfl : B = t + 1 := by omega
    refine (endOfBatchOptimization_post hB (c.fill 1) h₁).bind (fun w₂ h₂ => ?_)
    refine Post.foldlM h₂ (fun r _ w₃ h₃ => ?_)
    unfold laterRound
    refine (Post.foldlM h₃ (fun f hf w₄ h₄ => ?_)).bind
      (fun w₅ h₅ => endOfBatchOptimization_post hB (c.fill r) h₅)
    exact qps_post (le_refl _) hB (List.mem_range.mp hf) (hc r f) h₄
  · exact h₁

/-- The start of a slot: its row becomes one of those rewritten. -/
theorem agrees_enterSlot {st : State n} (h : Agrees B (st.cfRelTime % B) st.toMembers)
    (sw : IQSwitch n n) : Agrees B (st.cfRelTime % B + 1) (enterSlot B sw st) where
  booking := ⟨h.booking.toConsistent.clearRow, h.booking.inputAvailable, h.booking.outputAvailable⟩
  nonneg := by
    intro i o
    show 0 ≤ addArrivals st.inputQueues sw.getArrivals i o
    rw [addArrivals_apply]
    exact add_nonneg (h.nonneg i o) (Int.natCast_nonneg _)

/-- The start of a slot adds the arrivals to what is held and takes away the row copied out. -/
theorem held_enterSlot (hB1 : 1 ≤ B) (sw : IQSwitch n n) (st : State n) (i o : Fin n) :
    held B (enterSlot B sw st) i o + (if st.schedules (st.cfRelTime % B) i = some o then 1 else 0)
      = held B st.toMembers i o + sw.getArrivals.count (i, o) := by
  have ht : st.cfRelTime % B ∈ Finset.range B := Finset.mem_range.mpr (Nat.mod_lt _ (by omega))
  have hclear := pending_clear ht st.schedules i o
  unfold held QueueSampler.getPacketNumber
  show addArrivals st.inputQueues sw.getArrivals i o + (pending (Finset.range B)
    (Function.update st.schedules (st.cfRelTime % B) (fun _ => none)) i o : ℤ) + _ = _
  rw [addArrivals_apply]
  omega

/-- `resetBitmap` makes none of the rows count as rewritten. -/
theorem agrees_resetBitmap {s : Members n} (h : Agrees B B s) : Agrees B 0 (resetBitmap B s) where
  booking :=
    ⟨h.booking.toConsistent.resetBitmap,
      fun i => by
        show (B : ℤ) = freeFrames (Finset.range B) (s.toReservations.resetBitmap.inFlag i)
        simp [freeFrames],
      fun o => by
        show (B : ℤ) = freeFrames (Finset.range B) (s.toReservations.resetBitmap.outFlag o)
        simp [freeFrames]⟩
  nonneg := h.nonneg

/-- A call of `schedule` returns; the members agree at every point of it and in the end. -/
theorem schedule_post (hB1 : 1 ≤ B) (hB : B ≤ bitmapWidth) (numIterations : ℕ) {c : Choices n}
    (hc : ∀ r f, (c.qps r f).Valid) (sw : IQSwitch n n) {st : State n}
    (h : Agrees B (st.cfRelTime % B) st.toMembers) :
    Post (schedule B numIterations c sw st) (fun _ => False) (fun st' =>
      Agrees B (st'.cfRelTime % B) st'.toMembers ∧
      (∀ s ∈ st'.between, Agrees B (st.cfRelTime % B + 1) s) ∧
      st'.inMatch = st.schedules (st.cfRelTime % B) ∧
      ∀ i o, held B st'.toMembers i o = held B (enterSlot B sw st) i o) := by
  have ht : st.cfRelTime % B < B := Nat.mod_lt _ (by omega)
  have hentered := agrees_enterSlot h sw
  unfold schedule
  refine (rounds_post (H := held B (enterSlot B sw st)) hB numIterations ht hc
    ⟨hentered, fun _ _ => rfl, fun s hs => ?_⟩).bind ?_
  · rw [List.mem_singleton.mp hs]
    exact hentered
  · intro w hw
    refine ⟨?_, hw.before, rfl, fun i o => ?_⟩
    · show Agrees B ((st.cfRelTime + 1) % B) (if _ then _ else _)
      -- after the last slot of a batch nothing is reserved any more
      rw [← Nat.mod_add_mod]
      split
      · rename_i hlast
        have hk : st.cfRelTime % B + 1 = B := by omega
        have hnow := hw.now
        rw [hk] at hnow
        rw [hk, Nat.mod_self]
        exact agrees_resetBitmap hnow
      · rename_i hlast
        rw [Nat.mod_eq_of_lt (by omega)]
        exact hw.now
    · rw [← hw.held i o]
      dsimp only
      split <;> rfl

/-! ### Runs -/

/-- What holds at every point between two calls of `match()`, when the first `k` rows are rewritten
    for the batch being filled. -/
structure BetweenMatches (B k : ℕ) (s : Members n) : Prop where
  matching : ∀ f < B, IsMatching (s.schedules f)
  inputBit : ∀ i, ∀ f < k, s.inFlag i f = true ↔ ∃ o, s.schedules f i = some o
  outputBit : ∀ o, ∀ f < k, s.outFlag o f = true ↔ ∃ i, s.schedules f i = some o
  inputAvailability : ∀ i, s.inputAvailability i
    = B - ((Finset.range bitmapWidth).filter (fun f => s.inFlag i f = true)).card
  outputAvailability : ∀ o, s.outputAvailability o
    = B - ((Finset.range bitmapWidth).filter (fun f => s.outFlag o f = true)).card
  nonneg : ∀ i o, 0 ≤ (s.inputQueues i).getPacketNumber o

/-- The frames that are free and the bits that are set make up the batch. -/
theorem freeFrames_add_card (hB : B ≤ bitmapWidth) {flag : ℕ → Bool}
    (hlive : ∀ f, flag f = true → f < B) :
    freeFrames (Finset.range B) flag
      + ((Finset.range bitmapWidth).filter (fun f => flag f = true)).card = B := by
  have hset : (Finset.range bitmapWidth).filter (fun f => flag f = true)
      = (Finset.range B).filter (fun f => ¬ flag f = false) := by
    ext f
    rw [Finset.mem_filter, Finset.mem_filter, Finset.mem_range, Finset.mem_range, Bool.not_eq_false]
    constructor
    · exact fun h => ⟨hlive f h.2, h.2⟩
    · exact fun h => ⟨lt_of_lt_of_le h.1 hB, h.2⟩
  unfold freeFrames
  rw [hset, Finset.card_filter_add_card_filter_not, Finset.card_range]

theorem Agrees.betweenMatches {s : Members n} (h : Agrees B k s) (hk : k ≤ B)
    (hB : B ≤ bitmapWidth) : BetweenMatches B k s where
  matching := h.booking.matching
  inputBit := by
    intro i f hf
    rw [← Option.ne_none_iff_exists']
    exact h.booking.toTracks.inFlag_iff hf i
  outputBit := fun o _ hf => h.booking.toTracks.outFlag_iff hf o
  inputAvailability := by
    intro i
    have hlive : ∀ f, s.inFlag i f = true → f < B :=
      fun f hbit => lt_of_lt_of_le (h.booking.inputLive hbit) hk
    have hcount := freeFrames_add_card hB hlive
    rw [h.booking.inputAvailable i]
    omega
  outputAvailability := by
    intro o
    have hlive : ∀ f, s.outFlag o f = true → f < B :=
      fun f hbit => lt_of_lt_of_le (h.booking.outputLive hbit) hk
    have hcount := freeFrames_add_card hB hlive
    rw [h.booking.outputAvailable o]
    omega
  nonneg := h.nonneg

/-- `schedule()` conserves packets when every sample names a queue with a packet. -/
theorem conserves (hB1 : 1 ≤ B) (hB : B ≤ bitmapWidth) (numIterations : ℕ) :
    Conserves (model n B numIterations) (fun c _ _ => ∀ r f, (c.qps r f).Valid)
      (fun st => Agrees B (st.cfRelTime % B) st.toMembers) (fun st => held B st.toMembers)
      (fun _ _ _ _ => False) where
  post := by
    intro c sw st hagrees hc
    have ht : st.cfRelTime % B < B := Nat.mod_lt _ (by omega)
    refine (schedule_post hB1 hB numIterations hc sw hagrees).imp ?_
    rintro st' ⟨hagrees', -, hcopy, hheld⟩
    refine ⟨hagrees', fun hne => hne ?_, fun i o => ⟨?_, ?_⟩⟩
    · show IsMatching st'.inMatch
      rw [hcopy]
      exact hagrees.booking.matching _ ht
    · exact add_nonneg (hagrees'.nonneg i o) (Int.natCast_nonneg _)
    · show _ + (if st'.inMatch i = some o then 1 else 0) = _
      rw [hheld, hcopy]
      exact held_enterSlot hB1 sw st i o

/-- In every run of an initially empty switch, whatever the shuffles and with samples of positive
    count: between two slots, the rows, bits, counters and queues agree and every queue of the
    switch holds the packets in the sampler and those promised to pending rows; and the next slot
    returns, with the same agreement at every point between two calls of `match()`. -/
theorem invariant_of_run (hB1 : 1 ≤ B) (hB : B ≤ bitmapWidth) (numIterations : ℕ)
    {sw : IQSwitch n n} (hsw : sw.Empty) {sys : System (model n B numIterations)}
    (hrun : RunWhere (model n B numIterations) (fun c _ _ => ∀ r f, (c.qps r f).Valid)
      ⟨sw, initial n B⟩ sys) :
    BetweenMatches B (sys.scheduler.cfRelTime % B) sys.scheduler.toMembers ∧
    (∀ s d, (sys.switch.getQueueLength s d : ℤ) = (sys.scheduler.inputQueues s).getPacketNumber d
      + pending (Finset.range B) sys.scheduler.schedules s d) ∧
    ∀ c channels, (∀ r f, (c.qps r f).Valid) → ∃ sys',
      switching (model n B numIterations) c channels sys = .ok sys' ∧
      ∀ s ∈ sys'.scheduler.between, BetweenMatches B (sys.scheduler.cfRelTime % B + 1) s := by
  have hinit : Agrees B ((initial n B).cfRelTime % B) (initial n B).toMembers := by
    rw [show (initial n B).cfRelTime % B = 0 from Nat.zero_mod B]
    exact ⟨Booking.consistent_empty B B 0, fun _ _ => le_refl 0⟩
  have hbalanced : Balanced (fun st : State n => held B st.toMembers)
      (⟨sw, initial n B⟩ : System (model n B numIterations)) := by
    intro i o
    show (sw.getQueueLength i o : ℤ) = held B (initial n B).toMembers i o
    rw [hsw i o, held, pending_eq_zero (fun _ _ => rfl)]
    rfl
  obtain ⟨hagrees, hbal⟩ := (conserves hB1 hB numIterations).run hrun hinit hbalanced
  have ht : sys.scheduler.cfRelTime % B < B := Nat.mod_lt _ (by omega)
  refine ⟨hagrees.betweenMatches ht.le hB, hbal, fun c channels hc => ?_⟩
  obtain ⟨sys', hok, -⟩ := ((conserves hB1 hB numIterations).switching_post c channels hagrees hc
    hbal).exists_ok (fun _ _ he => he)
  obtain ⟨-, hbetween, -⟩ := (schedule_post hB1 hB numIterations hc
    (sys.switch.readInputs channels) hagrees).of_ok (schedule_of_switching hok)
  exact ⟨sys', hok, fun s hs => (hbetween s hs).betweenMatches (by omega) hB⟩

/-- Choices without any shuffle, where each input samples the first output for which it has a
    packet. -/
def plainChoices (n : ℕ) : Choices n where
  qps := fun _ _ =>
    { shuffle := Shuffle.inOrder n
      sample := fun _ q => (List.finRange n).find? (fun o => decide (0 < q o)) }
  fill := fun _ =>
    { outputs := ⟨outputsVector n n, List.Perm.refl _⟩
      approvals := fun _ => ⟨id, fun l => List.Perm.refl l⟩
      draw := fun _ k => k }

theorem valid_plainChoices (r f : ℕ) : ((plainChoices n).qps r f).Valid := by
  intro i q h0 hlen
  show ∃ o, (List.finRange n).find? (fun o => decide (0 < q o)) = some o ∧ 0 < q o
  cases hfind : (List.finRange n).find? (fun o => decide (0 < q o)) with
  | none =>
    have hnone := List.find?_eq_none.mp hfind
    exfalso
    apply hlen
    rw [QueueSampler.getQueueLength_eq_zero h0]
    intro o
    have hle : ¬ 0 < q o := by simpa using hnone o (List.mem_finRange o)
    have hge := h0 o
    omega
  | some o => exact ⟨o, rfl, by simpa using List.find?_some hfind⟩

/-- With `B = 2`, after an idle slot both inputs have one packet for output `0`.  Input `0` gets the
    current frame and input `1`, which is the approval, the idle one. -/
theorem filled_after_batch :
    ∃ sys sys', switching (model 2 2 2) (plainChoices 2) (fun _ => [])
        ⟨IQSwitch.empty 2 2, initial 2 2⟩ = .ok sys ∧
      switching (model 2 2 2) (plainChoices 2) (packetsFor 0 ![1, 1]) sys = .ok sys' ∧
      (sys'.scheduler.schedules 1 0 = some 0 ∧ sys'.scheduler.schedules 0 1 = some 0) ∧
      sys'.scheduler.between.length = 3 ∧
      ∀ s ∈ sys'.scheduler.between, BetweenMatches 2 2 s := by
  obtain ⟨sys, hok, hnext⟩ := exists_of_returns
    (x := switching (model 2 2 2) (plainChoices 2) (fun _ => [])
      ⟨IQSwitch.empty 2 2, initial 2 2⟩)
    (p := fun sys => decide (sys.scheduler.cfRelTime = 1) &&
      returns (switching (model 2 2 2) (plainChoices 2) (packetsFor 0 ![1, 1]) sys) (fun sys' =>
        decide ((sys'.scheduler.schedules 1 0 = some 0 ∧ sys'.scheduler.schedules 0 1 = some 0) ∧
          sys'.scheduler.between.length = 3))) (by decide +kernel)
  obtain ⟨htime, hreturns⟩ := Bool.and_eq_true_iff.mp hnext
  obtain ⟨sys', hok', hcells⟩ := exists_of_returns hreturns
  obtain ⟨hcells, hlength⟩ := of_decide_eq_true hcells
  obtain ⟨-, -, hall⟩ := invariant_of_run (by decide : 1 ≤ 2) (by decide) 2
    (IQSwitch.empty_empty 2 2) (RunWhere.step _ _ .refl valid_plainChoices hok)
  obtain ⟨sys'', hok'', hbetween⟩ := hall (plainChoices 2) (packetsFor 0 ![1, 1])
    valid_plainChoices
  obtain rfl := Except.ok.inj (hok'.symm.trans hok'')
  rw [of_decide_eq_true htime] at hbetween
  exact ⟨sys, sys', hok, hok', hcells, hlength, hbetween⟩

end SbQps.Conditional

end SschedSimulator
