import SschedSimulator.Scheduler.SbQps.Availability

namespace SschedSimulator

open Foundation

/-!
# `sb_qps.cc` — the schedulers `SB_QPS_HalfHalf_MA` and `SB_QPS_HalfHalf_MA_MI`

Their outputs accept proposals for any slot of the batch up to the current one.  The loop over the
frames of an accepted proposal does not stop at the first that is free for both ports: it reserves
all of them, and takes a packet out of the VOQ for each.

* `reserveFrames` — the loop over the frames, and `reserveFrames_post`, which counts what it
  reserves;
* `OneFramePerProposal` — an iteration reserves one frame for each proposal it accepts, and no
  count of packets becomes negative;
* `acceptOutputs_not_nodup` — after the first slot of a batch in which nothing is reserved yet, the
  first proposal accepted gets more than one frame.
-/

namespace SbQps

variable {n m : ℕ}

namespace MultiAccept

open Availability

/-- The state of the accept phase. -/
structure MultiAccepting (n m : ℕ) extends Booking n m where
  voqLength : Fin n → Fin m → ℤ
  outMatch : Fin m → Option (Fin n)
  virtualDepartures : List (Fin n × Fin m)

/-- One reservation for an accepted proposal. -/
def reserveFrame (timeSlot : ℕ) (out : Fin m) (i : Fin n) (acc : MultiAccepting n m) (f : ℕ) :
    Except Fault (MultiAccepting n m) := do
  let b ← acc.toBooking.reserve f i out
  .ok
    { toBooking := b
      voqLength := update₂ acc.voqLength i out (acc.voqLength i out - 1)
      outMatch :=
        if f = timeSlot then Function.update acc.outMatch out (some i) else acc.outMatch
      virtualDepartures := acc.virtualDepartures ++ [(i, out)] }

/-- The loop over the frames: every frame that was not matched before it is reserved. -/
def reserveFrames (timeSlot : ℕ) (out : Fin m) (i : Fin n)
    (isAlreadyMatched : Bitset bitmapWidth) :
    List ℕ → MultiAccepting n m → Except Fault (MultiAccepting n m)
  | [], acc => .ok acc
  | f :: fs, acc => do
    -- the bitmap is a copy made before the loop, and there is no `break` after a reservation
    let used ← testBit isAlreadyMatched f
    if used then reserveFrames timeSlot out i isAlreadyMatched fs acc
    else do
      let acc' ← reserveFrame timeSlot out i acc f
      reserveFrames timeSlot out i isAlreadyMatched fs acc'

/-- The walk of `out` over its proposals; the frames are those of
    `f = timeSlot; f >= 0; --f`. -/
def acceptLoop (timeSlot : ℕ) (out : Fin m) :
    List (Fin n) → MultiAccepting n m → Except Fault (MultiAccepting n m)
  | [], acc => .ok acc
  | i :: rest, acc =>
    if acc.outputAvailability out > 0 then
      if acc.inputAvailability i = 0 ∨ acc.voqLength i out = 0 then
        acceptLoop timeSlot out rest acc
      else do
        let acc' ← reserveFrames timeSlot out i
          (acc.inputMatchBitmap i ||| acc.outputMatchBitmap out) (earlierFrames (timeSlot + 1)) acc
        acceptLoop timeSlot out rest acc'
    else .ok acc

/-- The body of the accept loop for one output. -/
def acceptOutput (sort : DescSort (Fin n)) (maxAccepts : ℤ) (timeSlot : ℕ)
    (outAccepts : Fin m → List (Fin n)) (acc : MultiAccepting n m) (out : Fin m) :
    Except Fault (MultiAccepting n m) :=
  match outAccepts out with
  | [] => .ok acc
  | i :: rest =>
    acceptLoop timeSlot out
      ((sort.run (fun i => acc.voqLength i out) (i :: rest)).take maxAccepts.toNat) acc

/-- The state in which Step 2 starts. -/
def start (core : Core (Booking n m) n m) : MultiAccepting n m where
  toBooking := core.tables
  voqLength := core.voq.voqLength
  outMatch := fun _ => none
  virtualDepartures := []

/-- Step 2 of `qps`. -/
def acceptAll (sort : DescSort (Fin n)) (maxAccepts : ℤ) (timeSlot : ℕ)
    (outAccepts : Fin m → List (Fin n)) (core : Core (Booking n m) n m) :
    Except Fault (MultiAccepting n m) :=
  (List.finRange m).foldlM (acceptOutput sort maxAccepts timeSlot outAccepts) (start core)

/-- `handlePacketDepartures`: only the trees change. -/
def handlePacketDepartures (departures : List (Fin n × Fin m)) (bst : Fin n → Bst) :
    Except Fault (Fin n → Bst) :=
  departures.foldlM (fun bst p => updateLeaf bst p.1 p.2 (-1)) bst

/-- `maxAccepts` of both schedulers. -/
def maxAccepts (B timeSlot : ℕ) : ℤ := if (timeSlot + 1) * 2 > B then 2 else 1

/-- The two steps of `qps(timeSlot)`. -/
def accept (B : ℕ) (sort : DescSort (Fin n)) (draws : TreeDraws n m) (timeSlot : ℕ)
    (core : Core (Booking n m) n m) : Except Fault (MultiAccepting n m) := do
  let outAccepts ← proposeAll (fun _ => maxAccepts B timeSlot) draws core.voq
  acceptAll sort (maxAccepts B timeSlot) timeSlot outAccepts core

/-- `qps(timeSlot)`: one iteration. -/
def iteration (B : ℕ) (sort : DescSort (Fin n)) (draws : ℕ → TreeDraws n m) (timeSlot : ℕ)
    (core : Core (Booking n m) n m) (k : ℕ) : Except Fault (Core (Booking n m) n m) := do
  let acc ← accept B sort (draws k) timeSlot core
  let bst ← handlePacketDepartures acc.virtualDepartures core.voq.bst
  .ok
    { tables := countUnmatched timeSlot acc.outMatch acc.toBooking
      voq := { bst := bst, voqLength := acc.voqLength } }

/-- `qps(iqSwitch, timeSlot)` after the arrivals: all iterations of a slot. -/
def qps (maxIters : ℕ → ℕ → ℕ) (B : ℕ) (sort : DescSort (Fin n)) (draws : ℕ → TreeDraws n m)
    (timeSlot : ℕ) (core : Core (Booking n m) n m) : Except Fault (Core (Booking n m) n m) :=
  (List.range (maxIters B timeSlot)).foldlM (iteration B sort draws timeSlot) core

/-- A scheduler of this kind as a switch drives it. -/
abbrev model (maxIters : ℕ → ℕ → ℕ) (n m B : ℕ) (sort : DescSort (Fin n)) : SchedulerModel n m :=
  sbModel (qps (m := m) maxIters B sort) B

end MultiAccept

namespace HalfHalfMA

/-- `maxIters` of `SB_QPS_HalfHalf_MA`. -/
def maxIters (_ _ : ℕ) : ℕ := 1

/-- `SB_QPS_HalfHalf_MA` as a switch drives it. -/
abbrev model (n m B : ℕ) (sort : DescSort (Fin n)) : SchedulerModel n m :=
  MultiAccept.model maxIters n m B sort

end HalfHalfMA

namespace HalfHalfMAMI

/-- `maxIters` of `SB_QPS_HalfHalf_MA_MI`. -/
def maxIters (B timeSlot : ℕ) : ℕ := if (timeSlot + 1) * 2 > B then 3 else 1

/-- `SB_QPS_HalfHalf_MA_MI` as a switch drives it. -/
abbrev model (n m B : ℕ) (sort : DescSort (Fin n)) : SchedulerModel n m :=
  MultiAccept.model maxIters n m B sort

end HalfHalfMAMI

namespace MultiAccept

open Availability

/-! ### Safe slots -/

/-- One iteration returns; no proposal it accepts gets more than one frame, no VOQ more frames than
    it has packets, and no count of packets is negative afterwards. -/
def OneFramePerProposal (B : ℕ) (sort : DescSort (Fin n)) (draws : ℕ → TreeDraws n m) (t : ℕ)
    (core : Core (Booking n m) n m) (k : ℕ) : Prop :=
  ∃ acc core', accept B sort (draws k) t core = .ok acc ∧
    iteration B sort draws t core k = .ok core' ∧ acc.virtualDepartures.Nodup ∧
    (∀ i o, (acc.virtualDepartures.count (i, o) : ℤ) ≤ core.voq.voqLength i o) ∧
    (∀ i o, 0 ≤ core'.voq.voqLength i o) ∧ ∀ i node, 0 ≤ core'.voq.bst i node

/-- All iterations of the slot that starts in `core` are such. -/
def SlotSafe (maxIters : ℕ → ℕ → ℕ) (B : ℕ) (sort : DescSort (Fin n)) (draws : ℕ → TreeDraws n m)
    (t : ℕ) (core : Core (Booking n m) n m) : Prop :=
  StepsMeet (iteration B sort draws t) (OneFramePerProposal B sort draws t)
    (List.range (maxIters B t)) core

/-- The slot is the first of its batch, or no VOQ has a packet after the arrivals. -/
def Quiet (B : ℕ) (sw : IQSwitch n m) (st : State n m) : Prop :=
  st.cfRelTime % B = 0 ∨
    ∀ i o, st.voq.voqLength i o + (sw.getArrivals.count (i, o) : ℤ) = 0

instance (B : ℕ) (sw : IQSwitch n m) (st : State n m) : Decidable (Quiet B sw st) :=
  inferInstanceAs (Decidable (_ ∨ ∀ _ _, _ = _))

/-! ### The departures -/

/-- When every pair departs at most as often as it has packets, the trees hold what is left. -/
theorem handlePacketDepartures_eq_ok {bst : Fin n → Bst} {len : Fin n → Fin m → ℤ}
    (h : ∀ i, Mirrors (bst i) (len i)) {departures : List (Fin n × Fin m)}
    {len' : Fin n → Fin m → ℤ} (h0 : ∀ i o, 0 ≤ len' i o)
    (heq : ∀ i o, len' i o = len i o - departures.count (i, o)) :
    ∃ bst', handlePacketDepartures departures bst = .ok bst' ∧ ∀ i, Mirrors (bst' i) (len' i) := by
  unfold handlePacketDepartures
  induction departures generalizing bst len with
  | nil =>
    obtain rfl : len' = len := funext₂ (fun i o => by simpa using heq i o)
    exact ⟨bst, rfl, h⟩
  | cons p rest ih =>
    have hp := h0 p.1 p.2
    rw [heq, natCast_count_cons, if_pos rfl] at hp
    obtain ⟨bst₁, hrun₁, hmir₁⟩ := updateLeaf_eq_ok h p.1 p.2
      (by omega : 0 ≤ len p.1 p.2 + -1)
    obtain ⟨bst₂, hrun₂, hmir₂⟩ := ih hmir₁ (fun i o => by
      rw [heq, update₂_add, natCast_count_cons]
      show _ - (_ + if (p.1, p.2) = (i, o) then 1 else 0) = _
      split <;> omega)
    exact ⟨bst₂, by rw [List.foldlM_cons, hrun₁, ok_bind, hrun₂], hmir₂⟩

/-- No node of a tree that mirrors VOQ lengths is negative. -/
theorem nonneg_of_mirrors {b : Bst} {len : Fin m → ℤ} (h : Mirrors b len) (node : ℕ) :
    0 ≤ b node := by
  by_cases hnode : 1 ≤ node ∧ node < 2 * leftStart m
  · exact h.tree.nonneg node hnode.1 hnode.2
  · rw [h.tree.outside node (by omega)]

/-! ### What an accepted proposal gets -/

/-- The virtual departures only grow: the frames that were not matched before the loop are all
    reserved. -/
theorem reserveFrames_post (t : ℕ) (out : Fin m) (i : Fin n)
    (isAlreadyMatched : Bitset bitmapWidth) (frames : List ℕ) (acc : MultiAccepting n m) :
    Post (reserveFrames t out i isAlreadyMatched frames acc) (fun _ => True) (fun acc' =>
      acc'.virtualDepartures = acc.virtualDepartures ++
        List.replicate (frames.countP (fun f => !isAlreadyMatched.test f)) (i, out)) := by
  -- The bitmap tested stays the same, so each frame is judged on its own.
  induction frames generalizing acc with
  | nil => simp [reserveFrames]
  | cons f fs ih =>
    unfold reserveFrames testBit
    by_cases hf : f < bitmapWidth
    · rw [require_pos hf, ok_bind, ok_bind, List.countP_cons]
      cases isAlreadyMatched.test f with
      | true => simpa using ih acc
      | false =>
        rw [if_neg Bool.false_ne_true]
        have hone : Post (reserveFrame t out i acc f) (fun _ => True)
            (fun acc' => acc'.virtualDepartures = acc.virtualDepartures ++ [(i, out)]) := by
          unfold reserveFrame
          cases acc.toBooking.reserve f i out with
          | ok b => rfl
          | error e => trivial
        refine hone.bind (fun acc₁ h₁ => (ih acc₁).imp (fun acc₂ h₂ => ?_))
        rw [h₂, h₁, Bool.not_false, if_pos rfl, List.append_assoc, List.singleton_append,
          ← List.replicate_succ]
    · rw [Foundation.require, if_neg hf]
      trivial

/-! ### What the reservations keep -/

variable {B t : ℕ} {sort : DescSort (Fin n)}

/-- What a reservation that returns does. -/
theorem of_reserveFrame {out : Fin m} {i : Fin n} {acc acc' : MultiAccepting n m} {f : ℕ}
    (h : reserveFrame t out i acc f = .ok acc') :
    f < bitmapWidth ∧ acc.schedules f i = none ∧ acc'.toBooking = acc.toBooking.take f i out ∧
      acc'.outMatch
        = if f = t then Function.update acc.outMatch out (some i) else acc.outMatch := by
  unfold reserveFrame Booking.reserve at h
  by_cases hf : f < bitmapWidth
  · by_cases hcell : acc.schedules f i = none
    · rw [require_pos hf, ok_bind, require_pos hcell, ok_bind, ok_bind] at h
      obtain rfl := Except.ok.inj h
      exact ⟨hf, hcell, rfl, rfl⟩
    · rw [require_pos hf, ok_bind, Foundation.require, if_neg hcell] at h
      cases h
  · rw [Foundation.require, if_neg hf] at h
    cases h

variable {I : MultiAccepting n m → Prop}

/-- What every reservation for the proposal keeps. -/
theorem reserveFrames_keeps {out : Fin m} {i : Fin n}
    (hI : ∀ acc f acc', I acc → reserveFrame t out i acc f = .ok acc' → I acc')
    (isAlreadyMatched : Bitset bitmapWidth) (frames : List ℕ) {acc : MultiAccepting n m}
    (h : I acc) :
    Post (reserveFrames t out i isAlreadyMatched frames acc) (fun _ => True) I := by
  induction frames generalizing acc with
  | nil => exact h
  | cons f fs ih =>
    unfold reserveFrames
    refine (Post.top _).bind (fun used _ => ?_)
    split
    · exact ih h
    · cases hstep : reserveFrame t out i acc f with
      | error e => trivial
      | ok acc₁ => exact ih (hI acc f acc₁ h hstep)

/-- What every reservation of a frame up to the current one keeps, if it is free for both ports. -/
def KeptByReserve (t : ℕ) (I : MultiAccepting n m → Prop) : Prop :=
  ∀ acc f i out acc', I acc → f ≤ t → acc.inFlag i f = false → acc.outFlag out f = false →
    reserveFrame t out i acc f = .ok acc' → I acc'

/-- The bitmap copied before the loop is still right about the frames to come. -/
theorem KeptByReserve.reserveFrames (hI : KeptByReserve t I) (out : Fin m) (i : Fin n)
    (isAlreadyMatched : Bitset bitmapWidth) {frames : List ℕ} (hnodup : frames.Nodup)
    (hframes : ∀ f ∈ frames, f ≤ t) {acc : MultiAccepting n m}
    (hcopy : ∀ f ∈ frames, isAlreadyMatched.test f = (acc.inFlag i f || acc.outFlag out f))
    (h : I acc) :
    Post (MultiAccept.reserveFrames t out i isAlreadyMatched frames acc) (fun _ => True) I := by
  induction frames generalizing acc with
  | nil => exact h
  | cons f fs ih =>
    obtain ⟨hf, hfs⟩ := List.nodup_cons.mp hnodup
    have hlater : ∀ g ∈ fs, g ≤ t := fun g hg => hframes g (List.mem_cons_of_mem _ hg)
    unfold MultiAccept.reserveFrames testBit
    by_cases hwidth : f < bitmapWidth
    · rw [require_pos hwidth, ok_bind, ok_bind]
      split
      · exact ih hfs hlater (fun g hg => hcopy g (List.mem_cons_of_mem _ hg)) h
      · rename_i hfree
        rw [hcopy f (List.mem_cons_self ..), Bool.not_eq_true, Bool.or_eq_false_iff] at hfree
        cases hstep : reserveFrame t out i acc f with
        | error e => trivial
        | ok acc₁ =>
          obtain ⟨-, -, hbook, -⟩ := of_reserveFrame hstep
          rw [ok_bind]
          refine ih hfs hlater (fun g hg => ?_)
            (hI acc f i out acc₁ h (hframes f (List.mem_cons_self ..)) hfree.1 hfree.2 hstep)
          -- The frame just reserved does not come again.
          have hne : g ≠ f := fun heq => hf (heq ▸ hg)
          rw [hcopy g (List.mem_cons_of_mem _ hg), hbook]
          show _ = ((acc.toReservations.book f i out).inFlag i g ||
            (acc.toReservations.book f i out).outFlag out g)
          rw [Reservations.book_inFlag _ hwidth, Reservations.book_outFlag _ hwidth]
          simp [hne]
    · rw [Foundation.require, if_neg hwidth]
      trivial

theorem KeptByReserve.acceptLoop (hI : KeptByReserve t I) (out : Fin m) (ins : List (Fin n))
    {acc : MultiAccepting n m} (h : I acc) :
    Post (MultiAccept.acceptLoop t out ins acc) (fun _ => True) I := by
  induction ins generalizing acc with
  | nil => exact h
  | cons i rest ih =>
    unfold MultiAccept.acceptLoop
    split
    · split
      · exact ih h
      · refine (hI.reserveFrames out i _ ?_ (fun f hf => ?_) (fun f _ => ?_) h).bind
          (fun acc₁ h₁ => ih h₁)
        · exact List.nodup_reverse.mpr List.nodup_range
        · exact Nat.lt_succ_iff.mp (mem_earlierFrames.mp hf)
        · exact Bitset.test_or ..
    · exact h

theorem KeptByReserve.acceptOutput (hI : KeptByReserve t I) (maxAccepts : ℤ)
    (outAccepts : Fin m → List (Fin n)) {acc : MultiAccepting n m} (out : Fin m) (h : I acc) :
    Post (MultiAccept.acceptOutput sort maxAccepts t outAccepts acc out) (fun _ => True) I := by
  unfold MultiAccept.acceptOutput
  split
  · exact h
  · exact hI.acceptLoop out _ h

/-- The frame holds the pair; if it is the current one, the output is matched. -/
def Booked (t : ℕ) (out : Fin m) (i : Fin n) (f : ℕ) (acc : MultiAccepting n m) : Prop :=
  acc.schedules f i = some out ∧ (f = t → acc.outMatch out ≠ none)

theorem booked_of_reserveFrame {out : Fin m} {i : Fin n} {f : ℕ} {acc acc' : MultiAccepting n m}
    (h : reserveFrame t out i acc f = .ok acc') : Booked t out i f acc' := by
  obtain ⟨-, -, hbook, hmatch⟩ := of_reserveFrame h
  constructor
  · rw [hbook]
    show update₂ acc.schedules f i (some out) f i = some out
    rw [update₂_apply, if_pos ⟨rfl, rfl⟩]
  · intro hf
    rw [hmatch, if_pos hf, Function.update_self]
    exact Option.some_ne_none i

/-- A reservation does not overwrite a cell. -/
theorem Booked.reserveFrame {out out' : Fin m} {i i' : Fin n} {f f' : ℕ}
    {acc acc' : MultiAccepting n m} (h : Booked t out i f acc)
    (hstep : MultiAccept.reserveFrame t out' i' acc f' = .ok acc') : Booked t out i f acc' := by
  obtain ⟨-, hcell, hbook, hmatch⟩ := of_reserveFrame hstep
  constructor
  · rw [hbook]
    show update₂ acc.schedules f' i' (some out') f i = some out
    rw [update₂_apply, if_neg, h.1]
    rintro ⟨rfl, rfl⟩
    rw [h.1] at hcell
    cases hcell
  · intro hf
    rw [hmatch]
    split
    · rw [Function.update_apply]
      split
      · exact Option.some_ne_none i'
      · exact h.2 hf
    · exact h.2 hf

/-- Every frame of the loop that was not matched before it is booked in the end. -/
theorem reserveFrames_books (out : Fin m) (i : Fin n) (isAlreadyMatched : Bitset bitmapWidth)
    (frames : List ℕ) (acc : MultiAccepting n m) :
    Post (reserveFrames t out i isAlreadyMatched frames acc) (fun _ => True) (fun acc' =>
      ∀ f ∈ frames, isAlreadyMatched.test f = false → Booked t out i f acc') := by
  induction frames generalizing acc with
  | nil => exact fun f hf => absurd hf List.not_mem_nil
  | cons f fs ih =>
    unfold reserveFrames testBit
    by_cases hwidth : f < bitmapWidth
    · rw [require_pos hwidth, ok_bind, ok_bind]
      split
      · rename_i hused
        refine (ih acc).imp (fun acc' h' g hg hfree => ?_)
        rcases List.mem_cons.mp hg with rfl | hg
        · rw [hused] at hfree
          cases hfree
        · exact h' g hg hfree
      · cases hstep : reserveFrame t out i acc f with
        | error e => trivial
        | ok acc₁ =>
          rw [ok_bind]
          refine (ih acc₁).and_eq.imp ?_
          rintro acc' ⟨h', hrun⟩ g hg hfree
          rcases List.mem_cons.mp hg with rfl | hg
          · -- booked now, and kept by the reservations of the frames to come
            exact (reserveFrames_keeps (fun _ _ _ h hs => h.reserveFrame hs) isAlreadyMatched fs
              (booked_of_reserveFrame hstep)).of_ok hrun
          · exact h' g hg hfree
    · rw [Foundation.require, if_neg hwidth]
      trivial

/-- The virtual departures only grow. -/
theorem keptByReserve_departures (t : ℕ) (ds : List (Fin n × Fin m)) :
    KeptByReserve t (fun acc => ds.IsPrefix acc.virtualDepartures) := by
  intro acc f i out acc' h _ _ _ hstep
  obtain ⟨b, -, hb⟩ := bind_eq_ok.mp hstep
  rw [← Except.ok.inj hb]
  exact h.trans (List.prefix_append _ _)

/-- The tables of a batch in which nothing is reserved yet: the bits are clear, at least `k` frames
    are counted for every port, and none at the start. -/
structure Unused (k : ℕ) (b : Booking n m) : Prop where
  inFlag : ∀ i f, b.inFlag i f = false
  outFlag : ∀ o f, b.outFlag o f = false
  inputAvailable : ∀ i, (k : ℤ) ≤ b.inputAvailability i
  outputAvailable : ∀ o, (k : ℤ) ≤ b.outputAvailability o
  notYet : k = 0 → ∀ o, b.outputAvailability o = 0

/-- The first proposal accepted in an unused batch is offered every frame up to the current one. -/
theorem acceptOutput_eq (hpos : 0 < t) {maxAccepts : ℤ} (hmax : 0 < maxAccepts)
    {outAccepts : Fin m → List (Fin n)} {acc : MultiAccepting n m} {out : Fin m}
    (h : Unused t acc.toBooking) (hne : outAccepts out ≠ [])
    (hlen : ∀ i ∈ outAccepts out, acc.voqLength i out ≠ 0) :
    ∃ i rest isAlreadyMatched, (∀ f, Bitset.test isAlreadyMatched f = false) ∧
      acceptOutput sort maxAccepts t outAccepts acc out
        = reserveFrames t out i isAlreadyMatched (earlierFrames (t + 1)) acc
            >>= acceptLoop t out rest := by
  unfold acceptOutput
  cases hins : outAccepts out with
  | nil => exact absurd hins hne
  | cons j others =>
    -- The list is not empty, and neither is what `maxAccepts` leaves of it.
    cases hsorted : sort.run (fun i => acc.voqLength i out) (j :: others) with
    | nil =>
      have hperm := sort.perm (fun i => acc.voqLength i out) (j :: others)
      rw [hsorted] at hperm
      exact absurd hperm.symm.eq_nil (List.cons_ne_nil j others)
    | cons i rest =>
      obtain ⟨k, hk⟩ : ∃ k, maxAccepts.toNat = k + 1 := ⟨maxAccepts.toNat - 1, by omega⟩
      have hi : i ∈ outAccepts out := by
        rw [hins, ← sort.mem, hsorted]
        exact List.mem_cons_self ..
      have hin : acc.inputAvailability i ≠ 0 := by
        have hav := h.inputAvailable i
        omega
      have hout : acc.outputAvailability out > 0 := by
        have hav := h.outputAvailable out
        omega
      refine ⟨i, rest.take k, acc.inputMatchBitmap i ||| acc.outputMatchBitmap out, fun f => ?_, ?_⟩
      · rw [Bitset.test_or, Bool.or_eq_false_iff]
        exact ⟨h.inFlag i f, h.outFlag out f⟩
      · dsimp only
        rw [hsorted, hk, List.take_succ_cons]
        conv_lhs => unfold acceptLoop
        rw [if_pos hout, if_neg (by rintro (hz | hz); exacts [hin hz, hlen i hi hz])]

/-- It gets all of them. -/
theorem acceptOutput_books (hpos : 0 < t) {maxAccepts : ℤ} (hmax : 0 < maxAccepts)
    {outAccepts : Fin m → List (Fin n)} {acc : MultiAccepting n m} {out : Fin m}
    (h : Unused t acc.toBooking) (hne : outAccepts out ≠ [])
    (hlen : ∀ i ∈ outAccepts out, acc.voqLength i out ≠ 0) :
    Post (acceptOutput sort maxAccepts t outAccepts acc out) (fun _ => True)
      (fun acc' => ∃ i, ∀ f ≤ t, Booked t out i f acc') := by
  obtain ⟨i, rest, isAlreadyMatched, hfree, heq⟩ :=
    @acceptOutput_eq n m t sort hpos maxAccepts hmax outAccepts acc out h hne hlen
  have hkept : KeptByReserve t (fun acc : MultiAccepting n m => ∀ f ≤ t, Booked t out i f acc) :=
    fun _ _ _ _ _ hall _ _ _ hstep f hf => (hall f hf).reserveFrame hstep
  rw [heq]
  refine (reserveFrames_books ..).bind (fun acc₁ h₁ => (hkept.acceptLoop out rest
    (fun f hf => h₁ f ?_ (hfree f))).imp (fun acc₂ h₂ => ⟨i, h₂⟩))
  exact mem_earlierFrames.mpr (Nat.lt_succ_of_le hf)

/-- After the first slot that is more than one. -/
theorem acceptOutput_not_nodup (hpos : 0 < t) {maxAccepts : ℤ}
    (hmax : 0 < maxAccepts) {outAccepts : Fin m → List (Fin n)} {acc : MultiAccepting n m}
    {out : Fin m} (h : Unused t acc.toBooking) (hne : outAccepts out ≠ [])
    (hlen : ∀ i ∈ outAccepts out, acc.voqLength i out ≠ 0) :
    Post (acceptOutput sort maxAccepts t outAccepts acc out) (fun _ => True)
      (fun acc' => ¬ acc'.virtualDepartures.Nodup) := by
  obtain ⟨i, rest, isAlreadyMatched, hfree, heq⟩ :=
    @acceptOutput_eq n m t sort hpos maxAccepts hmax outAccepts acc out h hne hlen
  rw [heq]
  refine (reserveFrames_post ..).bind (fun acc₁ h₁ => ?_)
  refine ((keptByReserve_departures t _).acceptLoop out rest List.prefix_rfl).imp
    (fun acc₂ h₂ hnodup => ?_)
  have hcount : (earlierFrames (t + 1)).countP (fun f => !isAlreadyMatched.test f) = t + 1 := by
    rw [List.countP_eq_length.mpr (fun f _ => by rw [hfree f]; rfl)]
    simp [earlierFrames]
  -- The copies of one pair are part of the whole list.
  have hrep : (List.replicate (t + 1) (i, out)).Nodup := by
    rw [h₁, hcount] at h₂
    exact (List.nodup_append.mp (hnodup.sublist h₂.sublist)).2.1
  have hone := List.nodup_iff_count_le_one.mp hrep (i, out)
  rw [List.count_replicate_self] at hone
  omega

/-- What the first output with a proposal brings about and the outputs after it keep. -/
theorem acceptOutputs_of_first {Q : MultiAccepting n m → Prop} {maxAccepts : ℤ}
    {outAccepts : Fin m → List (Fin n)} {acc : MultiAccepting n m}
    (hfirst : ∀ out, outAccepts out ≠ [] →
      Post (acceptOutput sort maxAccepts t outAccepts acc out) (fun _ => True) Q)
    (hkeep : ∀ out acc', Q acc' →
      Post (acceptOutput sort maxAccepts t outAccepts acc' out) (fun _ => True) Q)
    {outs : List (Fin m)} (hne : ∃ out ∈ outs, outAccepts out ≠ []) :
    Post (outs.foldlM (acceptOutput sort maxAccepts t outAccepts) acc) (fun _ => True) Q := by
  induction outs with
  | nil =>
    obtain ⟨out, hmem, -⟩ := hne
    cases hmem
  | cons out rest ih =>
    rw [List.foldlM_cons]
    by_cases hout : outAccepts out = []
    · have hskip : acceptOutput sort maxAccepts t outAccepts acc out = .ok acc := by
        rw [acceptOutput, hout]
      rw [hskip, ok_bind]
      obtain ⟨out', hmem, hne'⟩ := hne
      rcases List.mem_cons.mp hmem with rfl | hmem
      · exact absurd hout hne'
      · exact ih ⟨out', hmem, hne'⟩
    · exact (hfirst out hout).bind (fun acc₁ h₁ =>
        Post.foldlM (I := Q) h₁ (fun out' _ acc₂ h₂ => hkeep out' acc₂ h₂))

/-- So if any output has a proposal, some pair is reserved more than one frame. -/
theorem acceptOutputs_not_nodup (hpos : 0 < t) {maxAccepts : ℤ}
    (hmax : 0 < maxAccepts) {outAccepts : Fin m → List (Fin n)} {acc : MultiAccepting n m}
    (h : Unused t acc.toBooking) (hlen : ∀ o, ∀ i ∈ outAccepts o, acc.voqLength i o ≠ 0)
    {outs : List (Fin m)} (hne : ∃ out ∈ outs, outAccepts out ≠ []) :
    Post (outs.foldlM (acceptOutput sort maxAccepts t outAccepts) acc) (fun _ => True)
      (fun acc' => ¬ acc'.virtualDepartures.Nodup) := by
  refine acceptOutputs_of_first (fun out hout => acceptOutput_not_nodup hpos hmax h hout (hlen out))
    (fun out' acc₂ h₂ => ?_) hne
  -- The outputs to come only add to the list.
  refine ((keptByReserve_departures t _).acceptOutput maxAccepts outAccepts out'
    List.prefix_rfl).imp (fun acc₃ h₃ hnodup => h₂ ?_)
  exact hnodup.sublist h₃.sublist

end MultiAccept

end SbQps

end SschedSimulator
