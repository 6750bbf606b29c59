import SschedSimulator.Foundation.FirstFit
import SschedSimulator.Scheduler.Proposals
import SschedSimulator.Scheduler.Reservations

namespace SschedSimulator

open Foundation

/-!
# Reservations with availability counters

Most batch schedulers also count the frames at which a port is still free.  An output walks
over its sorted proposals and grants each input the first frame that is free for both:

* `Booking.reserve` — one reservation, with the counters of both ports decremented;
* `Booking.tryReserve` — the search for the frame;
* `Accepting.acceptLoop` — the walk over the proposals of one output.

`Booking.Consistent B c k` adds to the invariant of the tables that the counters say how many of
the first `c` frames are free.  The walk keeps any invariant that survives one reservation at a
free frame (`Booking.Kept`).
-/

variable {n m : ℕ}

/-- The reservation tables and the availability counters of the ports. -/
structure Booking (n m : ℕ) extends Reservations n m where
  inputAvailability : Fin n → ℤ
  outputAvailability : Fin m → ℤ

namespace Booking

/-- Nothing reserved, with the given availability at every port. -/
def empty (available : ℤ) : Booking n m where
  toReservations := Reservations.empty
  inputAvailability := fun _ => available
  outputAvailability := fun _ => available

/-- The tables after a reservation. -/
def take (b : Booking n m) (f : ℕ) (i : Fin n) (o : Fin m) : Booking n m where
  toReservations := b.toReservations.book f i o
  inputAvailability := Function.update b.inputAvailability i (b.inputAvailability i - 1)
  outputAvailability := Function.update b.outputAvailability o (b.outputAvailability o - 1)

/-- Set the bits, decrement the counters, assert that the cell is empty and write it. -/
def reserve (b : Booking n m) (f : ℕ) (i : Fin n) (o : Fin m) : Except Fault (Booking n m) := do
  require (f < bitmapWidth) .bitOutOfRange
  require (b.schedules f i = none) .cellOccupied
  .ok (b.take f i o)

/-- Reserve the first frame of the list that is free for both ports, unless the counter of the
    input says that none is. -/
def tryReserve (frames : List ℕ) (b : Booking n m) (i : Fin n) (o : Fin m) :
    Except Fault (Option (Booking n m)) :=
  -- `continue` in the loops over the proposals, before any frame is tried
  if b.inputAvailability i = 0 then .ok none
  else do
    match ← b.firstFree frames i o with
    | none => .ok none
    | some f => do
      let b' ← b.reserve f i o
      .ok (some b')

/-- The frame that `tryReserve` uses. -/
def choose (frames : List ℕ) (b : Booking n m) (i : Fin n) (o : Fin m) : Option ℕ :=
  if b.inputAvailability i = 0 then none
  else frames.find? (fun f => !(b.inFlag i f || b.outFlag o f))

/-- The chosen frame is one of those offered and free for both ports. -/
theorem choose_eq_some {frames : List ℕ} {b : Booking n m} {i : Fin n} {o : Fin m} {f : ℕ}
    (h : choose frames b i o = some f) :
    f ∈ frames ∧ b.inFlag i f = false ∧ b.outFlag o f = false := by
  unfold choose at h
  split at h
  · exact nomatch h
  · refine ⟨List.mem_of_find?_eq_some h, ?_⟩
    have hfree := List.find?_some h
    rwa [Bool.not_eq_true', Bool.or_eq_false_iff] at hfree

theorem reserve_eq_ok (b : Booking n m) {f : ℕ} (hf : f < bitmapWidth) {i : Fin n}
    (hcell : b.schedules f i = none) (o : Fin m) : b.reserve f i o = .ok (b.take f i o) := by
  simp [reserve, hf, hcell]

/-- When the bits cover the live rows, `tryReserve` never meets an occupied cell: it takes the
    chosen frame. -/
theorem tryReserve_eq {k : ℕ} {b : Booking n m} (h : b.toReservations.Covers k)
    (hk : k ≤ bitmapWidth) {frames : List ℕ} (hframes : ∀ f ∈ frames, f < k) (i : Fin n)
    (o : Fin m) :
    b.tryReserve frames i o = .ok ((choose frames b i o).map (fun f => b.take f i o)) := by
  unfold tryReserve
  cases hc : choose frames b i o with
  | none =>
    unfold choose at hc
    split at hc
    · simp [*]
    · rename_i hne
      rw [if_neg hne, b.firstFree_eq (fun f hf => by have := hframes f hf; omega), hc]
      rfl
  | some f =>
    -- The bit of the input is clear and the rows are covered, so the assertion on the cell holds.
    obtain ⟨hf, hi, -⟩ := choose_eq_some hc
    have hcell : b.schedules f i = none := h.cell_eq_none (hframes f hf) hi
    unfold choose at hc
    split at hc
    · exact nomatch hc
    · rename_i hne
      have hlt := hframes f hf
      rw [if_neg hne, b.firstFree_eq (fun f hf => by have := hframes f hf; omega), hc,
        ok_bind]
      simp only [b.reserve_eq_ok (by omega : f < bitmapWidth) hcell o, ok_bind, Option.map_some]

/-! ### The invariant -/

/-- The tables are consistent and each counter is the number of frames free for its port, out of
    the first `c`. -/
structure Consistent (B c k : ℕ) (b : Booking n m) : Prop extends
    b.toReservations.Consistent B k where
  inputAvailable : ∀ i, b.inputAvailability i = freeFrames (Finset.range c) (b.inFlag i)
  outputAvailable : ∀ o, b.outputAvailability o = freeFrames (Finset.range c) (b.outFlag o)

theorem consistent_empty (B c k : ℕ) : (empty c : Booking n m).Consistent B c k where
  toConsistent := Reservations.consistent_empty B k
  inputAvailable := fun i => by simp [freeFrames, empty]
  outputAvailable := fun o => by simp [freeFrames, empty]

theorem Consistent.covers {B c k : ℕ} {b : Booking n m} (h : b.Consistent B c k) :
    b.toReservations.Covers k := h.toCovers

/-- A reservation at a live frame that is counted and free for both ports keeps the invariant. -/
theorem Consistent.take {B c k : ℕ} {b : Booking n m} (h : b.Consistent B c k)
    (hk : k ≤ bitmapWidth) {f : ℕ} (hf : f < k) (hc : f < c) {i : Fin n} {o : Fin m}
    (hi : b.inFlag i f = false) (ho : b.outFlag o f = false) :
    (b.take f i o).Consistent B c k where
  toConsistent := h.toConsistent.book hf hk (h.covers.cell_eq_none hf hi)
    (h.covers.row_ne_some hf ho)
  inputAvailable := counters_book h.inputAvailable (Finset.mem_range.mpr hc) hi
    (b.book_inFlag (by omega) i o)
  outputAvailable := counters_book h.outputAvailable (Finset.mem_range.mpr hc) ho
    (b.book_outFlag (by omega) i o)

/-- With exact counters, the frame chosen is the first one free for both ports. -/
theorem Consistent.choose_eq {B c k : ℕ} {b : Booking n m} (h : b.Consistent B c k)
    {frames : List ℕ} (hframes : ∀ f ∈ frames, f < c) (i : Fin n) (o : Fin m) :
    choose frames b i o = frames.find? (fun f => !(b.inFlag i f || b.outFlag o f)) := by
  unfold choose
  split
  · -- The counter is zero only if the input is marked at every frame that is counted.
    rename_i hzero
    rw [h.inputAvailable, Int.natCast_eq_zero] at hzero
    symm
    rw [List.find?_eq_none]
    intro f hf
    simp [flag_of_freeFrames_eq_zero (Finset.mem_range.mpr (hframes f hf)) hzero]
  · rfl

/-- An invariant `I` that covers the first `k` rows and survives a reservation at any of the
    frames that is free for both ports. -/
structure Kept (frames : List ℕ) (k : ℕ) (I : Booking n m → Prop) : Prop where
  live : ∀ f ∈ frames, f < k
  width : k ≤ bitmapWidth
  covers : ∀ b, I b → b.toReservations.Covers k
  take : ∀ b f i o, I b → f ∈ frames → b.inFlag i f = false → b.outFlag o f = false →
    I (b.take f i o)

theorem kept_consistent {frames : List ℕ} {B c k : ℕ} (hk : k ≤ bitmapWidth)
    (hframes : ∀ f ∈ frames, f < k ∧ f < c) :
    Kept frames k (fun b : Booking n m => b.Consistent B c k) where
  live := fun f hf => (hframes f hf).1
  width := hk
  covers := fun _ h => h.covers
  take := fun _ f _ _ h hf hi ho => h.take hk (hframes f hf).1 (hframes f hf).2 hi ho

end Booking

/-! ### Dispatching a row -/

namespace Booking

/-- Give back the frame `f` to input `i` and to the output it is matched to. -/
def releaseInput (f : ℕ) (b : Booking n m) (i : Fin n) : Except Fault (Booking n m) :=
  match b.schedules f i with
  | none => .ok b
  | some o => do
    require (f < bitmapWidth) .bitOutOfRange
    .ok
      { toReservations := b.toReservations.release f i o
        inputAvailability := Function.update b.inputAvailability i (b.inputAvailability i + 1)
        outputAvailability :=
          Function.update b.outputAvailability o (b.outputAvailability o + 1) }

/-- Give back the frame `f` to every matched port and clear its row. -/
def dispatchRow (f : ℕ) (b : Booking n m) : Except Fault (Booking n m) := do
  let b' ← (List.finRange n).foldlM (releaseInput f) b
  .ok { b' with toReservations := b'.toReservations.clearRow f }

/-- The table in the middle of a dispatch: only the inputs of `rest` still hold their cell of
    row `f`. -/
def remaining (t : ℕ → Fin n → Option (Fin m)) (f : ℕ) (rest : List (Fin n)) :
    ℕ → Fin n → Option (Fin m) :=
  Function.update t f (fun i => if i ∈ rest then t f i else none)

theorem remaining_finRange (t : ℕ → Fin n → Option (Fin m)) (f : ℕ) :
    remaining t f (List.finRange n) = t := by
  simp [remaining]

theorem remaining_nil (t : ℕ → Fin n → Option (Fin m)) (f : ℕ) :
    remaining t f [] = Function.update t f (fun _ => none) := by
  simp [remaining]

/-- Releasing the next input empties its cell. -/
theorem remaining_cons (t : ℕ → Fin n → Option (Fin m)) (f : ℕ) {i : Fin n}
    {rest : List (Fin n)} (hi : i ∉ rest) :
    remaining t f rest = update₂ (remaining t f (i :: rest)) f i none := by
  funext f' i'
  rw [update₂_apply]
  by_cases hf : f' = f
  · subst hf
    by_cases hii : i' = i
    · subst hii
      simp [remaining, hi]
    · simp [remaining, hii]
  · simp [remaining, hf]

/-- A row of which only some cells are left is still a matching. -/
theorem isMatching_remaining {t : ℕ → Fin n → Option (Fin m)} {f : ℕ} (h : IsMatching (t f))
    (rest : List (Fin n)) : IsMatching (remaining t f rest f) := by
  intro a a' p ha ha'
  simp only [remaining, Function.update_self] at ha ha'
  split at ha
  · split at ha'
    · exact h ha ha'
    · exact nomatch ha'
  · exact nomatch ha

/-- Passing an input whose cell is empty leaves the table as it is. -/
theorem remaining_cons_of_none {t : ℕ → Fin n → Option (Fin m)} {f : ℕ} {i : Fin n}
    {rest : List (Fin n)} (hi : i ∉ rest) (hc : t f i = none) :
    remaining t f rest = remaining t f (i :: rest) := by
  rw [remaining_cons t f hi]
  funext f' i'
  rw [update₂_apply]
  split
  · rename_i heq
    rw [heq.1, heq.2]
    simp [remaining, hc]
  · rfl

/-- The state in the middle of the dispatch of row `f` of `b`: the inputs of `rest` are still to
    come.  The rows are those of `b`, while bits and counters are those of the rows from which
    the cells of the other inputs are gone. -/
structure Releasing (B : ℕ) (b : Booking n m) (f : ℕ) (rest : List (Fin n)) (b' : Booking n m) :
    Prop where
  nodup : rest.Nodup
  rows : b'.schedules = b.schedules
  tracks : Foundation.Tracks (· < B) (remaining b.schedules f rest) b'.inFlag b'.outFlag
  inputAvailable : ∀ i, b'.inputAvailability i = freeFrames (Finset.range B) (b'.inFlag i)
  outputAvailable : ∀ o, b'.outputAvailability o = freeFrames (Finset.range B) (b'.outFlag o)

/-- Serving one input of the dispatch loop. -/
theorem Releasing.step {B : ℕ} {b b' : Booking n m} {f : ℕ} {i : Fin n} {rest : List (Fin n)}
    (h : Releasing B b f (i :: rest) b') (hB : B ≤ bitmapWidth) (hf : f < B)
    (hrow : IsMatching (b.schedules f)) :
    Post (releaseInput f b' i) (fun _ => False) (Releasing B b f rest) := by
  obtain ⟨hi, hrest⟩ := List.nodup_cons.mp h.nodup
  unfold releaseInput
  rw [h.rows]
  cases hc : b.schedules f i with
  | none =>
    refine ⟨hrest, h.rows, ?_, h.inputAvailable, h.outputAvailable⟩
    rw [remaining_cons_of_none hi hc]
    exact h.tracks
  | some o =>
    -- The cell of `i` is still in the table that the bits track, so both of its bits are set.
    have hlive : remaining b.schedules f (i :: rest) f i = some o := by
      simpa [remaining] using hc
    simp only [require_pos (by omega : f < bitmapWidth), ok_bind]
    refine ⟨hrest, h.rows, ?_, ?_, ?_⟩
    · rw [remaining_cons _ _ hi]
      exact h.tracks.release (isMatching_remaining hrow _) hlive (b'.release_inFlag f i o)
        (b'.release_outFlag f i o)
    · exact counters_release h.inputAvailable (Finset.mem_range.mpr hf) (h.tracks.input hf hlive)
        (b'.release_inFlag f i o)
    · exact counters_release h.outputAvailable (Finset.mem_range.mpr hf)
        (h.tracks.output hf hlive) (b'.release_outFlag f i o)

/-- A dispatch keeps the invariant and clears its row. -/
theorem dispatchRow_eq_ok {B : ℕ} {b : Booking n m} (h : b.Consistent B B B)
    (hB : B ≤ bitmapWidth) {f : ℕ} (hf : f < B) :
    ∃ b', b.dispatchRow f = .ok b' ∧ b'.Consistent B B B ∧
      b'.schedules = Function.update b.schedules f (fun _ => none) := by
  have h0 : Releasing B b f (List.finRange n) b :=
    ⟨List.nodup_finRange n, rfl, by rw [remaining_finRange]; exact h.toTracks,
      h.inputAvailable, h.outputAvailable⟩
  have hloop := Post.foldlM_rest (Releasing B b f) (List.finRange n) b h0
    (fun i rest b' hb' => hb'.step hB hf (h.matching f hf))
  obtain ⟨b', hrun, hb'⟩ := hloop.exists_ok (fun _ _ he => he)
  have hrow : (b'.toReservations.clearRow f).schedules = remaining b.schedules f [] := by
    rw [Reservations.clearRow_schedules, hb'.rows, remaining_nil]
  refine ⟨{ b' with toReservations := b'.toReservations.clearRow f }, ?_, ?_, ?_⟩
  · rw [dispatchRow, hrun, ok_bind]
  · refine ⟨⟨?_, ?_⟩, hb'.inputAvailable, hb'.outputAvailable⟩
    · show Foundation.Tracks _ (b'.toReservations.clearRow f).schedules _ _
      rw [hrow]
      exact hb'.tracks
    · intro g hg
      show IsMatching ((b'.toReservations.clearRow f).schedules g)
      rw [hrow, remaining_nil, Function.update_apply]
      split
      · exact isMatching_none
      · exact h.matching g hg
  · exact hrow.trans (remaining_nil _ _)

end Booking

/-! ### Accepting proposals -/

/-- The state of the accept phase: the tables and the virtual departures so far. -/
structure Accepting (n m : ℕ) extends Booking n m where
  virtualDepartures : List (Fin n × Fin m)

namespace Accepting

/-- Grant one proposal if a frame is free. -/
def grant (frames : List ℕ) (out : Fin m) (acc : Accepting n m) (i : Fin n) :
    Except Fault (Accepting n m) := do
  match ← acc.toBooking.tryReserve frames i out with
  | none => .ok acc
  | some b =>
    .ok { toBooking := b, virtualDepartures := acc.virtualDepartures ++ [(i, out)] }

/-- The walk of `out` over its sorted proposals: it goes on while `proceed` holds of the
    availability of `out`, and then leaves the loop or, with `skip`, ignores the proposal. -/
def acceptLoop (proceed : ℤ → Bool) (skip : Bool) (frames : List ℕ) (out : Fin m) :
    List (Fin n) → Accepting n m → Except Fault (Accepting n m)
  | [], acc => .ok acc
  | i :: rest, acc =>
    if proceed (acc.outputAvailability out) then do
      let acc' ← acc.grant frames out i
      acceptLoop proceed skip frames out rest acc'
    else if skip then acceptLoop proceed skip frames out rest acc
    else .ok acc

variable {B k : ℕ} {frames : List ℕ} {I : Booking n m → Prop}

/-! ### One proposal -/

/-- The state after input `i` is granted frame `f`. -/
def grantAt (acc : Accepting n m) (f : ℕ) (i : Fin n) (out : Fin m) : Accepting n m where
  toBooking := acc.toBooking.take f i out
  virtualDepartures := acc.virtualDepartures ++ [(i, out)]

@[simp] theorem grantAt_virtualDepartures (acc : Accepting n m) (f : ℕ) (i : Fin n)
    (out : Fin m) :
    (acc.grantAt f i out).virtualDepartures = acc.virtualDepartures ++ [(i, out)] := rfl

theorem grantAt_inFlag (acc : Accepting n m) {f : ℕ} (hf : f < bitmapWidth) (i : Fin n)
    (out : Fin m) (i' : Fin n) (f' : ℕ) : (acc.grantAt f i out).inFlag i' f'
      = (decide (i' = i ∧ f' = f) || acc.inFlag i' f') := acc.book_inFlag hf i out i' f'

theorem grantAt_outFlag (acc : Accepting n m) {f : ℕ} (hf : f < bitmapWidth) (i : Fin n)
    (out o : Fin m) (f' : ℕ) : (acc.grantAt f i out).outFlag o f'
      = (decide (o = out ∧ f' = f) || acc.outFlag o f') := acc.book_outFlag hf i out o f'

/-- `grant` takes the chosen frame, if there is one. -/
theorem grant_eq {acc : Accepting n m} (hcovers : acc.toReservations.Covers k)
    (hk : k ≤ bitmapWidth) (hlive : ∀ f ∈ frames, f < k) (out : Fin m) (i : Fin n) :
    acc.grant frames out i = .ok (match Booking.choose frames acc.toBooking i out with
      | none => acc
      | some f => acc.grantAt f i out) := by
  unfold grant
  rw [Booking.tryReserve_eq hcovers hk hlive, ok_bind]
  cases Booking.choose frames acc.toBooking i out <;> rfl

/-- One proposal: nothing happens, or its pair is booked at a frame of the list. -/
theorem grant_post (hI : Booking.Kept frames k I) (hkB : k ≤ B) {acc : Accepting n m}
    (h : I acc.toBooking) (out : Fin m) (i : Fin n) :
    Post (acc.grant frames out i) (fun _ => False) (fun acc' =>
      ∃ gs, gs.Sublist [(i, out)] ∧ I acc'.toBooking ∧
        Granted B (· ∈ frames) acc.schedules acc'.schedules acc.virtualDepartures
          acc'.virtualDepartures gs) := by
  have hcovers := hI.covers _ h
  rw [grant_eq hcovers hI.width hI.live]
  cases hc : Booking.choose frames acc.toBooking i out with
  | none => exact ⟨[], List.nil_sublist _, h, Granted.refl ..⟩
  | some f =>
    obtain ⟨hf, hi, ho⟩ := Booking.choose_eq_some hc
    have hlive := hI.live f hf
    refine ⟨[(i, out)], List.Sublist.refl _, hI.take _ f i out h hf hi ho, ?_, rfl⟩
    exact Extends.single (Finset.mem_range.mpr (by omega)) hf (hcovers.cell_eq_none hlive hi)

/-! ### One output -/

/-- One output: some of its proposals are granted, each at most once. -/
theorem acceptLoop_post (hI : Booking.Kept frames k I) (hkB : k ≤ B) (proceed : ℤ → Bool)
    (skip : Bool) (out : Fin m) (ins : List (Fin n)) {acc : Accepting n m}
    (h : I acc.toBooking) :
    Post (acc.acceptLoop proceed skip frames out ins) (fun _ => False) (fun acc' =>
      ∃ gs, gs.Sublist (ins.map (·, out)) ∧ I acc'.toBooking ∧
        Granted B (· ∈ frames) acc.schedules acc'.schedules acc.virtualDepartures
          acc'.virtualDepartures gs) := by
  induction ins generalizing acc with
  | nil => exact ⟨[], List.nil_sublist _, h, Granted.refl ..⟩
  | cons i rest ih =>
    unfold acceptLoop
    split
    · refine (grant_post hI hkB h out i).bind ?_
      rintro acc' ⟨gs, hsub, hcons, hgs⟩
      refine (ih hcons).imp ?_
      rintro acc'' ⟨gs', hsub', hcons', hgs'⟩
      exact ⟨gs ++ gs', hsub.append hsub', hcons', hgs.trans hgs'⟩
    · -- `continue` passes over the proposal, `break` over all that follow.
      split
      · refine (ih h).imp ?_
        rintro acc' ⟨gs, hsub, hcons, hgs⟩
        exact ⟨gs, hsub.cons _, hcons, hgs⟩
      · exact ⟨[], List.nil_sublist _, h, Granted.refl ..⟩

/-- The frames of the list at which `out` is free. -/
abbrev freeAt (frames : List ℕ) (acc : Accepting n m) (out : Fin m) : List ℕ :=
  frames.filter (fun f => !acc.outFlag out f)

/-- With exact counters, the frame chosen for `i` is the first that suits it among those at which
    `out` is free. -/
theorem choose_eq_find?_freeAt {c : ℕ} {acc : Accepting n m}
    (h : acc.toBooking.Consistent B c k) (hframes : ∀ f ∈ frames, f < c) (i : Fin n)
    (out : Fin m) :
    Booking.choose frames acc.toBooking i out
      = (freeAt frames acc out).find? (fun f => !acc.inFlag i f) := by
  rw [h.choose_eq hframes, List.find?_filter]
  congr 1
  ext f
  cases acc.inFlag i f <;> cases acc.outFlag out f <;> rfl

/-- The frame of a grant is no longer free for its output. -/
theorem freeAt_grantAt (acc : Accepting n m) {f : ℕ} (hf : f < bitmapWidth) (i : Fin n)
    (out : Fin m) :
    freeAt frames (acc.grantAt f i out) out = (freeAt frames acc out).filter (· ≠ f) := by
  unfold freeAt
  rw [List.filter_filter]
  congr 1
  ext f'
  rw [grantAt_outFlag acc hf]
  by_cases hff : f' = f <;> simp [hff]

/-- Clients other than the one granted see no difference in what suits them. -/
theorem served_grantAt (acc : Accepting n m) {f : ℕ} (hf : f < bitmapWidth) {i : Fin n}
    (out : Fin m) {rest : List (Fin n)} (hi : i ∉ rest) :
    FirstFit.served (fun i' f' => !(acc.grantAt f i out).inFlag i' f') rest
        (freeAt frames (acc.grantAt f i out) out)
      = FirstFit.served (fun i' f' => !acc.inFlag i' f') rest
        ((freeAt frames acc out).filter (· ≠ f)) := by
  rw [freeAt_grantAt acc hf i out]
  refine FirstFit.served_congr (fun i' hi' s _ => ?_)
  have hne : i' ≠ i := by
    intro he
    exact hi (he ▸ hi')
  rw [show (acc.grantAt f i out).inFlag i' = acc.inFlag i' from acc.book_inFlag_of_ne f out hne]

/-- An output whose counter is down to zero has no free frame. -/
theorem freeAt_eq_nil {c : ℕ} {acc : Accepting n m} (h : acc.toBooking.Consistent B c k)
    (hframes : ∀ f ∈ frames, f < c) {out : Fin m} (hpos : ¬ acc.outputAvailability out > 0) :
    freeAt frames acc out = [] := by
  have hzero : freeFrames (Finset.range c) (acc.outFlag out) = 0 := by
    have hcount := h.outputAvailable out
    omega
  refine List.filter_eq_nil_iff.mpr (fun f hf => ?_)
  simp [flag_of_freeFrames_eq_zero (Finset.mem_range.mpr (hframes f hf)) hzero]

/-- With exact counters, the walk of `out` is first fit: the clients are its proposals and the
    slots the frames at which it is free. -/
theorem acceptLoop_eq_ok {c : ℕ} (hck : c ≤ k) (hk : k ≤ bitmapWidth)
    (hframes : ∀ f, f ∈ frames ↔ f < c) (out : Fin m) {ins : List (Fin n)} (hins : ins.Nodup)
    {acc : Accepting n m} (h : acc.toBooking.Consistent B c k) :
    ∃ acc', acc.acceptLoop (fun available => decide (available > 0)) false frames out ins
        = .ok acc' ∧ acc'.toBooking.Consistent B c k ∧
      acc'.virtualDepartures = acc.virtualDepartures ++
        (FirstFit.served (fun i f => !acc.inFlag i f) ins
          (frames.filter (fun f => !acc.outFlag out f))).map (·, out) ∧
      (∀ f, f ∉ frames → acc'.schedules f = acc.schedules f) ∧
      (∀ i, i ∉ ins → acc'.inFlag i = acc.inFlag i) ∧
      ∀ o, o ≠ out → acc'.outFlag o = acc.outFlag o := by
  induction ins generalizing acc with
  | nil =>
    exact ⟨acc, rfl, h, by simp [FirstFit.served], fun _ _ => rfl, fun _ _ => rfl, fun _ _ => rfl⟩
  | cons i rest ih =>
    obtain ⟨hi, hrest⟩ := List.nodup_cons.mp hins
    have hlt : ∀ f ∈ frames, f < c := fun f hf => (hframes f).mp hf
    unfold acceptLoop
    by_cases hpos : acc.outputAvailability out > 0
    · have hlive : ∀ f ∈ frames, f < k := fun f hf => lt_of_lt_of_le (hlt f hf) hck
      rw [if_pos (decide_eq_true hpos), grant_eq h.covers hk hlive, ok_bind]
      unfold FirstFit.served
      rw [← choose_eq_find?_freeAt h hlt]
      cases hc : Booking.choose frames acc.toBooking i out with
      | none =>
        obtain ⟨acc', hrun, hcons, hdep, hrows, hin, hout⟩ := ih hrest h
        exact ⟨acc', hrun, hcons, hdep, hrows,
          fun i' hi' => hin i' (fun hmem => hi' (List.mem_cons_of_mem i hmem)), hout⟩
      | some f =>
        obtain ⟨hf, hfi, hfo⟩ := Booking.choose_eq_some hc
        have hwidth : f < bitmapWidth := by
          have := hlive f hf
          omega
        have hcons : (acc.grantAt f i out).toBooking.Consistent B c k :=
          h.take hk (hlive f hf) (hlt f hf) hfi hfo
        obtain ⟨acc', hrun, hcons', hdep, hrows, hin, hout⟩ := ih hrest hcons
        refine ⟨acc', hrun, hcons', ?_, fun g hg => ?_, fun i' hi' => ?_, fun o ho => ?_⟩
        · rw [hdep, served_grantAt acc hwidth out hi, grantAt_virtualDepartures]
          simp
        · rw [hrows g hg]
          show update₂ acc.schedules f i (some out) g = _
          exact update₂_row_of_ne _ (fun hgf : g = f => hg (hgf ▸ hf)) _ _
        · rw [List.mem_cons, not_or] at hi'
          exact (hin i' hi'.2).trans (acc.book_inFlag_of_ne f out hi'.1)
        · exact (hout o ho).trans (acc.book_outFlag_of_ne f i ho)
    · -- No frame is free for `out`, so first fit would serve nobody either.
      have hnone := freeAt_eq_nil h hlt hpos
      rw [if_neg (by simpa using hpos), if_neg (by simp)]
      exact ⟨acc, rfl, h, by simp [hnone], fun _ _ => rfl, fun _ _ => rfl, fun _ _ => rfl⟩

/-! ### All outputs -/

/-- All outputs in turn: the grants are some of the proposals, each at most once. -/
theorem acceptAll_post (hI : Booking.Kept frames k I) (hkB : k ≤ B) (proceed : ℤ → Bool)
    (skip : Bool) (ins : Fin m → List (Fin n)) (outs : List (Fin m)) (acc : Accepting n m)
    (h : I acc.toBooking) :
    Post (outs.foldlM (fun acc out => acc.acceptLoop proceed skip frames out (ins out)) acc)
      (fun _ => False) (fun acc' =>
        ∃ gs, gs.Sublist (proposalPairs ins outs) ∧ I acc'.toBooking ∧
        Granted B (· ∈ frames) acc.schedules acc'.schedules acc.virtualDepartures
          acc'.virtualDepartures gs) := by
  induction outs generalizing acc with
  | nil => exact ⟨[], List.nil_sublist _, h, Granted.refl ..⟩
  | cons out rest ih =>
    rw [List.foldlM_cons]
    refine (acceptLoop_post hI hkB proceed skip out (ins out) h).bind ?_
    rintro acc' ⟨gs, hsub, hcons, hgs⟩
    refine (ih acc' hcons).imp ?_
    rintro acc'' ⟨gs', hsub', hcons', hgs'⟩
    exact ⟨gs ++ gs', hsub.append hsub', hcons', hgs.trans hgs'⟩

end Accepting

end SschedSimulator
