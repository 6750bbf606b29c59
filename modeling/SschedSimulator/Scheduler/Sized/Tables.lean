import SschedSimulator.Foundation.Checked
import SschedSimulator.Scheduler.Booking
import SschedSimulator.Scheduler.RrSampler
import SschedSimulator.Scheduler.SbQps.Batch
import SschedSimulator.Scheduler.Sized.Trees

namespace SschedSimulator

open Foundation

/-!
# Tables of schedules with a size

A batch scheduler has one row of `schedules` for each frame of the batch.  The functions here are
those of the tables with each access to a row checked against the number of rows.  The positions
used in the match bitmaps are frames as well, so that one argument covers both.

* `OutOfRange` — the faults of an access out of range;
* `Within` — a program with checked accesses, beside the program without them;
* one lemma for each step that several schedulers share: the queues, the tables, the dispatch.
-/

variable {n m : ℕ} {ports : Prop}

/-- An access out of range: a position outside a bitmap or, where the ports are as the vectors need
    them, an element outside a vector. -/
def OutOfRange (ports : Prop) (e : Fault) : Prop :=
  e = .bitOutOfRange ∨ ports ∧ e = .indexOutOfRange

/-- The assertions are no such accesses. -/
theorem not_outOfRange {e : Fault} (hbit : e ≠ .bitOutOfRange) (hindex : e ≠ .indexOutOfRange) :
    ¬ OutOfRange ports e :=
  fun h => h.elim hbit (fun h => hindex h.2)

/-- A program that is in range without additional checks. -/
abbrev InRange {α : Type} (ports : Prop) (Q : α → Prop) (x : Except Fault α) : Prop :=
  Checked (OutOfRange ports) Q x x

/-- The checks of `x'` change nothing: it is in range, and does what `x` does. -/
abbrev Within {α : Type} (ports : Prop) (x' x : Except Fault α) : Prop :=
  Checked (OutOfRange ports) (fun _ => True) x' x

/-- An assertion about something else than an index. -/
theorem InRange.assert {p : Prop} [Decidable p] {e : Fault} (hbit : e ≠ .bitOutOfRange)
    (hindex : e ≠ .indexOutOfRange) : InRange ports (fun _ => p) (require p e) :=
  .require (fun _ => not_outOfRange hbit hindex)

/-- A check of the program itself, which holds. -/
theorem InRange.check {p : Prop} [Decidable p] {e : Fault} (h : p) :
    InRange ports (fun _ => p) (require p e) :=
  .require (fun hp => absurd h hp)

/-- A check against the size of a vector is no matter of the bitmaps. -/
theorem InRange.size {p : Prop} [Decidable p] :
    InRange False (fun _ => True) (require p Fault.indexOutOfRange) :=
  .of_post (Post.require (fun _ h => h.elim (by decide) (fun h => h.1)) (fun _ => trivial))

/-! ### The queues -/

/-- The faults of the proposals are no accesses. -/
theorem inRange_propose {κ : Type} (len : Fin n → ℤ) (count : Fin n → Fin m → ℤ)
    (sample : Fin n → Option (Fin m)) (keep : Fin n → Fin m → κ → κ) (inputs : List (Fin n))
    (init : Fin m → κ) :
    InRange ports (fun _ => True) (propose len count sample keep inputs init) := by
  refine Checked.loop (fun i _ acc => ?_)
  split
  · exact .ok trivial
  · split
    · exact .error (not_outOfRange (by decide) (by decide))
    · exact (InRange.assert (by decide) (by decide)).map

/-- A sampler may find nothing to remove, which is no access. -/
theorem QueueSampler.inRange_removeItem (q : QueueSampler m) (dst : Fin m) :
    InRange ports (fun _ => True) (q.removeItem dst) :=
  (InRange.assert (by decide) (by decide)).map

/-- The departures of a slot. -/
theorem inRange_removeDepartures (queues : Fin n → QueueSampler m)
    (departures : List (Fin n × Fin m)) :
    InRange ports (fun _ => True) (removeDepartures queues departures) := by
  refine Checked.loop (fun p _ qs => ?_)
  refine (InRange.assert (by decide) (by decide)).bind (fun _ _ => ?_)
  exact (QueueSampler.inRange_removeItem _ _).map

/-- A leaf may become negative; its position is in the tree. -/
theorem inRange_updateLeaf (bst : Fin n → Bst) (i : Fin n) (o : Fin m) (delta : ℤ) :
    InRange ports (fun _ => True) (updateLeaf bst i o delta) := by
  refine .of_post ((updateLeaf_faults bst i o delta).mono (fun e he => ?_) (fun _ h => h))
  rw [he]
  exact not_outOfRange (by decide) (by decide)

namespace SbQps.VoqState

/-- One count and its leaf. -/
theorem inRange_add (v : VoqState n m) (i : Fin n) (o : Fin m) (delta : ℤ) :
    InRange ports (fun _ => True) (v.add i o delta) :=
  (inRange_updateLeaf _ _ _ _).map.map

/-- The arrivals of a slot. -/
theorem inRange_handlePacketArrivals (arrivals : List (Fin n × Fin m)) (v : VoqState n m) :
    InRange ports (fun _ => True) (v.handlePacketArrivals arrivals) :=
  Checked.loop (fun _ _ v' => v'.inRange_add _ _ _)

/-- The departures of a slot, counts and leaves. -/
theorem inRange_handlePacketDepartures (departures : List (Fin n × Fin m)) (v : VoqState n m) :
    InRange ports (fun _ => True) (v.handlePacketDepartures departures) :=
  Checked.loop (fun _ _ v' =>
    (InRange.assert (by decide) (by decide)).bind (fun _ _ => v'.inRange_add _ _ _))

end SbQps.VoqState

/-! ### The tables -/

/-- A frame of the batch has its bit. -/
theorem inRange_testBit (b : Bitset bitmapWidth) {f : ℕ} (hf : f < bitmapWidth) :
    InRange ports (fun _ => True) (testBit b f) :=
  (InRange.check hf).map

/-- First fit returns one of the frames it tries. -/
theorem inRange_firstFit (matched : Bitset bitmapWidth) {frames : List ℕ}
    (h : ∀ f ∈ frames, f < bitmapWidth) :
    InRange ports (fun r => ∀ f, r = some f → f ∈ frames) (firstFit matched frames) := by
  refine .of_post ?_
  rw [firstFit_eq_find? matched h]
  exact fun f hf => List.mem_of_find?_eq_some hf

namespace Reservations

/-- The match of the current slot. -/
theorem inRange_assignNow (r : Reservations n m) {f : ℕ} (hf : f < bitmapWidth) (i : Fin n)
    (o : Fin m) : InRange ports (fun _ => True) (r.assignNow f i o) :=
  (InRange.check hf).map

/-- A match of another frame, which may be taken. -/
theorem inRange_reserve (r : Reservations n m) {f : ℕ} (hf : f < bitmapWidth) (i : Fin n)
    (o : Fin m) : InRange ports (fun _ => True) (r.reserve f i o) :=
  (InRange.check hf).bind
    (fun _ _ => (InRange.assert (by decide) (by decide)).map)

end Reservations

namespace Booking

/-- The same with the availability counted. -/
theorem inRange_reserve (b : Booking n m) {f : ℕ} (hf : f < bitmapWidth) (i : Fin n)
    (o : Fin m) : InRange ports (fun _ => True) (b.reserve f i o) :=
  (InRange.check hf).bind
    (fun _ _ => (InRange.assert (by decide) (by decide)).map)

namespace Sized

/-- The reservation of a frame. -/
def reserve (rows : ℕ) (b : Booking n m) (f : ℕ) (i : Fin n) (o : Fin m) :
    Except Fault (Booking n m) := do
  require (f < rows) .indexOutOfRange
  b.reserve f i o

/-- `Booking.tryReserve`. -/
def tryReserve (rows : ℕ) (frames : List ℕ) (b : Booking n m) (i : Fin n) (o : Fin m) :
    Except Fault (Option (Booking n m)) :=
  if b.inputAvailability i = 0 then .ok none
  else do
    match ← b.firstFree frames i o with
    | none => .ok none
    | some f => do
      let b' ← reserve rows b f i o
      .ok (some b')

/-- `Booking.dispatchRow`; all its accesses are to row `f`. -/
def dispatchRow (rows f : ℕ) (b : Booking n m) : Except Fault (Booking n m) := do
  require (f < rows) .indexOutOfRange
  b.dispatchRow f

variable {rows : ℕ}

/-- A frame below the number of rows is a row. -/
theorem reserve_checked (b : Booking n m) {f : ℕ} (hf : f < rows) (hrows : rows ≤ bitmapWidth)
    (i : Fin n) (o : Fin m) :
    Within ports (reserve rows b f i o) (b.reserve f i o) :=
  .guard hf (b.inRange_reserve (lt_of_lt_of_le hf hrows) i o)

/-- The frames that are tried are rows. -/
theorem tryReserve_checked (b : Booking n m) {frames : List ℕ} (h : ∀ f ∈ frames, f < rows)
    (hrows : rows ≤ bitmapWidth) (i : Fin n) (o : Fin m) :
    Within ports (tryReserve rows frames b i o) (b.tryReserve frames i o) := by
  unfold tryReserve Booking.tryReserve
  split
  · exact .ok trivial
  · refine (inRange_firstFit _ (fun f hf => lt_of_lt_of_le (h f hf) hrows)).bind (fun r hr => ?_)
    cases r with
    | none => exact .ok trivial
    | some f =>
      exact (reserve_checked b (h f (hr f rfl)) hrows i o).map

/-- The row of the slot is there to be dispatched. -/
theorem dispatchRow_checked (b : Booking n m) {f : ℕ} (hf : f < rows)
    (hrows : rows ≤ bitmapWidth) :
    Within ports (dispatchRow rows f b) (b.dispatchRow f) := by
  refine .guard hf ((Checked.loop (fun i _ b' => ?_)).map)
  unfold releaseInput
  split
  · exact .ok trivial
  · exact (InRange.check (lt_of_lt_of_le hf hrows)).map

end Sized

end Booking

namespace Accepting.Sized

/-- `Accepting.grant`. -/
def grant (rows : ℕ) (frames : List ℕ) (out : Fin m) (acc : Accepting n m) (i : Fin n) :
    Except Fault (Accepting n m) := do
  match ← Booking.Sized.tryReserve rows frames acc.toBooking i out with
  | none => .ok acc
  | some b =>
    .ok { toBooking := b, virtualDepartures := acc.virtualDepartures ++ [(i, out)] }

/-- `Accepting.acceptLoop`. -/
def acceptLoop (rows : ℕ) (proceed : ℤ → Bool) (skip : Bool) (frames : List ℕ) (out : Fin m) :
    List (Fin n) → Accepting n m → Except Fault (Accepting n m)
  | [], acc => .ok acc
  | i :: rest, acc =>
    if proceed (acc.outputAvailability out) then do
      let acc' ← grant rows frames out acc i
      acceptLoop rows proceed skip frames out rest acc'
    else if skip then acceptLoop rows proceed skip frames out rest acc
    else .ok acc

/-- What an output grants stays within the rows. -/
theorem grant_checked {rows : ℕ} {frames : List ℕ} (h : ∀ f ∈ frames, f < rows)
    (hrows : rows ≤ bitmapWidth) (out : Fin m) (acc : Accepting n m) (i : Fin n) :
    Within ports (grant rows frames out acc i) (acc.grant frames out i) := by
  refine (Booking.Sized.tryReserve_checked acc.toBooking h hrows i out).bind (fun r _ => ?_)
  cases r <;> exact .ok trivial

/-- The walk of an output over its proposals. -/
theorem acceptLoop_checked {rows : ℕ} (proceed : ℤ → Bool) (skip : Bool) {frames : List ℕ}
    (h : ∀ f ∈ frames, f < rows) (hrows : rows ≤ bitmapWidth) (out : Fin m) (ins : List (Fin n))
    (acc : Accepting n m) :
    Within ports (acceptLoop rows proceed skip frames out ins acc)
      (acc.acceptLoop proceed skip frames out ins) := by
  induction ins generalizing acc with
  | nil => exact .ok trivial
  | cons i rest ih =>
    unfold acceptLoop Accepting.acceptLoop
    split
    · exact (grant_checked h hrows out acc i).bind (fun acc' _ => ih acc')
    · split
      · exact ih acc
      · exact .ok trivial

end Accepting.Sized

end SschedSimulator
