import SschedSimulator.Scheduler.SbQps.AvailabilityAware
import SschedSimulator.Scheduler.SbQps.Basic
import SschedSimulator.Scheduler.SbQps.MultiAccept
import SschedSimulator.Scheduler.SbQps.MultiIteration
import SschedSimulator.Scheduler.SbQps.Oblivious
import SschedSimulator.Scheduler.Sized.Tables

namespace SschedSimulator

open Foundation

/-!
# Small batches over sized tables

A slot of a batch uses the frame of the slot and earlier ones, all of them below the frame size,
which is the number of rows.

* `SbQps.Sized.schedule_checked` — a call is in range if its rounds are;
* `qps_checked` — the rounds of each scheduler are, whatever the state.
-/

namespace SbQps

variable {n m B t : ℕ} {ports : Prop}

/-- The frames tried for a slot of the batch are frames of the batch. -/
theorem lt_of_mem_earlierFrames {f : ℕ} (ht : t ≤ B) (hf : f ∈ earlierFrames t) : f < B :=
  lt_of_lt_of_le (mem_earlierFrames.mp hf) ht

/-- `schedule`: the row of the slot is copied and cleared. -/
def Sized.schedule {τ : Type} [BatchTables τ n m] (qps : ℕ → Core τ n m → Except Fault (Core τ n m))
    (B : ℕ) (sw : IQSwitch n m) (st : SbState τ n m) : Except Fault (SbState τ n m) := do
  require (st.cfRelTime % B < B) .indexOutOfRange
  SbQps.schedule qps B sw st

/-- A call is in range if its `qps` is. -/
theorem Sized.schedule_checked {τ : Type} [BatchTables τ n m]
    {qps' qps : ℕ → Core τ n m → Except Fault (Core τ n m)} (hB1 : 1 ≤ B)
    (hqps : ∀ t < B, ∀ core,
      Within ports (qps' t core) (qps t core))
    (sw : IQSwitch n m) (st : SbState τ n m) :
    Within ports (Sized.schedule qps' B sw st) (SbQps.schedule qps B sw st) := by
  have ht : st.cfRelTime % B < B := Nat.mod_lt _ hB1
  refine .guard ht (Checked.map (Q := fun _ => True) ?_)
  refine Checked.bind (VoqState.inRange_handlePacketArrivals _ _).map (fun core _ => ?_)
  exact (hqps _ ht core).map

/-! ### Plain tables -/

namespace PlainAccepting.Sized

/-- `PlainAccepting.serveNow`. -/
def serveNow (B timeSlot : ℕ) (out : Fin m) (i : Fin n) (acc : PlainAccepting n m) :
    Except Fault (PlainAccepting n m) := do
  require (timeSlot < B) .indexOutOfRange
  acc.serveNow timeSlot out i

/-- `PlainAccepting.fill`. -/
def fill (B : ℕ) (frames : List ℕ) (out : Fin m) (i : Fin n) (acc : PlainAccepting n m) :
    Except Fault (PlainAccepting n m) := do
  match ← acc.firstFree frames i out with
  | none => .ok acc
  | some f =>
    require (f < B) .indexOutOfRange
    let r ← acc.toReservations.reserve f i out
    .ok { toReservations := r, virtualDepartures := acc.virtualDepartures ++ [(i, out)] }

/-- The match of the current slot. -/
theorem serveNow_checked (hB : B ≤ bitmapWidth) (ht : t < B) (out : Fin m) (i : Fin n)
    (acc : PlainAccepting n m) :
    Within ports (serveNow B t out i acc) (acc.serveNow t out i) :=
  .guard ht (acc.toReservations.inRange_assignNow (lt_of_lt_of_le ht hB) i out).map

/-- First fit over the earlier frames. -/
theorem fill_checked (hB : B ≤ bitmapWidth) {frames : List ℕ} (h : ∀ f ∈ frames, f < B)
    (out : Fin m) (i : Fin n) (acc : PlainAccepting n m) :
    Within ports (fill B frames out i acc) (acc.fill frames out i) := by
  have hwidth : ∀ f ∈ frames, f < bitmapWidth := fun f hf => lt_of_lt_of_le (h f hf) hB
  refine (inRange_firstFit _ hwidth).bind (fun r hr => ?_)
  cases r with
  | none => exact .ok trivial
  | some f =>
    have hf := hr f rfl
    exact .guard (h f hf) (acc.toReservations.inRange_reserve (hwidth f hf) i out).map

end PlainAccepting.Sized

namespace Basic.Sized

/-- One output of the accept phase. -/
def acceptOutput (B timeSlot : ℕ) (outAccepts : Fin m → List (Fin n)) (acc : PlainAccepting n m)
    (out : Fin m) : Except Fault (PlainAccepting n m) :=
  match outAccepts out with
  | [] => .ok acc
  | i :: _ => PlainAccepting.Sized.serveNow B timeSlot out i acc

/-- `qps`. -/
def qps (B : ℕ) (draws : TreeDraws n m) (timeSlot : ℕ) (core : Core (Reservations n m) n m) :
    Except Fault (Core (Reservations n m) n m) := do
  let outAccepts ← propose core.voq.getQueueLengthForInput core.voq.voqLength
    (draws.outputs core.voq.bst) (keepLongest core.voq.voqLength) draws.shuffle.val (fun _ => [])
  let acc ← (List.finRange m).foldlM (acceptOutput B timeSlot outAccepts)
    { toReservations := core.tables, virtualDepartures := [] }
  let voq ← core.voq.handlePacketDepartures acc.virtualDepartures
  .ok { tables := acc.toReservations, voq := voq }

theorem qps_checked (hB : B ≤ bitmapWidth) (ht : t < B) (draws : TreeDraws n m)
    (core : Core (Reservations n m) n m) :
    Within ports (qps B draws t core) (Basic.qps draws t core) := by
  refine (inRange_propose _ _ _ _ _ _).bind (fun outAccepts _ => ?_)
  refine (Checked.loop (fun out _ acc => ?_)).bind (fun acc _ => ?_)
  · unfold acceptOutput Basic.acceptOutput
    cases outAccepts out with
    | nil => exact .ok trivial
    | cons i rest => exact PlainAccepting.Sized.serveNow_checked hB ht out i acc
  · exact (VoqState.inRange_handlePacketDepartures _ _).map

end Basic.Sized

namespace HalfHalfOblivious.Sized

/-- One output of the accept phase. -/
def acceptOutput (B timeSlot : ℕ) (outAccepts : Fin m → TopTwo n) (acc : PlainAccepting n m)
    (out : Fin m) : Except Fault (PlainAccepting n m) :=
  match (outAccepts out).1 with
  | none => .ok acc
  | some i => do
    let acc' ← PlainAccepting.Sized.serveNow B timeSlot out i acc
    match (outAccepts out).2 with
    | none => .ok acc'
    | some second =>
      if maxAccepts B timeSlot > 1 then
        PlainAccepting.Sized.fill B (earlierFrames timeSlot) out second acc'
      else .ok acc'

/-- `qps`. -/
def qps (B : ℕ) (draws : TreeDraws n m) (timeSlot : ℕ) (core : Core (Reservations n m) n m) :
    Except Fault (Core (Reservations n m) n m) := do
  let outAccepts ← propose core.voq.getQueueLengthForInput core.voq.voqLength
    (draws.outputs core.voq.bst) (keepTopTwo core.voq.voqLength) draws.shuffle.val
    (fun _ => (none, none))
  let acc ← (List.finRange m).foldlM (acceptOutput B timeSlot outAccepts)
    { toReservations := core.tables, virtualDepartures := [] }
  let voq ← core.voq.handlePacketDepartures acc.virtualDepartures
  .ok { tables := acc.toReservations, voq := voq }

theorem qps_checked (hB : B ≤ bitmapWidth) (ht : t < B) (draws : TreeDraws n m)
    (core : Core (Reservations n m) n m) :
    Within ports (qps B draws t core) (HalfHalfOblivious.qps B draws t core) := by
  refine (inRange_propose _ _ _ _ _ _).bind (fun outAccepts _ => ?_)
  refine (Checked.loop (fun out _ acc => ?_)).bind (fun acc _ => ?_)
  · unfold acceptOutput HalfHalfOblivious.acceptOutput
    cases (outAccepts out).1 with
    | none => exact .ok trivial
    | some i =>
      refine (PlainAccepting.Sized.serveNow_checked hB ht out i acc).bind (fun acc' _ => ?_)
      cases (outAccepts out).2 with
      | none => exact .ok trivial
      | some second =>
        dsimp only
        split
        · exact PlainAccepting.Sized.fill_checked hB
            (fun f hf => lt_of_mem_earlierFrames ht.le hf) out second acc'
        · exact .ok trivial
  · exact (VoqState.inRange_handlePacketDepartures _ _).map

end HalfHalfOblivious.Sized

/-! ### Tables with availabilities -/

namespace Availability.Sized

/-- `Availability.serveNow`. -/
def serveNow (B timeSlot : ℕ) (out : Fin m) (i : Fin n) (acc : Accepting n m) :
    Except Fault (Accepting n m) := do
  require (timeSlot < B) .indexOutOfRange
  Availability.serveNow timeSlot out i acc

/-- One output of the accept phase. -/
def acceptOutput (B : ℕ) (sort : DescSort (Fin n)) (voqLength : Fin n → Fin m → ℤ)
    (maxAccepts : Fin m → ℤ) (timeSlot : ℕ) (outAccepts : Fin m → List (Fin n))
    (acc : Accepting n m) (out : Fin m) : Except Fault (Accepting n m) :=
  match outAccepts out with
  | [] => .ok acc
  | i :: rest => do
    let acc' ← serveNow B timeSlot out i acc
    if maxAccepts out > 1 then
      Accepting.Sized.acceptLoop B (fun available => decide (available > 0)) false
        (earlierFrames timeSlot) out
        (remaining sort voqLength (maxAccepts out) out (i :: rest)) acc'
    else .ok acc'

/-- A round; the row of the slot is read once more for the counts. -/
def round (B : ℕ) (sort : DescSort (Fin n)) (maxAccepts : Fin m → ℤ) (draws : TreeDraws n m)
    (timeSlot : ℕ) (core : Core (Booking n m) n m) : Except Fault (Core (Booking n m) n m) := do
  let outAccepts ← proposeAll maxAccepts draws core.voq
  let acc ← (List.finRange m).foldlM
    (acceptOutput B sort core.voq.voqLength maxAccepts timeSlot outAccepts)
    { toBooking := core.tables, virtualDepartures := [] }
  let voq ← core.voq.handlePacketDepartures acc.virtualDepartures
  require (timeSlot < B) .indexOutOfRange
  .ok
    { tables := countUnmatched timeSlot (fun out => (outAccepts out).head?) acc.toBooking
      voq := voq }

/-- One output of the availability-aware accept phase. -/
theorem acceptOutput_checked (hB : B ≤ bitmapWidth) (ht : t < B) (sort : DescSort (Fin n))
    (voqLength : Fin n → Fin m → ℤ) (maxAccepts : Fin m → ℤ) (outAccepts : Fin m → List (Fin n))
    (acc : Accepting n m) (out : Fin m) :
    Within ports (acceptOutput B sort voqLength maxAccepts t outAccepts acc out)
      (Availability.acceptOutput sort voqLength maxAccepts t outAccepts acc out) := by
  unfold acceptOutput Availability.acceptOutput
  cases outAccepts out with
  | nil => exact .ok trivial
  | cons i rest =>
    refine Checked.bind (Q := fun _ => True) (.guard ht ?_) (fun acc' _ => ?_)
    · exact (acc.toReservations.inRange_assignNow (lt_of_lt_of_le ht hB) i out).map
    · split
      · exact Accepting.Sized.acceptLoop_checked _ _
          (fun f hf => lt_of_mem_earlierFrames ht.le hf) hB out _ acc'
      · exact .ok trivial

/-- A round of proposals and accepts. -/
theorem round_checked (hB : B ≤ bitmapWidth) (ht : t < B) (sort : DescSort (Fin n))
    (maxAccepts : Fin m → ℤ) (draws : TreeDraws n m) (core : Core (Booking n m) n m) :
    Within ports (round B sort maxAccepts draws t core)
      (Availability.round sort maxAccepts draws t core) := by
  refine (inRange_propose _ _ _ _ _ _).bind (fun outAccepts _ => ?_)
  refine (Checked.loop (fun out _ acc => ?_)).bind (fun acc _ => ?_)
  · exact acceptOutput_checked hB ht sort _ maxAccepts outAccepts acc out
  · refine (VoqState.inRange_handlePacketDepartures _ _).bind (fun voq _ => ?_)
    exact .guard ht (.ok trivial)

end Availability.Sized

/-- `qps` of the availability-aware schedulers. -/
def AvailabilityAware.Sized.qps (maxAccepts : Policy n m) (B : ℕ) (sort : DescSort (Fin n))
    (draws : TreeDraws n m) (timeSlot : ℕ) (core : Core (Booking n m) n m) :
    Except Fault (Core (Booking n m) n m) :=
  Availability.Sized.round B sort (maxAccepts B timeSlot core.tables) draws timeSlot core

/-- `qps` of the schedulers with several iterations. -/
def MultiIteration.Sized.qps (limits : Limits) (B : ℕ) (sort : DescSort (Fin n))
    (draws : ℕ → TreeDraws n m) (timeSlot : ℕ) (core : Core (Booking n m) n m) :
    Except Fault (Core (Booking n m) n m) :=
  (List.range (limits.maxIters B timeSlot)).foldlM (fun core k =>
    Availability.Sized.round B sort (fun _ => limits.maxAccepts B timeSlot) (draws k) timeSlot core)
    core

/-- One round in each slot. -/
theorem AvailabilityAware.Sized.qps_checked (hB : B ≤ bitmapWidth) (ht : t < B)
    (maxAccepts : Policy n m) (sort : DescSort (Fin n)) (draws : TreeDraws n m)
    (core : Core (Booking n m) n m) :
    Within ports (Sized.qps maxAccepts B sort draws t core)
      (AvailabilityAware.qps maxAccepts B sort draws t core) :=
  Availability.Sized.round_checked hB ht sort _ draws core

/-- As many rounds as the slot of the batch asks for. -/
theorem MultiIteration.Sized.qps_checked (hB : B ≤ bitmapWidth) (ht : t < B) (limits : Limits)
    (sort : DescSort (Fin n)) (draws : ℕ → TreeDraws n m) (core : Core (Booking n m) n m) :
    Within ports (Sized.qps limits B sort draws t core)
      (MultiIteration.qps limits B sort draws t core) :=
  Checked.loop
    (fun k _ core' => Availability.Sized.round_checked hB ht sort _ (draws k) core')

/-! ### Several frames for a proposal -/

namespace MultiAccept.Sized

open Availability (proposeAll countUnmatched)

/-- `MultiAccept.reserveFrame`. -/
def reserveFrame (B timeSlot : ℕ) (out : Fin m) (i : Fin n) (acc : MultiAccepting n m) (f : ℕ) :
    Except Fault (MultiAccepting n m) := do
  require (f < B) .indexOutOfRange
  MultiAccept.reserveFrame timeSlot out i acc f

/-- `MultiAccept.reserveFrames`. -/
def reserveFrames (B timeSlot : ℕ) (out : Fin m) (i : Fin n)
    (isAlreadyMatched : Bitset bitmapWidth) :
    List ℕ → MultiAccepting n m → Except Fault (MultiAccepting n m)
  | [], acc => .ok acc
  | f :: fs, acc => do
    let used ← testBit isAlreadyMatched f
    if used then reserveFrames B timeSlot out i isAlreadyMatched fs acc
    else do
      let acc' ← reserveFrame B timeSlot out i acc f
      reserveFrames B timeSlot out i isAlreadyMatched fs acc'

/-- `MultiAccept.acceptLoop`. -/
def acceptLoop (B timeSlot : ℕ) (out : Fin m) :
    List (Fin n) → MultiAccepting n m → Except Fault (MultiAccepting n m)
  | [], acc => .ok acc
  | i :: rest, acc =>
    if acc.outputAvailability out > 0 then
      if acc.inputAvailability i = 0 ∨ acc.voqLength i out = 0 then
        acceptLoop B timeSlot out rest acc
      else do
        let acc' ← reserveFrames B timeSlot out i
          (acc.inputMatchBitmap i ||| acc.outputMatchBitmap out) (earlierFrames (timeSlot + 1)) acc
        acceptLoop B timeSlot out rest acc'
    else .ok acc

/-- One output of the accept phase. -/
def acceptOutput (B : ℕ) (sort : DescSort (Fin n)) (maxAccepts : ℤ) (timeSlot : ℕ)
    (outAccepts : Fin m → List (Fin n)) (acc : MultiAccepting n m) (out : Fin m) :
    Except Fault (MultiAccepting n m) :=
  match outAccepts out with
  | [] => .ok acc
  | i :: rest =>
    acceptLoop B timeSlot out
      ((sort.run (fun i => acc.voqLength i out) (i :: rest)).take maxAccepts.toNat) acc

/-- One iteration; the row of the slot is read once more for the counts. -/
def iteration (B : ℕ) (sort : DescSort (Fin n)) (draws : ℕ → TreeDraws n m) (timeSlot : ℕ)
    (core : Core (Booking n m) n m) (k : ℕ) : Except Fault (Core (Booking n m) n m) := do
  let outAccepts ← proposeAll (fun _ => maxAccepts B timeSlot) (draws k) core.voq
  let acc ← (List.finRange m).foldlM
    (acceptOutput B sort (maxAccepts B timeSlot) timeSlot outAccepts) (start core)
  let bst ← handlePacketDepartures acc.virtualDepartures core.voq.bst
  require (timeSlot < B) .indexOutOfRange
  .ok
    { tables := countUnmatched timeSlot acc.outMatch acc.toBooking
      voq := { bst := bst, voqLength := acc.voqLength } }

/-- `qps`. -/
def qps (maxIters : ℕ → ℕ → ℕ) (B : ℕ) (sort : DescSort (Fin n)) (draws : ℕ → TreeDraws n m)
    (timeSlot : ℕ) (core : Core (Booking n m) n m) : Except Fault (Core (Booking n m) n m) :=
  (List.range (maxIters B timeSlot)).foldlM (iteration B sort draws timeSlot) core

/-- An output accepts an input for several frames. -/
theorem reserveFrames_checked (hB : B ≤ bitmapWidth) (out : Fin m) (i : Fin n)
    (matched : Bitset bitmapWidth) {frames : List ℕ} (h : ∀ f ∈ frames, f < B)
    (acc : MultiAccepting n m) :
    Within ports (reserveFrames B t out i matched frames acc)
      (MultiAccept.reserveFrames t out i matched frames acc) := by
  induction frames generalizing acc with
  | nil => exact .ok trivial
  | cons f rest ih =>
    have hf : f < B := h f (by simp)
    have hrest : ∀ g ∈ rest, g < B := fun g hg => h g (by simp [hg])
    unfold reserveFrames MultiAccept.reserveFrames
    refine (inRange_testBit matched (lt_of_lt_of_le hf hB)).bind (fun used _ => ?_)
    split
    · exact ih hrest acc
    · refine Checked.bind (Q := fun _ => True) (.guard hf ?_) (fun acc' _ => ih hrest acc')
      exact (acc.toBooking.inRange_reserve (lt_of_lt_of_le hf hB) i out).map

/-- The inputs that an output accepts. -/
theorem acceptLoop_checked (hB : B ≤ bitmapWidth) (ht : t < B) (out : Fin m) (ins : List (Fin n))
    (acc : MultiAccepting n m) :
    Within ports (acceptLoop B t out ins acc) (MultiAccept.acceptLoop t out ins acc) := by
  induction ins generalizing acc with
  | nil => exact .ok trivial
  | cons i rest ih =>
    unfold acceptLoop MultiAccept.acceptLoop
    split
    · split
      · exact ih acc
      · refine Checked.bind (Q := fun _ => True) ?_ (fun acc' _ => ih acc')
        exact reserveFrames_checked hB out i _ (fun f hf => lt_of_mem_earlierFrames ht hf) acc
    · exact .ok trivial

/-- One iteration over all ports. -/
theorem iteration_checked (hB : B ≤ bitmapWidth) (ht : t < B) (sort : DescSort (Fin n))
    (draws : ℕ → TreeDraws n m) (core : Core (Booking n m) n m) (k : ℕ) :
    Within ports (iteration B sort draws t core k)
      (MultiAccept.iteration B sort draws t core k) := by
  unfold iteration MultiAccept.iteration MultiAccept.accept acceptAll
  simp only [bind_assoc]
  refine (inRange_propose _ _ _ _ _ _).bind (fun outAccepts _ => ?_)
  refine (Checked.loop (fun out _ acc => ?_)).bind (fun acc _ => ?_)
  · unfold acceptOutput MultiAccept.acceptOutput
    cases outAccepts out with
    | nil => exact .ok trivial
    | cons i rest => exact acceptLoop_checked hB ht out _ acc
  · refine (Checked.loop
      (fun _ _ bst => inRange_updateLeaf bst _ _ _)).bind (fun bst _ => ?_)
    exact .guard ht (.ok trivial)

theorem qps_checked (hB : B ≤ bitmapWidth) (ht : t < B) (maxIters : ℕ → ℕ → ℕ)
    (sort : DescSort (Fin n)) (draws : ℕ → TreeDraws n m) (core : Core (Booking n m) n m) :
    Within ports (qps maxIters B sort draws t core)
      (MultiAccept.qps maxIters B sort draws t core) :=
  Checked.loop
    (fun k _ core' => iteration_checked hB ht sort draws core' k)

end MultiAccept.Sized

end SbQps

end SschedSimulator
