import SschedSimulator.Foundation.Bitset
import SschedSimulator.Foundation.Table
import SschedSimulator.Saber.Utils

namespace SschedSimulator

open Foundation

/-!
# The reservation tables of the batch schedulers

Every batch scheduler keeps `schedules`, one row for each frame of the batch, and two families
of `std::bitset<128>` that say at which frames a port is matched; most also count the free
frames of each port.  They all write these tables in the same three ways:

* `assignNow` — the unconditional assignment at the current slot;
* `tryReserve` — first fit: the first frame of a list that is free for both ports;
* `clearRow` and `resetBitmap` — when a row is dispatched and when a batch ends.

`Covers k` and `Consistent B k` say how the bits and the rows agree when the first `k` frames
belong to the batch being filled.
-/

/-- Width of `bitmap_t`. -/
abbrev bitmapWidth : ℕ := 128

/-- The schedule rows of a batch and the match bitmaps of the ports. -/
structure Reservations (n m : ℕ) where
  schedules : ℕ → Fin n → Option (Fin m)
  inputMatchBitmap : Fin n → Bitset bitmapWidth
  outputMatchBitmap : Fin m → Bitset bitmapWidth

variable {n m : ℕ}

/-- `test` on a bitmap; a position outside it throws. -/
def testBit (b : Bitset bitmapWidth) (f : ℕ) : Except Fault Bool := do
  require (f < bitmapWidth) .bitOutOfRange
  .ok (b.test f)

/-- The first frame of the list that is not marked. -/
def firstFit (matched : Bitset bitmapWidth) : List ℕ → Except Fault (Option ℕ)
  | [] => .ok none
  | f :: fs => do
    let used ← testBit matched f
    if used then firstFit matched fs else .ok (some f)

/-- Over positions inside the bitmap, the search is `find?`. -/
theorem firstFit_eq_find? (matched : Bitset bitmapWidth) {frames : List ℕ}
    (h : ∀ f ∈ frames, f < bitmapWidth) :
    firstFit matched frames = .ok (frames.find? (fun f => !matched.test f)) := by
  induction frames with
  | nil => rfl
  | cons f fs ih =>
    have hf : f < bitmapWidth := h f (by simp)
    unfold firstFit testBit
    rw [require_pos hf, ok_bind, ok_bind, List.find?_cons]
    cases matched.test f
    · rfl
    · exact ih (fun g hg => h g (by simp [hg]))

namespace Reservations

/-- No reservation and no bit. -/
def empty : Reservations n m where
  schedules := fun _ _ => none
  inputMatchBitmap := fun _ => 0
  outputMatchBitmap := fun _ => 0

/-- Whether the bit of input `i` at frame `f` is set. -/
def inFlag (r : Reservations n m) (i : Fin n) (f : ℕ) : Bool := (r.inputMatchBitmap i).test f

/-- Whether the bit of output `o` at frame `f` is set. -/
def outFlag (r : Reservations n m) (o : Fin m) (f : ℕ) : Bool := (r.outputMatchBitmap o).test f

/-- Set the bits of both ports at `f` and write the cell. -/
def book (r : Reservations n m) (f : ℕ) (i : Fin n) (o : Fin m) : Reservations n m where
  schedules := update₂ r.schedules f i (some o)
  inputMatchBitmap :=
    Function.update r.inputMatchBitmap i ((r.inputMatchBitmap i).set f)
  outputMatchBitmap :=
    Function.update r.outputMatchBitmap o ((r.outputMatchBitmap o).set f)

/-- Assign `o` to `i` at the current slot, whatever the cell holds. -/
def assignNow (r : Reservations n m) (f : ℕ) (i : Fin n) (o : Fin m) :
    Except Fault (Reservations n m) := do
  require (f < bitmapWidth) .bitOutOfRange
  .ok (r.book f i o)

/-- Assign `o` to `i` at frame `f`, asserting that the cell is empty. -/
def reserve (r : Reservations n m) (f : ℕ) (i : Fin n) (o : Fin m) :
    Except Fault (Reservations n m) := do
  require (f < bitmapWidth) .bitOutOfRange
  require (r.schedules f i = none) .cellOccupied
  .ok (r.book f i o)

/-- The first frame of `frames` that is free for both ports. -/
def firstFree (r : Reservations n m) (frames : List ℕ) (i : Fin n) (o : Fin m) :
    Except Fault (Option ℕ) :=
  firstFit (r.inputMatchBitmap i ||| r.outputMatchBitmap o) frames

/-- Clear the bits of both ports at `f`. -/
def release (r : Reservations n m) (f : ℕ) (i : Fin n) (o : Fin m) : Reservations n m :=
  { r with
    inputMatchBitmap :=
      Function.update r.inputMatchBitmap i ((r.inputMatchBitmap i).reset f)
    outputMatchBitmap :=
      Function.update r.outputMatchBitmap o ((r.outputMatchBitmap o).reset f) }

/-- Fill a row with `NULL_SCHEDULE`. -/
def clearRow (r : Reservations n m) (f : ℕ) : Reservations n m :=
  { r with schedules := Function.update r.schedules f (fun _ => none) }

/-- Clear every bitmap. -/
def resetBitmap (r : Reservations n m) : Reservations n m :=
  { r with inputMatchBitmap := fun _ => 0, outputMatchBitmap := fun _ => 0 }

/-- No bit is set in new tables. -/
@[simp] theorem empty_inFlag (i : Fin n) (f : ℕ) :
    (empty : Reservations n m).inFlag i f = false := Bitset.test_zero f

@[simp] theorem empty_outFlag (o : Fin m) (f : ℕ) :
    (empty : Reservations n m).outFlag o f = false := Bitset.test_zero f

/-- A booking writes one cell. -/
@[simp] theorem book_schedules (r : Reservations n m) (f : ℕ) (i : Fin n) (o : Fin m) :
    (r.book f i o).schedules = update₂ r.schedules f i (some o) := rfl

/-- Clearing writes one row. -/
@[simp] theorem clearRow_schedules (r : Reservations n m) (f : ℕ) :
    (r.clearRow f).schedules = Function.update r.schedules f (fun _ => none) := rfl

/-- A reset clears the bits and leaves the rows. -/
@[simp] theorem resetBitmap_inFlag (r : Reservations n m) (i : Fin n) (f : ℕ) :
    r.resetBitmap.inFlag i f = false := Bitset.test_zero f

@[simp] theorem resetBitmap_outFlag (r : Reservations n m) (o : Fin m) (f : ℕ) :
    r.resetBitmap.outFlag o f = false := Bitset.test_zero f

/-- A booking sets the bit of its input at its frame. -/
theorem book_inFlag (r : Reservations n m) {f : ℕ} (hf : f < bitmapWidth) (i : Fin n)
    (o : Fin m) (i' : Fin n) (f' : ℕ) :
    (r.book f i o).inFlag i' f' = (decide (i' = i ∧ f' = f) || r.inFlag i' f') := by
  unfold inFlag book
  by_cases hi : i' = i
  · subst hi
    simp [Bitset.test_set _ hf]
  · simp [hi]

/-- A booking sets the bit of its output at its frame. -/
theorem book_outFlag (r : Reservations n m) {f : ℕ} (hf : f < bitmapWidth) (i : Fin n)
    (o : Fin m) (o' : Fin m) (f' : ℕ) :
    (r.book f i o).outFlag o' f' = (decide (o' = o ∧ f' = f) || r.outFlag o' f') := by
  unfold outFlag book
  by_cases ho : o' = o
  · subst ho
    simp [Bitset.test_set _ hf]
  · simp [ho]

/-- A booking touches the bits of its input only. -/
theorem book_inFlag_of_ne (r : Reservations n m) (f : ℕ) {i i' : Fin n} (o : Fin m)
    (hi : i' ≠ i) : (r.book f i o).inFlag i' = r.inFlag i' := by
  ext f'
  simp [inFlag, book, hi]

/-- A booking touches the bits of its output only. -/
theorem book_outFlag_of_ne (r : Reservations n m) (f : ℕ) (i : Fin n) {o o' : Fin m}
    (ho : o' ≠ o) : (r.book f i o).outFlag o' = r.outFlag o' := by
  ext f'
  simp [outFlag, book, ho]

/-- A booking touches the bits of its frame only. -/
theorem book_inFlag_of_frame_ne (r : Reservations n m) {f : ℕ} (hf : f < bitmapWidth) (i : Fin n)
    (o : Fin m) (i' : Fin n) {f' : ℕ} (hne : f' ≠ f) :
    (r.book f i o).inFlag i' f' = r.inFlag i' f' := by
  rw [r.book_inFlag hf, decide_eq_false (fun hc => hne hc.2), Bool.false_or]

theorem book_outFlag_of_frame_ne (r : Reservations n m) {f : ℕ} (hf : f < bitmapWidth)
    (i : Fin n) (o o' : Fin m) {f' : ℕ} (hne : f' ≠ f) :
    (r.book f i o).outFlag o' f' = r.outFlag o' f' := by
  rw [r.book_outFlag hf, decide_eq_false (fun hc => hne hc.2), Bool.false_or]

/-- A release clears the bit of its input at its frame. -/
theorem release_inFlag (r : Reservations n m) (f : ℕ) (i : Fin n) (o : Fin m) (i' : Fin n)
    (f' : ℕ) :
    (r.release f i o).inFlag i' f' = (r.inFlag i' f' && !decide (i' = i ∧ f' = f)) := by
  unfold inFlag release
  by_cases hi : i' = i
  · subst hi
    simp [Bitset.test_reset]
  · simp [hi]

/-- A release clears the bit of its output at its frame. -/
theorem release_outFlag (r : Reservations n m) (f : ℕ) (i : Fin n) (o : Fin m) (o' : Fin m)
    (f' : ℕ) :
    (r.release f i o).outFlag o' f' = (r.outFlag o' f' && !decide (o' = o ∧ f' = f)) := by
  unfold outFlag release
  by_cases ho : o' = o
  · subst ho
    simp [Bitset.test_reset]
  · simp [ho]

/-- First fit returns the first frame free for both ports. -/
theorem firstFree_eq (r : Reservations n m) {frames : List ℕ}
    (h : ∀ f ∈ frames, f < bitmapWidth) (i : Fin n) (o : Fin m) :
    r.firstFree frames i o
      = .ok (frames.find? (fun f => !(r.inFlag i f || r.outFlag o f))) := by
  unfold firstFree
  rw [firstFit_eq_find? _ h]
  simp only [Bitset.test_or, inFlag, outFlag]

/-- The frame of the slot has its bit. -/
theorem assignNow_eq_ok (r : Reservations n m) {f : ℕ} (hf : f < bitmapWidth) (i : Fin n)
    (o : Fin m) : r.assignNow f i o = .ok (r.book f i o) := by
  simp [assignNow, hf]

/-- A reservation of an empty cell is a booking. -/
theorem reserve_eq_ok (r : Reservations n m) {f : ℕ} (hf : f < bitmapWidth) {i : Fin n}
    (hcell : r.schedules f i = none) (o : Fin m) : r.reserve f i o = .ok (r.book f i o) := by
  simp [reserve, hf, hcell]

/-! ### How the bits and the rows agree -/

/-- Every pair in the first `k` rows has the bits of both ports set, and no bit is set at `k`
    or later. -/
abbrev Covers (k : ℕ) (r : Reservations n m) : Prop :=
  Foundation.Covers (· < k) r.schedules r.inFlag r.outFlag

/-- The bits of the first `k` frames say exactly which ports the rows use. -/
abbrev Tracks (k : ℕ) (r : Reservations n m) : Prop :=
  Foundation.Tracks (· < k) r.schedules r.inFlag r.outFlag

/-- All rows are partial matchings and the bits of the first `k` frames track them. -/
structure Consistent (B k : ℕ) (r : Reservations n m) : Prop extends
    Foundation.Tracks (· < k) r.schedules r.inFlag r.outFlag where
  matching : ∀ f < B, IsMatching (r.schedules f)

/-- A booking at a live frame sets the bits that its pair needs. -/
theorem Covers.book {k : ℕ} {r : Reservations n m} (h : r.Covers k) {f : ℕ} (hf : f < k)
    (hk : k ≤ bitmapWidth) (i : Fin n) (o : Fin m) : (r.book f i o).Covers k :=
  Foundation.Covers.book h hf (r.book_inFlag (by omega) i o) (r.book_outFlag (by omega) i o)

/-- Booking an empty cell of a live row whose output is free keeps the tables consistent. -/
theorem Consistent.book {B k : ℕ} {r : Reservations n m} (h : r.Consistent B k) {f : ℕ}
    (hf : f < k) (hk : k ≤ bitmapWidth) {i : Fin n} {o : Fin m}
    (hcell : r.schedules f i = none) (ho : ∀ i', r.schedules f i' ≠ some o) :
    (r.book f i o).Consistent B k where
  toTracks := h.toTracks.book hf hcell (r.book_inFlag (by omega) i o)
    (r.book_outFlag (by omega) i o)
  matching := by
    intro g hg
    -- Only row `f` changes.
    by_cases hgf : g = f
    · subst hgf
      simpa [update₂] using (h.matching g hg).update ho
    · rw [book_schedules, update₂_row_of_ne _ hgf]
      exact h.matching g hg

/-- Clearing the row of the slot that the batch reaches makes it live. -/
theorem Covers.clearRow {k : ℕ} {r : Reservations n m} (h : r.Covers k) :
    (r.clearRow k).Covers (k + 1) where
  input := by
    -- A pair of the first `k + 1` rows is not in the row just cleared.
    intro f i o hf hc
    have hne : f ≠ k := by rintro rfl; simp at hc
    rw [clearRow_schedules, Function.update_of_ne hne] at hc
    exact h.input (by omega) hc
  output := by
    intro f i o hf hc
    have hne : f ≠ k := by rintro rfl; simp at hc
    rw [clearRow_schedules, Function.update_of_ne hne] at hc
    exact h.output (by omega) hc
  inputLive := fun _ _ hb => Nat.lt_succ_of_lt (h.inputLive hb)
  outputLive := fun _ _ hb => Nat.lt_succ_of_lt (h.outputLive hb)

/-- The row just made live is used by no port. -/
theorem Tracks.clearRow {k : ℕ} {r : Reservations n m} (h : r.Tracks k) :
    (r.clearRow k).Tracks (k + 1) where
  toCovers := Covers.clearRow h.toCovers
  inputUsed := by
    intro f i hb
    have hlt : f < k := h.inputLive hb
    rw [clearRow_schedules, Function.update_of_ne (by omega)]
    exact h.inputUsed hb
  outputUsed := by
    intro f o hb
    have hlt : f < k := h.outputLive hb
    rw [clearRow_schedules, Function.update_of_ne (by omega)]
    exact h.outputUsed hb

/-- An empty row is a matching. -/
theorem Consistent.clearRow {B k : ℕ} {r : Reservations n m} (h : r.Consistent B k) :
    (r.clearRow k).Consistent B (k + 1) where
  toTracks := Tracks.clearRow h.toTracks
  matching := by
    intro f hf
    rw [clearRow_schedules, Function.update_apply]
    split
    · exact isMatching_none
    · exact h.matching f hf

/-- With every bitmap cleared, no row is live. -/
theorem tracks_resetBitmap (r : Reservations n m) : r.resetBitmap.Tracks 0 where
  input := fun _ _ _ h => absurd h (Nat.not_lt_zero _)
  output := fun _ _ _ h => absurd h (Nat.not_lt_zero _)
  inputLive := fun f i h => by simp at h
  outputLive := fun f i h => by simp at h
  inputUsed := fun f i h => by simp at h
  outputUsed := fun f i h => by simp at h

/-- New tables have neither bits nor pairs. -/
theorem tracks_empty (k : ℕ) : (empty : Reservations n m).Tracks k where
  input := fun _ _ _ _ h => nomatch h
  output := fun _ _ _ _ h => nomatch h
  inputLive := fun f i h => by simp at h
  outputLive := fun f i h => by simp at h
  inputUsed := fun f i h => by simp at h
  outputUsed := fun f i h => by simp at h

theorem consistent_empty (B k : ℕ) : (empty : Reservations n m).Consistent B k where
  toTracks := tracks_empty k
  matching := fun _ _ => isMatching_none

/-- The rows of a batch stay what they are when the next one starts. -/
theorem Consistent.resetBitmap {B k : ℕ} {r : Reservations n m} (h : r.Consistent B k) :
    r.resetBitmap.Consistent B 0 where
  toTracks := tracks_resetBitmap r
  matching := h.matching

end Reservations

/-! ### Grants -/

/-- What a part of an accept phase has done to the table `t` and to the virtual departures `vd`:
    it booked the pairs `gs` at frames of the window and recorded them. -/
structure Granted (B : ℕ) (window : ℕ → Prop) (t t' : ℕ → Fin n → Option (Fin m))
    (vd vd' gs : List (Fin n × Fin m)) : Prop where
  extended : Extends (Finset.range B) window t t' gs
  departures : vd' = vd ++ gs

/-- Nothing is booked. -/
theorem Granted.refl (B : ℕ) (window : ℕ → Prop) (t : ℕ → Fin n → Option (Fin m))
    (vd : List (Fin n × Fin m)) : Granted B window t t vd vd [] where
  extended := Extends.refl _ _ _
  departures := (List.append_nil _).symm

/-- One part of an accept phase after another. -/
theorem Granted.trans {B : ℕ} {window : ℕ → Prop} {t t' t'' : ℕ → Fin n → Option (Fin m)}
    {vd vd' vd'' gs gs' : List (Fin n × Fin m)} (h : Granted B window t t' vd vd' gs)
    (h' : Granted B window t' t'' vd' vd'' gs') : Granted B window t t'' vd vd'' (gs ++ gs') where
  extended := h.extended.trans h'.extended
  departures := by rw [h'.departures, h.departures, List.append_assoc]

/-- A window may be widened. -/
theorem Granted.mono {B : ℕ} {window window' : ℕ → Prop} {t t' : ℕ → Fin n → Option (Fin m)}
    {vd vd' gs : List (Fin n × Fin m)} (h : Granted B window t t' vd vd' gs)
    (hw : ∀ f, window f → window' f) : Granted B window' t t' vd vd' gs where
  extended := h.extended.mono hw
  departures := h.departures

end SschedSimulator
