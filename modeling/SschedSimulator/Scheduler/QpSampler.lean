import Mathlib.Algebra.BigOperators.Fin
import SschedSimulator.Foundation.Table
import SschedSimulator.Saber.Utils

namespace SschedSimulator

open Foundation

/-!
# `qp_sampler.cpp` — the packet counts of `Queue_Sampler`

A sampler holds the number of packets of one input for each output.  Sampling rebuilds the
inner nodes of a tree from these counts and never changes the counts themselves, so a sampler is
its counts and the sampled output is given by the environment of a call.

The two loops of a scheduler over its samplers are specified by what they do to each count:
`handlePacketArrivals_apply` and `handlePacketDepartures_eq_ok`.
-/

variable {n m : ℕ}

/-- The packet counts of one input. -/
abbrev QueueSampler (m : ℕ) := Fin m → ℤ

namespace QueueSampler

/-- `get_packet_number`. -/
def getPacketNumber (q : QueueSampler m) (dst : Fin m) : ℤ := q dst

/-- `get_queue_length`. -/
def getQueueLength (q : QueueSampler m) : ℤ := ∑ dst, q dst

/-- `add_item`. -/
def addItem (q : QueueSampler m) (dst : Fin m) : QueueSampler m :=
  Function.update q dst (q dst + 1)

/-- `remove_item`. -/
def removeItem (q : QueueSampler m) (dst : Fin m) : Except Fault (QueueSampler m) := do
  let q' : QueueSampler m := Function.update q dst (q dst - 1)
  require (0 ≤ q' dst) .negativeCount
  .ok q'

theorem removeItem_eq_ok {q : QueueSampler m} {dst : Fin m} (h : 0 < q dst) :
    q.removeItem dst = .ok (Function.update q dst (q dst - 1)) := by
  have hpos : 0 ≤ Function.update q dst (q dst - 1) dst := by
    rw [Function.update_self]
    omega
  simp only [removeItem, require_pos hpos, ok_bind]

/-- With no negative count, a sampler without packets has length zero and only then. -/
theorem getQueueLength_eq_zero {q : QueueSampler m} (h : ∀ d, 0 ≤ q d) :
    q.getQueueLength = 0 ↔ ∀ d, q d = 0 := by
  unfold getQueueLength
  rw [Finset.sum_eq_zero_iff_of_nonneg (fun d _ => h d)]
  simp

end QueueSampler

/-- Add every arrival to the sampler of its input. -/
def addArrivals (queues : Fin n → QueueSampler m) (arrivals : List (Fin n × Fin m)) :
    Fin n → QueueSampler m :=
  arrivals.foldl (fun qs p => Function.update qs p.1 ((qs p.1).addItem p.2)) queues

/-- Remove every virtual departure from the sampler of its input, asserting that there is a
    packet. -/
def removeDepartures (queues : Fin n → QueueSampler m) (departures : List (Fin n × Fin m)) :
    Except Fault (Fin n → QueueSampler m) :=
  departures.foldlM (fun qs p => do
    require (0 < (qs p.1).getPacketNumber p.2) .departureFromEmptyVoq
    let q' ← (qs p.1).removeItem p.2
    .ok (Function.update qs p.1 q')) queues

/-- Every arrival is counted once. -/
theorem addArrivals_apply (queues : Fin n → QueueSampler m) (arrivals : List (Fin n × Fin m))
    (i : Fin n) (o : Fin m) :
    addArrivals queues arrivals i o = queues i o + arrivals.count (i, o) := by
  unfold addArrivals
  induction arrivals generalizing queues with
  | nil => simp
  | cons p rest ih =>
    have hcell : Function.update queues p.1 ((queues p.1).addItem p.2) i o
        = queues i o + if p = (i, o) then 1 else 0 :=
      update₂_add queues p.1 i p.2 o 1
    rw [List.foldl_cons, ih, hcell, natCast_count_cons]
    omega

/-- When every pair departs at most as often as it has packets, no assertion fails and every
    departure is counted once. -/
theorem removeDepartures_eq_ok {queues : Fin n → QueueSampler m}
    {departures : List (Fin n × Fin m)}
    (h : ∀ i o, (departures.count (i, o) : ℤ) ≤ queues i o) :
    ∃ queues', removeDepartures queues departures = .ok queues' ∧
      ∀ i o, queues' i o = queues i o - departures.count (i, o) := by
  unfold removeDepartures
  induction departures generalizing queues with
  | nil => exact ⟨queues, rfl, fun i o => by simp⟩
  | cons p rest ih =>
    have hpos : 0 < queues p.1 p.2 := by
      have hp := h p.1 p.2
      rw [natCast_count_cons, if_pos rfl] at hp
      omega
    have hcell : ∀ i o, Function.update queues p.1
        (Function.update (queues p.1) p.2 (queues p.1 p.2 - 1)) i o
        = queues i o + if p = (i, o) then -1 else 0 :=
      fun i o => update₂_add queues p.1 i p.2 o (-1)
    -- Taking the packet of `p` leaves enough packets for the departures to come.
    have hrest : ∀ i o, (rest.count (i, o) : ℤ) ≤ Function.update queues p.1
        (Function.update (queues p.1) p.2 (queues p.1 p.2 - 1)) i o := by
      intro i o
      have hio := h i o
      rw [natCast_count_cons] at hio
      rw [hcell]
      by_cases hp : p = (i, o)
      · rw [if_pos hp] at hio ⊢
        omega
      · rw [if_neg hp] at hio ⊢
        omega
    obtain ⟨queues', hrun, hcount⟩ := ih hrest
    refine ⟨queues', ?_, fun i o => ?_⟩
    · rw [List.foldlM_cons, QueueSampler.getPacketNumber, require_pos hpos, ok_bind,
        QueueSampler.removeItem_eq_ok hpos]
      exact hrun
    · rw [hcount, hcell, natCast_count_cons]
      split <;> omega

end SschedSimulator
