import SschedSimulator.Scheduler.QpSampler

namespace SschedSimulator

open Foundation

/-!
# `rr_sampler.cpp` — `Round_Robin_Sampler`

A sampler holds the packet counts of one input and a deque of outputs.  Sampling moves the front
of the deque to its back; `remove_item` takes the back away, whichever output it is given.

* `InStep` — every output is in the deque as often as it has packets;
* `InStep.sample_eq` — a sampler with packets samples an output that has one, and leaves it at the
  back;
* `InStep.removeItem_eq_ok` — removing the output at the back keeps the two in step.
-/

variable {n m : ℕ}

/-- `Round_Robin_Sampler`. -/
structure RoundRobinSampler (m : ℕ) where
  rrqueue : List (Fin m)
  queue : QueueSampler m

namespace RoundRobinSampler

/-- The constructor, and `reset`. -/
def empty : RoundRobinSampler m where
  rrqueue := []
  queue := fun _ => 0

/-- `get_queue_length`. -/
def getQueueLength (q : RoundRobinSampler m) : ℤ := q.queue.getQueueLength

/-- `get_packet_number`. -/
def getPacketNumber (q : RoundRobinSampler m) (dst : Fin m) : ℤ := q.queue dst

/-- `sample`: the output, or none for `-1`. -/
def sample (q : RoundRobinSampler m) : Option (Fin m) × RoundRobinSampler m :=
  match q.rrqueue with
  | [] => (none, q)
  | out :: rest => (some out, { q with rrqueue := rest ++ [out] })

/-- `add_item`. -/
def addItem (q : RoundRobinSampler m) (dst : Fin m) : RoundRobinSampler m where
  rrqueue := q.rrqueue ++ [dst]
  queue := q.queue.addItem dst

/-- `remove_item`. -/
def removeItem (q : RoundRobinSampler m) (dst : Fin m) :
    Except Fault (RoundRobinSampler m) := do
  require (0 < q.queue dst) .departureFromEmptyVoq
  -- `pop_back` of an empty deque is undefined
  require (0 < q.rrqueue.length) .indexOutOfRange
  .ok
    { rrqueue := q.rrqueue.dropLast
      queue := Function.update q.queue dst (q.queue dst - 1) }

/-- The deque lists each output once for each of its packets. -/
def InStep (q : RoundRobinSampler m) : Prop := ∀ d, (q.rrqueue.count d : ℤ) = q.queue d

theorem inStep_empty : (empty : RoundRobinSampler m).InStep := fun _ => rfl

namespace InStep

variable {q : RoundRobinSampler m}

theorem nonneg (h : q.InStep) (d : Fin m) : 0 ≤ q.queue d := by
  rw [← h d]
  exact Int.natCast_nonneg _

/-- The deque lists the outputs that have a packet. -/
theorem mem_iff (h : q.InStep) (d : Fin m) : d ∈ q.rrqueue ↔ 0 < q.queue d := by
  rw [← h d, ← List.count_pos_iff, Int.natCast_pos]

theorem addItem (h : q.InStep) (dst : Fin m) : (q.addItem dst).InStep := by
  intro d
  show ((q.rrqueue ++ [dst]).count d : ℤ) = Function.update q.queue dst (q.queue dst + 1) d
  rw [List.count_append, Nat.cast_add, h d, Function.update_apply]
  by_cases hd : d = dst
  · rw [if_pos hd, hd, List.count_singleton_self]
    rfl
  · rw [if_neg hd, List.count_singleton, if_neg (by simpa using Ne.symm hd)]
    exact add_zero _

/-- A sampler with packets samples an output that has one.  The output is at the back of the deque
    afterwards, and nothing else changes. -/
theorem sample_eq (h : q.InStep) (hlen : q.getQueueLength ≠ 0) :
    ∃ out q', q.sample = (some out, q') ∧ 0 < q.queue out ∧ q'.rrqueue.getLast? = some out ∧
      q'.InStep ∧ q'.queue = q.queue := by
  obtain ⟨d, hd⟩ := not_forall.mp (mt (QueueSampler.getQueueLength_eq_zero h.nonneg).mpr hlen)
  have hmem : d ∈ q.rrqueue := (h.mem_iff d).mpr (lt_of_le_of_ne (h.nonneg d) (Ne.symm hd))
  cases hq : q.rrqueue with
  | nil =>
    rw [hq] at hmem
    exact absurd hmem List.not_mem_nil
  | cons out rest =>
    refine ⟨out, { q with rrqueue := rest ++ [out] }, by rw [sample, hq], ?_, ?_, ?_, rfl⟩
    · exact (h.mem_iff out).mp (hq ▸ List.mem_cons_self)
    · exact List.getLast?_concat
    · intro o
      show ((rest ++ [out]).count o : ℤ) = q.queue o
      rw [← h o, hq, List.count_append, List.count_singleton, List.count_cons]

/-- Removing the output at the back. -/
theorem removeItem_eq_ok (h : q.InStep) {dst : Fin m} (hlast : q.rrqueue.getLast? = some dst) :
    ∃ q', q.removeItem dst = .ok q' ∧ q'.InStep ∧
      q'.queue = Function.update q.queue dst (q.queue dst - 1) := by
  have hmem : dst ∈ q.rrqueue := List.mem_of_getLast? hlast
  have hsplit : q.rrqueue.dropLast ++ [dst] = q.rrqueue :=
    List.dropLast_append_getLast? dst hlast
  refine ⟨⟨q.rrqueue.dropLast, Function.update q.queue dst (q.queue dst - 1)⟩, ?_, fun d => ?_,
    rfl⟩
  · rw [removeItem, require_pos ((h.mem_iff dst).mp hmem), ok_bind,
      require_pos (List.length_pos_of_mem hmem), ok_bind]
  · show (q.rrqueue.dropLast.count d : ℤ) = Function.update q.queue dst (q.queue dst - 1) d
    have hcount := h d
    rw [← hsplit, List.count_append, Nat.cast_add, List.count_singleton] at hcount
    rw [Function.update_apply]
    by_cases hd : d = dst
    · rw [hd] at hcount ⊢
      rw [if_pos (beq_self_eq_true dst)] at hcount
      rw [if_pos rfl]
      omega
    · rw [if_neg (by simpa using Ne.symm hd)] at hcount
      rw [if_neg hd]
      omega

end InStep

/-! ### The samplers of all inputs -/

/-- Add every arrival to the sampler of its input. -/
def addArrivals (queues : Fin n → RoundRobinSampler m) (arrivals : List (Fin n × Fin m)) :
    Fin n → RoundRobinSampler m :=
  arrivals.foldl (fun qs p => Function.update qs p.1 ((qs p.1).addItem p.2)) queues

/-- Remove every virtual departure from the sampler of its input, asserting that there is a
    packet. -/
def removeDepartures (queues : Fin n → RoundRobinSampler m) (departures : List (Fin n × Fin m)) :
    Except Fault (Fin n → RoundRobinSampler m) :=
  departures.foldlM (fun qs p => do
    require (0 < (qs p.1).getPacketNumber p.2) .departureFromEmptyVoq
    let q' ← (qs p.1).removeItem p.2
    .ok (Function.update qs p.1 q')) queues

theorem addArrivals_inStep {queues : Fin n → RoundRobinSampler m} (h : ∀ i, (queues i).InStep)
    (arrivals : List (Fin n × Fin m)) (i : Fin n) : (addArrivals queues arrivals i).InStep := by
  unfold addArrivals
  induction arrivals generalizing queues with
  | nil => exact h i
  | cons p rest ih =>
    refine ih (fun j => ?_)
    show (Function.update queues p.1 ((queues p.1).addItem p.2) j).InStep
    by_cases hj : j = p.1
    · rw [hj, Function.update_self]
      exact (h p.1).addItem p.2
    · rw [Function.update_of_ne hj]
      exact h j

/-- A sampler that counts `k` more packets for one output. -/
theorem update_queue (queues : Fin n → RoundRobinSampler m) (p : Fin n × Fin m)
    {q : RoundRobinSampler m} {k : ℤ}
    (hq : q.queue = Function.update (queues p.1).queue p.2 ((queues p.1).queue p.2 + k)) (i : Fin n)
    (o : Fin m) : (Function.update queues p.1 q i).queue o
      = (queues i).queue o + if p = (i, o) then k else 0 := by
  rw [← update₂_add (fun j => (queues j).queue) p.1 i p.2 o k]
  unfold update₂
  by_cases hi : i = p.1
  · rw [hi, Function.update_self, Function.update_self, hq]
  · rw [Function.update_of_ne hi, Function.update_of_ne hi]

/-- Every arrival is counted once. -/
theorem addArrivals_queue (queues : Fin n → RoundRobinSampler m)
    (arrivals : List (Fin n × Fin m)) (i : Fin n) (o : Fin m) :
    (addArrivals queues arrivals i).queue o = (queues i).queue o + arrivals.count (i, o) := by
  unfold addArrivals
  induction arrivals generalizing queues with
  | nil => simp
  | cons p rest ih =>
    rw [List.foldl_cons, ih, update_queue queues p (k := 1) rfl, natCast_count_cons]
    omega

/-- When every departing output is at the back of its deque and no input has two departures,
    every removal takes a packet of the departing output. -/
theorem removeDepartures_eq_ok {queues : Fin n → RoundRobinSampler m}
    {departures : List (Fin n × Fin m)} (h : ∀ i, (queues i).InStep)
    (hnodup : (departures.map Prod.fst).Nodup)
    (hlast : ∀ p ∈ departures, (queues p.1).rrqueue.getLast? = some p.2) :
    ∃ queues', removeDepartures queues departures = .ok queues' ∧ (∀ i, (queues' i).InStep) ∧
      (∀ i o, (queues' i).queue o = (queues i).queue o - departures.count (i, o)) ∧
      ∀ i, i ∉ departures.map Prod.fst → queues' i = queues i := by
  unfold removeDepartures
  induction departures generalizing queues with
  | nil => exact ⟨queues, rfl, h, fun i o => by simp, fun _ _ => rfl⟩
  | cons p rest ih =>
    rw [List.map_cons] at hnodup ⊢
    obtain ⟨hp, hrest⟩ := List.nodup_cons.mp hnodup
    have hback := hlast p List.mem_cons_self
    obtain ⟨q, hrun, hq, hqueue⟩ := (h p.1).removeItem_eq_ok hback
    have hpos : 0 < (queues p.1).getPacketNumber p.2 :=
      ((h p.1).mem_iff p.2).mp (List.mem_of_getLast? hback)
    -- The inputs of the departures to come are others than that of `p`.
    have hinStep : ∀ i, (Function.update queues p.1 q i).InStep := by
      intro i
      by_cases hi : i = p.1
      · rw [hi, Function.update_self]
        exact hq
      · rw [Function.update_of_ne hi]
        exact h i
    have hback' : ∀ p' ∈ rest,
        (Function.update queues p.1 q p'.1).rrqueue.getLast? = some p'.2 := by
      intro p' hp'
      rw [Function.update_of_ne (ne_of_mem_of_not_mem (List.mem_map_of_mem hp') hp)]
      exact hlast p' (List.mem_cons_of_mem p hp')
    obtain ⟨queues', hrun', hq', hqueue', hframe⟩ := ih hinStep hrest hback'
    refine ⟨queues', ?_, hq', fun i o => ?_, fun i hi => ?_⟩
    · rw [List.foldlM_cons, require_pos hpos, ok_bind, hrun, ok_bind]
      exact hrun'
    · rw [hqueue', update_queue queues p hqueue, natCast_count_cons]
      split <;> omega
    · rw [List.mem_cons, not_or] at hi
      rw [hframe i hi.2, Function.update_of_ne hi.1]

end RoundRobinSampler

end SschedSimulator
