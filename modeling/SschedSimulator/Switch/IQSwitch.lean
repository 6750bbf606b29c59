import SschedSimulator.Foundation.Table
import SschedSimulator.Saber.Utils

namespace SschedSimulator

open Foundation

/-!
# `iq_switch.cc` — the input-queued switches

A switching cycle reads the packets of the input channels into the virtual output queues,
lets the scheduler compute a matching and sends one packet for each matched pair whose queue is
not empty.  `SIQSwitch` only counts the packets of each queue, `GIQSwitch` keeps them; both
hand the arrivals of the slot to the scheduler in a buffer that ends at a sentinel.

What a scheduler needs to know about a switch is in four theorems: the two about reading
(`readInputs_queueLength`, `readInputs_arrivals`), the one about writing (`writeOutputs_post`)
and the initial state (`IQSwitch.Empty`).
-/

variable {n m : ℕ}

/-- A packet; the channels only carry packets with valid ports. -/
structure Packet (n m : ℕ) where
  source : Fin n
  destination : Fin m
  arrivalTime : ℕ := 0
  departureTime : ℕ := 0

/-- Packets that arrive in one slot for `out`, `count i` of them at input `i`. -/
def packetsFor {n m : ℕ} (out : Fin m) (count : Fin n → ℕ) : Fin n → List (Packet n m) :=
  fun i => List.replicate (count i) ⟨i, out, 0, 0⟩

/-! ### The arrival and departure buffers -/

/-- A buffer of source-destination pairs that is never shrunk; `none` is the sentinel `-1`. -/
abbrev SdBuffer (n m : ℕ) := List (Option (Fin n × Fin m))

namespace SdBuffer

/-- Write a pair at position `k`, growing the buffer if it is full. -/
def record (buf : SdBuffer n m) (k : ℕ) (p : Fin n × Fin m) : SdBuffer n m :=
  if k < buf.length then buf.set k (some p) else buf ++ [some p]

/-- Put the sentinel at position `k` if the buffer reaches that far. -/
def mark (buf : SdBuffer n m) (k : ℕ) : SdBuffer n m :=
  if k < buf.length then buf.set k none else buf

/-- The pairs before the sentinel. -/
def pairs : SdBuffer n m → List (Fin n × Fin m)
  | [] => []
  | none :: _ => []
  | some p :: rest => p :: pairs rest

theorem pairs_append_some (ps : List (Fin n × Fin m)) (rest : SdBuffer n m) :
    pairs (ps.map some ++ rest) = ps ++ pairs rest := by
  induction ps with
  | nil => rfl
  | cons p ps ih => simp [pairs, ih]

/-- Recording at the end of the recorded part extends it by one pair. -/
theorem record_append (ps : List (Fin n × Fin m)) (rest : SdBuffer n m) (p : Fin n × Fin m) :
    record (ps.map some ++ rest) ps.length p = (ps ++ [p]).map some ++ rest.tail := by
  unfold record
  cases rest with
  | nil => simp
  | cons x rest => simp

/-- Marking the end of the recorded part makes it the content of the buffer. -/
theorem pairs_mark (ps : List (Fin n × Fin m)) (rest : SdBuffer n m) :
    pairs (mark (ps.map some ++ rest) ps.length) = ps := by
  unfold mark
  cases rest with
  | nil => simpa [pairs] using pairs_append_some ps []
  | cons x rest => simp [pairs_append_some, pairs]

end SdBuffer

/-! ### The two switches -/

/-- `sIQSwitch`: queue lengths only. -/
structure SIQSwitch (n m : ℕ) where
  queueLenMat : Fin n → Fin m → ℕ
  arrivals : SdBuffer n m
  departures : SdBuffer n m

/-- `gIQSwitch`: queues of packets, a timer and the output channels. -/
structure GIQSwitch (n m : ℕ) where
  enableDepartureInfo : Bool
  virtualOutputQueue : Fin n → Fin m → List (Packet n m)
  arrivals : SdBuffer n m
  departures : SdBuffer n m
  delay : ℕ
  time : ℕ
  outputChannel : Fin m → List (Packet n m)

/-- The length of a queue of packets. -/
def GIQSwitch.queueLen (sw : GIQSwitch n m) (s : Fin n) (d : Fin m) : ℕ :=
  (sw.virtualOutputQueue s d).length

/-- The packets waiting in the input channels, in the order in which they are read. -/
def packetsOf (channels : Fin n → List (Packet n m)) : List (Packet n m) :=
  (List.finRange n).flatMap channels

/-- The source-destination pairs of the packets of a slot. -/
def arrivalsOf (channels : Fin n → List (Packet n m)) : List (Fin n × Fin m) :=
  (packetsOf channels).map (fun pkt => (pkt.source, pkt.destination))

theorem arrivalsOf_eq_nil {channels : Fin n → List (Packet n m)} :
    arrivalsOf channels = [] ↔ ∀ i, channels i = [] := by
  simp [arrivalsOf, packetsOf]

namespace SIQSwitch

/-- Enqueue one packet and record its arrival at position `k`. -/
def readPacket (acc : SIQSwitch n m × ℕ) (pkt : Packet n m) : SIQSwitch n m × ℕ :=
  ({ acc.1 with
      queueLenMat := update₂ acc.1.queueLenMat pkt.source pkt.destination
        (acc.1.queueLenMat pkt.source pkt.destination + 1)
      arrivals := acc.1.arrivals.record acc.2 (pkt.source, pkt.destination) },
    acc.2 + 1)

/-- `sIQSwitch::read_inputs`. -/
def readInputs (sw : SIQSwitch n m) (channels : Fin n → List (Packet n m)) : SIQSwitch n m :=
  let acc := (packetsOf channels).foldl readPacket (sw, 0)
  { acc.1 with arrivals := acc.1.arrivals.mark acc.2 }

/-- Serve one input: decrement the matched queue unless it is empty. -/
def writeInput (inMatch : Fin n → Option (Fin m)) (acc : SIQSwitch n m × ℕ) (src : Fin n) :
    Except Fault (SIQSwitch n m × ℕ) :=
  match inMatch src with
  | none => .ok acc
  | some dst =>
    -- a matched queue may be empty; no assertion looks at the output
    if acc.1.queueLenMat src dst ≠ 0 then
      .ok ({ acc.1 with
              queueLenMat := update₂ acc.1.queueLenMat src dst (acc.1.queueLenMat src dst - 1)
              departures := acc.1.departures.record acc.2 (src, dst) },
            acc.2 + 1)
    else .ok acc

/-- `sIQSwitch::write_outputs`. -/
def writeOutputs (sw : SIQSwitch n m) (inMatch : Fin n → Option (Fin m)) :
    Except Fault (SIQSwitch n m) := do
  let acc ← (List.finRange n).foldlM (writeInput inMatch) (sw, 0)
  .ok { acc.1 with departures := acc.1.departures.mark acc.2 }

end SIQSwitch

namespace GIQSwitch

/-- Stamp one packet, enqueue it and record its arrival at position `k`. -/
def readPacket (acc : GIQSwitch n m × ℕ) (pkt : Packet n m) : GIQSwitch n m × ℕ :=
  ({ acc.1 with
      virtualOutputQueue := update₂ acc.1.virtualOutputQueue pkt.source pkt.destination
        (acc.1.virtualOutputQueue pkt.source pkt.destination
          ++ [{ pkt with arrivalTime := acc.1.time }])
      arrivals := acc.1.arrivals.record acc.2 (pkt.source, pkt.destination) },
    acc.2 + 1)

/-- `gIQSwitch::read_inputs`. -/
def readInputs (sw : GIQSwitch n m) (channels : Fin n → List (Packet n m)) : GIQSwitch n m :=
  let acc := (packetsOf channels).foldl readPacket (sw, 0)
  { acc.1 with arrivals := acc.1.arrivals.mark acc.2 }

/-- Send the head-of-line packet of a queue. -/
def sendHead (sw : GIQSwitch n m) (src : Fin n) (dst : Fin m) (pkt : Packet n m)
    (rest : List (Packet n m)) : GIQSwitch n m :=
  { sw with
    virtualOutputQueue := update₂ sw.virtualOutputQueue src dst rest
    outputChannel := Function.update sw.outputChannel dst
      (sw.outputChannel dst ++ [{ pkt with departureTime := sw.time + sw.delay }]) }

/-- Serve one input in `_write_outputs_depart_info_disabled`, where an output may be used once. -/
def writeInputDisabled (inMatch : Fin n → Option (Fin m))
    (acc : GIQSwitch n m × (Fin m → Bool)) (src : Fin n) :
    Except Fault (GIQSwitch n m × (Fin m → Bool)) :=
  match inMatch src with
  | none => .ok acc
  | some dst =>
    match acc.1.virtualOutputQueue src dst with
    | [] => .ok acc
    | pkt :: rest => do
      -- only a packet that is sent occupies its output
      require (acc.2 dst = false) .outputOccupied
      .ok (acc.1.sendHead src dst pkt rest, Function.update acc.2 dst true)

/-- Serve one input in `_write_outputs_depart_info_enabled`, which records the departure and
    moves the sentinel after every input. -/
def writeInputEnabled (inMatch : Fin n → Option (Fin m)) (acc : GIQSwitch n m × ℕ)
    (src : Fin n) : Except Fault (GIQSwitch n m × ℕ) :=
  let acc' : GIQSwitch n m × ℕ :=
    match inMatch src with
    | none => acc
    | some dst =>
      match acc.1.virtualOutputQueue src dst with
      | [] => acc
      | pkt :: rest =>
        let sw := acc.1.sendHead src dst pkt rest
        ({ sw with departures := sw.departures.record acc.2 (pkt.source, pkt.destination) },
          acc.2 + 1)
  .ok ({ acc'.1 with departures := acc'.1.departures.mark acc'.2 }, acc'.2)

/-- `gIQSwitch::write_outputs`. -/
def writeOutputs (sw : GIQSwitch n m) (inMatch : Fin n → Option (Fin m)) :
    Except Fault (GIQSwitch n m) :=
  if sw.enableDepartureInfo then do
    let acc ← (List.finRange n).foldlM (writeInputEnabled inMatch) (sw, 0)
    .ok acc.1
  else do
    let acc ← (List.finRange n).foldlM (writeInputDisabled inMatch) (sw, fun _ => false)
    .ok acc.1

end GIQSwitch

/-- An input-queued switch of either class. -/
inductive IQSwitch (n m : ℕ) where
  | simplified (sw : SIQSwitch n m)
  | generic (sw : GIQSwitch n m)

namespace IQSwitch

/-- `get_queue_length`. -/
def getQueueLength : IQSwitch n m → Fin n → Fin m → ℕ
  | simplified sw, s, d => sw.queueLenMat s d
  | generic sw, s, d => sw.queueLen s d

/-- `get_arrivals`, as the schedulers read it: up to the sentinel. -/
def getArrivals : IQSwitch n m → List (Fin n × Fin m)
  | simplified sw => sw.arrivals.pairs
  | generic sw => sw.arrivals.pairs

/-- `read_inputs`. -/
def readInputs : IQSwitch n m → (Fin n → List (Packet n m)) → IQSwitch n m
  | simplified sw, channels => simplified (sw.readInputs channels)
  | generic sw, channels => generic (sw.readInputs channels)

/-- `write_outputs`. -/
def writeOutputs : IQSwitch n m → (Fin n → Option (Fin m)) → Except Fault (IQSwitch n m)
  | simplified sw, inMatch => do
    let sw' ← sw.writeOutputs inMatch
    .ok (simplified sw')
  | generic sw, inMatch => do
    let sw' ← sw.writeOutputs inMatch
    .ok (generic sw')

/-- The end of a switching cycle: the generic switch updates its timer. -/
def tick : IQSwitch n m → IQSwitch n m
  | simplified sw => simplified sw
  | generic sw => generic { sw with time := sw.time + 1 }

/-- No packet is queued. -/
def Empty (sw : IQSwitch n m) : Prop := ∀ s d, sw.getQueueLength s d = 0

/-- A simplified switch without packets. -/
def empty (n m : ℕ) : IQSwitch n m := .simplified ⟨fun _ _ => 0, [], []⟩

theorem empty_empty (n m : ℕ) : (empty n m).Empty := fun _ _ => rfl

@[simp] theorem tick_getQueueLength (sw : IQSwitch n m) :
    sw.tick.getQueueLength = sw.getQueueLength := by
  cases sw <;> rfl

end IQSwitch

/-! ### Reading -/

/-- What reading a list of packets does to the queue lengths and to the arrival buffer, for
    either switch: `len` and `buf` are its views. -/
theorem readLoop {σ : Type} (len : σ → Fin n → Fin m → ℕ) (buf : σ → SdBuffer n m)
    (step : σ × ℕ → Packet n m → σ × ℕ)
    (hlen : ∀ acc pkt s d, len (step acc pkt).1 s d
      = len acc.1 s d + if (pkt.source, pkt.destination) = (s, d) then 1 else 0)
    (hbuf : ∀ acc pkt, buf (step acc pkt).1
      = (buf acc.1).record acc.2 (pkt.source, pkt.destination))
    (hcount : ∀ acc pkt, (step acc pkt).2 = acc.2 + 1)
    (pkts : List (Packet n m)) (sw : σ) :
    let acc := pkts.foldl step (sw, 0)
    let ps := pkts.map (fun pkt => (pkt.source, pkt.destination))
    (∀ s d, len acc.1 s d = len sw s d + ps.count (s, d)) ∧
      acc.2 = ps.length ∧ ∃ rest, buf acc.1 = ps.map some ++ rest := by
  intro acc ps
  -- Induction from the end: the last packet is written behind the part recorded so far.
  induction pkts using List.reverseRecOn with
  | nil => exact ⟨fun _ _ => rfl, rfl, buf sw, rfl⟩
  | append_singleton pkts pkt ih =>
    obtain ⟨ihlen, ihcount, rest, ihbuf⟩ := ih
    have hacc : acc = step (pkts.foldl step (sw, 0)) pkt := by
      simp only [acc, List.foldl_append, List.foldl_cons, List.foldl_nil]
    have hps : ps = pkts.map (fun pkt => (pkt.source, pkt.destination))
        ++ [(pkt.source, pkt.destination)] := by simp [ps]
    rw [hacc, hps]
    refine ⟨fun s d => ?_, ?_, rest.tail, ?_⟩
    · rw [hlen, ihlen, List.count_append, List.count_singleton, add_assoc]
      simp only [beq_iff_eq]
    · rw [hcount, ihcount, List.length_append, List.length_singleton]
    · rw [hbuf, ihcount, ihbuf, SdBuffer.record_append]

theorem SIQSwitch.readPacket_len (acc : SIQSwitch n m × ℕ) (pkt : Packet n m) (s : Fin n)
    (d : Fin m) : (SIQSwitch.readPacket acc pkt).1.queueLenMat s d
      = acc.1.queueLenMat s d + if (pkt.source, pkt.destination) = (s, d) then 1 else 0 := by
  exact update₂_add acc.1.queueLenMat pkt.source s pkt.destination d 1

theorem GIQSwitch.readPacket_len (acc : GIQSwitch n m × ℕ) (pkt : Packet n m) (s : Fin n)
    (d : Fin m) : (GIQSwitch.readPacket acc pkt).1.queueLen s d
      = acc.1.queueLen s d + if (pkt.source, pkt.destination) = (s, d) then 1 else 0 := by
  simp only [GIQSwitch.queueLen, GIQSwitch.readPacket, update₂_apply, Prod.mk.injEq,
    eq_comm (a := s), eq_comm (a := d)]
  split
  · rename_i h
    rw [← h.1, ← h.2, List.length_append, List.length_singleton]
  · rfl

/-- Every packet read joins its queue. -/
theorem IQSwitch.readInputs_queueLength (sw : IQSwitch n m)
    (channels : Fin n → List (Packet n m)) (s : Fin n) (d : Fin m) :
    (sw.readInputs channels).getQueueLength s d
      = sw.getQueueLength s d + (arrivalsOf channels).count (s, d) := by
  cases sw with
  | simplified sw =>
    exact (readLoop SIQSwitch.queueLenMat SIQSwitch.arrivals
      SIQSwitch.readPacket SIQSwitch.readPacket_len (fun _ _ => rfl) (fun _ _ => rfl)
      (packetsOf channels) sw).1 s d
  | generic sw =>
    exact (readLoop GIQSwitch.queueLen
      GIQSwitch.arrivals GIQSwitch.readPacket GIQSwitch.readPacket_len (fun _ _ => rfl)
      (fun _ _ => rfl) (packetsOf channels) sw).1 s d

/-- The scheduler sees exactly the packets read in the slot. -/
theorem IQSwitch.readInputs_arrivals (sw : IQSwitch n m)
    (channels : Fin n → List (Packet n m)) :
    (sw.readInputs channels).getArrivals = arrivalsOf channels := by
  have hmark : ∀ (buf : SdBuffer n m) (k : ℕ) (ps : List (Fin n × Fin m)), k = ps.length →
      (∃ rest, buf = ps.map some ++ rest) → (buf.mark k).pairs = ps := by
    rintro buf k ps rfl ⟨rest, rfl⟩
    exact SdBuffer.pairs_mark ps rest
  cases sw with
  | simplified sw =>
    obtain ⟨-, hcount, hbuf⟩ := readLoop SIQSwitch.queueLenMat
      SIQSwitch.arrivals SIQSwitch.readPacket SIQSwitch.readPacket_len (fun _ _ => rfl)
      (fun _ _ => rfl) (packetsOf channels) sw
    exact hmark _ _ _ hcount hbuf
  | generic sw =>
    obtain ⟨-, hcount, hbuf⟩ := readLoop
      GIQSwitch.queueLen
      GIQSwitch.arrivals GIQSwitch.readPacket GIQSwitch.readPacket_len (fun _ _ => rfl)
      (fun _ _ => rfl) (packetsOf channels) sw
    exact hmark _ _ _ hcount hbuf

/-! ### Writing -/

/-- What serving the inputs in turn does to the queue lengths, for any of the three loops: each
    matched queue loses one packet if it has one.  `used` marks the outputs already served,
    which only the loop that checks them keeps. -/
theorem writeLoop {σ : Type} (len : σ → Fin n → Fin m → ℕ) (used : σ → Fin m → Bool)
    (inMatch : Fin n → Option (Fin m)) (step : σ → Fin n → Except Fault σ)
    (hstep : ∀ acc src, Post (step acc src)
      (fun e => e = .outputOccupied ∧ ∃ d, inMatch src = some d ∧ used acc d = true)
      (fun acc' => (∀ s d, len acc' s d
          = len acc s d - if s = src ∧ inMatch s = some d then 1 else 0) ∧
        ∀ d, used acc' d = true → used acc d = true ∨ inMatch src = some d))
    (acc : σ) (hused : ∀ d, used acc d = false) :
    Post ((List.finRange n).foldlM step acc)
      (fun e => e = .outputOccupied ∧ ¬ IsMatching inMatch)
      (fun acc' => ∀ s d, len acc' s d
        = len acc s d - if inMatch s = some d then 1 else 0) := by
  -- The inputs still to come have lost nothing; an output in use was matched to an input that
  -- is not among them.
  have hloop := Post.foldlM_rest (f := step)
    (E := fun e => e = .outputOccupied ∧ ¬ IsMatching inMatch)
    (fun rest acc' => rest.Nodup ∧
      (∀ s d, len acc' s d
        = len acc s d - if s ∉ rest ∧ inMatch s = some d then 1 else 0) ∧
      ∀ d, used acc' d = true → ∃ s, s ∉ rest ∧ inMatch s = some d)
    (List.finRange n) acc
    ⟨List.nodup_finRange n, fun s d => by simp, fun d hd => by simp [hused] at hd⟩ ?_
  · exact hloop.imp (fun acc' h s d => by simpa using h.2.1 s d)
  · rintro src rest acc' ⟨hnodup, hlen, hocc⟩
    obtain ⟨hsrc, hrest⟩ := List.nodup_cons.mp hnodup
    refine (hstep acc' src).mono ?_ ?_
    · -- The output is in use by an earlier input, so the row is no matching.
      rintro e ⟨he, d, hd, hdused⟩
      obtain ⟨s, hs, hsd⟩ := hocc d hdused
      refine ⟨he, fun hmatch => hs ?_⟩
      rw [hmatch hsd hd]
      exact List.mem_cons_self
    · rintro acc'' ⟨hlen', hocc'⟩
      refine ⟨hrest, fun s d => ?_, fun d hd => ?_⟩
      · rw [hlen', hlen]
        by_cases hs : s = src
        · subst hs
          simp [hsrc]
        · simp [hs]
      · rcases hocc' d hd with h | h
        · obtain ⟨s, hs, hsd⟩ := hocc d h
          exact ⟨s, fun hmem => hs (List.mem_cons_of_mem _ hmem), hsd⟩
        · exact ⟨src, hsrc, h⟩

/-- The condition of the loop rule when the input being served is matched to `dst`. -/
theorem servedCell {inMatch : Fin n → Option (Fin m)} {src : Fin n} {dst : Fin m}
    (h : inMatch src = some dst) (s : Fin n) (d : Fin m) :
    (s = src ∧ inMatch s = some d) ↔ (s = src ∧ d = dst) := by
  refine and_congr_right (fun hs => ?_)
  rw [hs, h, Option.some.injEq, eq_comm]

theorem unservedCell {inMatch : Fin n → Option (Fin m)} {src : Fin n}
    (h : inMatch src = none) (s : Fin n) (d : Fin m) :
    ¬ (s = src ∧ inMatch s = some d) := by
  intro hc
  obtain ⟨rfl, hd⟩ := hc
  rw [h] at hd
  exact nomatch hd

theorem SIQSwitch.writeInput_post (inMatch : Fin n → Option (Fin m))
    (acc : SIQSwitch n m × ℕ) (src : Fin n) :
    Post (SIQSwitch.writeInput inMatch acc src) (fun _ => False) (fun acc' =>
      ∀ s d, acc'.1.queueLenMat s d
        = acc.1.queueLenMat s d - if s = src ∧ inMatch s = some d then 1 else 0) := by
  unfold SIQSwitch.writeInput
  cases hm : inMatch src with
  | none => simp [unservedCell hm]
  | some dst =>
    simp only [servedCell hm]
    split
    · intro s d
      show update₂ acc.1.queueLenMat src dst _ s d = _
      rw [update₂_apply]
      split
      · rename_i h
        rw [h.1, h.2]
      · rw [Nat.sub_zero]
    · rename_i hzero
      intro s d
      split
      · rename_i h
        rw [h.1, h.2, not_not.mp hzero]
      · rw [Nat.sub_zero]

namespace GIQSwitch

/-- Sending the head-of-line packet shortens its queue only. -/
theorem sendHead_queueLen (sw : GIQSwitch n m) {src : Fin n} {dst : Fin m}
    {pkt : Packet n m} {rest : List (Packet n m)}
    (hq : sw.virtualOutputQueue src dst = pkt :: rest) (s : Fin n) (d : Fin m) :
    (sw.sendHead src dst pkt rest).queueLen s d
      = sw.queueLen s d - if s = src ∧ d = dst then 1 else 0 := by
  simp only [queueLen, sendHead, update₂_apply]
  split
  · rename_i h
    rw [h.1, h.2, hq, List.length_cons, Nat.add_sub_cancel]
  · rw [Nat.sub_zero]

/-- Serving an empty queue changes no length. -/
theorem queueLen_of_empty (sw : GIQSwitch n m) {src : Fin n} {dst : Fin m}
    (hq : sw.virtualOutputQueue src dst = []) (s : Fin n) (d : Fin m) :
    sw.queueLen s d = sw.queueLen s d - if s = src ∧ d = dst then 1 else 0 := by
  split
  · rename_i h
    rw [h.1, h.2]
    simp [queueLen, hq]
  · rw [Nat.sub_zero]

theorem writeInputDisabled_post (inMatch : Fin n → Option (Fin m))
    (acc : GIQSwitch n m × (Fin m → Bool)) (src : Fin n) :
    Post (writeInputDisabled inMatch acc src)
      (fun e => e = .outputOccupied ∧ ∃ d, inMatch src = some d ∧ acc.2 d = true)
      (fun acc' => (∀ s d, acc'.1.queueLen s d
          = acc.1.queueLen s d - if s = src ∧ inMatch s = some d then 1 else 0) ∧
        ∀ d, acc'.2 d = true → acc.2 d = true ∨ inMatch src = some d) := by
  unfold writeInputDisabled
  cases hm : inMatch src with
  | none => exact ⟨fun s d => by simp [unservedCell hm], fun d hd => .inl hd⟩
  | some dst =>
    simp only [servedCell hm]
    cases hq : acc.1.virtualOutputQueue src dst with
    | nil => exact ⟨acc.1.queueLen_of_empty hq, fun d hd => .inl hd⟩
    | cons pkt rest =>
      refine Post.require_bind ?_ ?_
      · exact fun hocc => ⟨rfl, dst, rfl, Bool.not_eq_false _ ▸ hocc⟩
      · refine fun _ => ⟨acc.1.sendHead_queueLen hq, fun d hd => ?_⟩
        by_cases hdst : d = dst
        · exact .inr (congrArg some hdst.symm)
        · have hd' : Function.update acc.2 dst true d = true := hd
          rw [Function.update_of_ne hdst] at hd'
          exact .inl hd'

theorem writeInputEnabled_post (inMatch : Fin n → Option (Fin m))
    (acc : GIQSwitch n m × ℕ) (src : Fin n) :
    Post (writeInputEnabled inMatch acc src) (fun _ => False) (fun acc' =>
      ∀ s d, acc'.1.queueLen s d
        = acc.1.queueLen s d - if s = src ∧ inMatch s = some d then 1 else 0) := by
  unfold writeInputEnabled
  cases hm : inMatch src with
  | none => exact fun s d => by simp [unservedCell hm, queueLen]
  | some dst =>
    simp only [servedCell hm]
    cases hq : acc.1.virtualOutputQueue src dst with
    | nil => exact acc.1.queueLen_of_empty hq
    | cons pkt rest => exact acc.1.sendHead_queueLen hq

end GIQSwitch

/-- Writing takes one packet from every matched queue that has one.  Only the generic switch
    without departure information can stop, and only when two inputs share an output. -/
theorem IQSwitch.writeOutputs_post (sw : IQSwitch n m) (inMatch : Fin n → Option (Fin m)) :
    Post (sw.writeOutputs inMatch) (fun e => e = .outputOccupied ∧ ¬ IsMatching inMatch)
      (fun sw' => ∀ s d, sw'.getQueueLength s d
        = sw.getQueueLength s d - if inMatch s = some d then 1 else 0) := by
  cases sw with
  | simplified sw =>
    have hwrite : Post (sw.writeOutputs inMatch)
        (fun e => e = .outputOccupied ∧ ¬ IsMatching inMatch) (fun sw' => ∀ s d,
          sw'.queueLenMat s d = sw.queueLenMat s d - if inMatch s = some d then 1 else 0) := by
      have h := writeLoop (fun acc : SIQSwitch n m × ℕ => acc.1.queueLenMat)
        (fun _ _ => false) inMatch (SIQSwitch.writeInput inMatch) (fun acc src =>
          (SIQSwitch.writeInput_post inMatch acc src).mono (fun _ h => h.elim)
            (fun _ h => ⟨h, fun _ hd => .inl hd⟩)) (sw, 0) (fun _ => rfl)
      exact h.bind (fun _ h => h)
    exact hwrite.bind (fun _ h => h)
  | generic sw =>
    have hwrite : Post (sw.writeOutputs inMatch)
        (fun e => e = .outputOccupied ∧ ¬ IsMatching inMatch) (fun sw' => ∀ s d,
          sw'.queueLen s d = sw.queueLen s d - if inMatch s = some d then 1 else 0) := by
      unfold GIQSwitch.writeOutputs
      -- With departure information the loop checks no output, so it never stops.
      split
      · have h := writeLoop (fun acc : GIQSwitch n m × ℕ => acc.1.queueLen)
          (fun _ _ => false) inMatch (GIQSwitch.writeInputEnabled inMatch) (fun acc src =>
            (GIQSwitch.writeInputEnabled_post inMatch acc src).mono (fun _ h => h.elim)
              (fun _ h => ⟨h, fun _ hd => .inl hd⟩)) (sw, 0) (fun _ => rfl)
        exact h.bind (fun _ h => h)
      · have h := writeLoop (fun acc : GIQSwitch n m × (Fin m → Bool) => acc.1.queueLen)
          Prod.snd inMatch (GIQSwitch.writeInputDisabled inMatch)
          (GIQSwitch.writeInputDisabled_post inMatch) (sw, fun _ => false) (fun _ => rfl)
        exact h.bind (fun _ h => h)
    exact hwrite.bind (fun _ h => h)

end SschedSimulator
