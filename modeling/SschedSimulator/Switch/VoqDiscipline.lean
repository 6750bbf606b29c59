import Mathlib.Algebra.BigOperators.Fin
import SschedSimulator.Foundation.Fifo
import SschedSimulator.Switch.Switching

namespace SschedSimulator

open Foundation

/-!
# The queues of the generic switch

`gIQSwitch` under any scheduler, whether or not it returns matchings.

* `readInputs_queue` and `Written` — what reading and writing do to the queues and channels;
* `Logged` — a run together with the packets it accepted and sent in each slot;
* `fifo_of_run` — every queue is served first in, first out, a slot sends at most one packet for
  each input, and the stamps of a packet tell how many slots it waited.
-/

variable {n m : ℕ}

namespace GIQSwitch

/-! ### Reading -/

/-- The packets for the queue `(s, d)` that wait in the input channels. -/
def arrivalsFor (channels : Fin n → List (Packet n m)) (s : Fin n) (d : Fin m) :
    List (Packet n m) :=
  (packetsOf channels).filter (fun pkt => decide (pkt.source = s ∧ pkt.destination = d))

/-- Reading a list of packets only adds them, stamped, to their queues. -/
theorem readLoop_queue (pkts : List (Packet n m)) (acc : GIQSwitch n m × ℕ) :
    (∀ s d, (pkts.foldl readPacket acc).1.virtualOutputQueue s d
      = acc.1.virtualOutputQueue s d
        ++ (pkts.filter (fun pkt => decide (pkt.source = s ∧ pkt.destination = d))).map
          (fun pkt => { pkt with arrivalTime := acc.1.time })) ∧
    (pkts.foldl readPacket acc).1.time = acc.1.time ∧
    (pkts.foldl readPacket acc).1.delay = acc.1.delay ∧
    (pkts.foldl readPacket acc).1.enableDepartureInfo = acc.1.enableDepartureInfo ∧
    (pkts.foldl readPacket acc).1.outputChannel = acc.1.outputChannel := by
  induction pkts generalizing acc with
  | nil => simp
  | cons pkt rest ih =>
    rw [List.foldl_cons]
    obtain ⟨hqueue, htime, hdelay, hinfo, hchannel⟩ := ih (readPacket acc pkt)
    refine ⟨fun s d => ?_, htime, hdelay, hinfo, hchannel⟩
    rw [hqueue, List.filter_cons]
    show update₂ acc.1.virtualOutputQueue pkt.source pkt.destination _ s d ++ _ = _
    rw [update₂_apply]
    by_cases hpkt : pkt.source = s ∧ pkt.destination = d
    · obtain ⟨rfl, rfl⟩ := hpkt
      simp only [and_self, if_true, decide_true, List.map_cons, List.append_assoc,
        List.singleton_append]
      rfl
    · rw [if_neg (fun he => hpkt ⟨he.1.symm, he.2.symm⟩), if_neg (by simpa using hpkt)]
      rfl

theorem readInputs_queue (sw : GIQSwitch n m) (channels : Fin n → List (Packet n m)) (s : Fin n)
    (d : Fin m) : (sw.readInputs channels).virtualOutputQueue s d
      = sw.virtualOutputQueue s d
        ++ (arrivalsFor channels s d).map (fun pkt => { pkt with arrivalTime := sw.time }) :=
  (readLoop_queue (packetsOf channels) (sw, 0)).1 s d

/-- Reading leaves the timer and the output channels alone. -/
theorem readInputs_frame (sw : GIQSwitch n m) (channels : Fin n → List (Packet n m)) :
    (sw.readInputs channels).time = sw.time ∧ (sw.readInputs channels).delay = sw.delay ∧
      (sw.readInputs channels).enableDepartureInfo = sw.enableDepartureInfo ∧
      (sw.readInputs channels).outputChannel = sw.outputChannel :=
  (readLoop_queue (packetsOf channels) (sw, 0)).2

/-! ### Writing -/

/-- The packet that `src` sends on `dst`, stamped. -/
def headFor (sw : GIQSwitch n m) (inMatch : Fin n → Option (Fin m)) (dst : Fin m) (src : Fin n) :
    Option (Packet n m) :=
  if inMatch src = some dst then
    (sw.virtualOutputQueue src dst).head?.map
      (fun pkt => { pkt with departureTime := sw.time + sw.delay })
  else none

/-- What serving the inputs `l` changes: each queue that is matched loses its head, which is sent on
    its output. -/
structure Written (inMatch : Fin n → Option (Fin m)) (l : List (Fin n))
    (sw sw' : GIQSwitch n m) : Prop where
  served : ∀ s ∈ l, ∀ d, inMatch s = some d →
    sw'.virtualOutputQueue s d = (sw.virtualOutputQueue s d).tail
  kept : ∀ s d, ¬ (s ∈ l ∧ inMatch s = some d) →
    sw'.virtualOutputQueue s d = sw.virtualOutputQueue s d
  channel : ∀ d, sw'.outputChannel d
    = sw.outputChannel d ++ l.filterMap (sw.headFor inMatch d)
  time : sw'.time = sw.time
  delay : sw'.delay = sw.delay
  info : sw'.enableDepartureInfo = sw.enableDepartureInfo

namespace Written

variable {inMatch : Fin n → Option (Fin m)} {sw sw' sw'' : GIQSwitch n m}

/-- The departure buffer is no part of it. -/
theorem of_departures {l : List (Fin n)} (h : Written inMatch l sw sw') (buf : SdBuffer n m) :
    Written inMatch l sw { sw' with departures := buf } :=
  ⟨h.served, h.kept, h.channel, h.time, h.delay, h.info⟩

/-- An input that is not matched, or whose queue is empty, changes nothing. -/
theorem idle {src : Fin n}
    (h : ∀ d, inMatch src = some d → sw.virtualOutputQueue src d = []) :
    Written inMatch [src] sw sw := by
  refine ⟨fun s hs d hd => ?_, fun _ _ _ => rfl, fun d => ?_, rfl, rfl, rfl⟩
  · rw [List.mem_singleton.mp hs] at hd ⊢
    rw [h d hd, List.tail_nil]
  · have hnone : sw.headFor inMatch d src = none := by
      unfold headFor
      split
      · rename_i hd
        rw [h d hd, List.head?_nil, Option.map_none]
      · rfl
    rw [List.filterMap_cons_none hnone, List.filterMap_nil, List.append_nil]

theorem idle_of_unmatched {src : Fin n} (h : inMatch src = none) : Written inMatch [src] sw sw :=
  .idle (fun d hd => by rw [h] at hd; cases hd)

theorem idle_of_empty {src : Fin n} {dst : Fin m} (h : inMatch src = some dst)
    (hempty : sw.virtualOutputQueue src dst = []) : Written inMatch [src] sw sw := by
  refine .idle (fun d hd => ?_)
  rw [h, Option.some.injEq] at hd
  rwa [← hd]

theorem sendHead {src : Fin n} {dst : Fin m} {pkt : Packet n m} {rest : List (Packet n m)}
    (hdst : inMatch src = some dst) (hq : sw.virtualOutputQueue src dst = pkt :: rest) :
    Written inMatch [src] sw (sw.sendHead src dst pkt rest) := by
  refine ⟨fun s hs d hd => ?_, fun s d hne => ?_, fun d => ?_, rfl, rfl, rfl⟩
  · rw [List.mem_singleton.mp hs] at hd ⊢
    rw [hdst, Option.some.injEq] at hd
    subst hd
    rw [hq, List.tail_cons]
    exact update₂_self ..
  · show update₂ sw.virtualOutputQueue src dst rest s d = _
    rw [update₂_apply, if_neg]
    rintro ⟨rfl, rfl⟩
    exact hne ⟨List.mem_singleton_self _, hdst⟩
  · show Function.update sw.outputChannel dst _ d = _
    by_cases hd : d = dst
    · subst hd
      have hhead : sw.headFor inMatch d src
          = some { pkt with departureTime := sw.time + sw.delay } := by
        rw [headFor, if_pos hdst, hq, List.head?_cons, Option.map_some]
      rw [Function.update_self, List.filterMap_cons_some hhead, List.filterMap_nil]
    · have hhead : sw.headFor inMatch d src = none := by
        rw [headFor, if_neg]
        rw [hdst, Option.some.injEq]
        exact Ne.symm hd
      rw [Function.update_of_ne hd, List.filterMap_cons_none hhead, List.filterMap_nil,
        List.append_nil]

/-- One input, then the others. -/
theorem cons {src : Fin n} {rest : List (Fin n)} (hsrc : src ∉ rest)
    (h : Written inMatch [src] sw sw') (h' : Written inMatch rest sw' sw'') :
    Written inMatch (src :: rest) sw sw'' := by
  have hother : ∀ s ∈ rest, ∀ d, sw'.virtualOutputQueue s d = sw.virtualOutputQueue s d :=
    fun s hs d => h.kept s d (fun hc => hsrc (List.mem_singleton.mp hc.1 ▸ hs))
  refine ⟨fun s hs d hd => ?_, fun s d hne => ?_, fun d => ?_, h'.time.trans h.time,
    h'.delay.trans h.delay, h'.info.trans h.info⟩
  · rcases List.mem_cons.mp hs with rfl | hs
    · rw [h'.kept s d (fun hc => hsrc hc.1), h.served s (List.mem_singleton_self s) d hd]
    · rw [h'.served s hs d hd, hother s hs d]
  · rw [h'.kept s d (fun hc => hne ⟨List.mem_cons_of_mem _ hc.1, hc.2⟩), h.kept s d]
    exact fun hc => hne ⟨List.mem_singleton.mp hc.1 ▸ List.mem_cons_self, hc.2⟩
  · -- The heads of the other queues are those from before `src` was served.
    have hheads : rest.filterMap (sw'.headFor inMatch d) = rest.filterMap (sw.headFor inMatch d) :=
      List.filterMap_congr (fun s hs => by
        rw [headFor, headFor, hother s hs d, h.time, h.delay])
    rw [h'.channel, h.channel, hheads, List.append_assoc, ← List.filterMap_append]
    rfl

/-- The loop, for either way of writing; `view` is the switch in the middle of it. -/
theorem loop {σ : Type} (view : σ → GIQSwitch n m) {step : σ → Fin n → Except Fault σ}
    (hstep : ∀ acc src, Post (step acc src) (fun _ => True)
      (fun acc' => Written inMatch [src] (view acc) (view acc')))
    {l : List (Fin n)} (hl : l.Nodup) (acc : σ) :
    Post (l.foldlM step acc) (fun _ => True)
      (fun acc' => Written inMatch l (view acc) (view acc')) := by
  induction l generalizing acc with
  | nil =>
    exact ⟨fun s hs => absurd hs List.not_mem_nil, fun _ _ _ => rfl,
      fun d => (List.append_nil _).symm, rfl, rfl, rfl⟩
  | cons src rest ih =>
    obtain ⟨hsrc, hrest⟩ := List.nodup_cons.mp hl
    rw [List.foldlM_cons]
    exact (hstep acc src).bind (fun acc' h => (ih hrest acc').imp (fun _ h' => h.cons hsrc h'))

end Written

theorem writeInputDisabled_written (inMatch : Fin n → Option (Fin m))
    (acc : GIQSwitch n m × (Fin m → Bool)) (src : Fin n) :
    Post (writeInputDisabled inMatch acc src) (fun _ => True)
      (fun acc' => Written inMatch [src] acc.1 acc'.1) := by
  unfold writeInputDisabled
  cases hm : inMatch src with
  | none => exact .idle_of_unmatched hm
  | some dst =>
    dsimp only
    cases hq : acc.1.virtualOutputQueue src dst with
    | nil => exact .idle_of_empty hm hq
    | cons pkt rest =>
      refine Post.require_bind (fun _ => trivial) ?_
      exact fun _ => .sendHead hm hq

theorem writeInputEnabled_written (inMatch : Fin n → Option (Fin m)) (acc : GIQSwitch n m × ℕ)
    (src : Fin n) :
    Post (writeInputEnabled inMatch acc src) (fun _ => True)
      (fun acc' => Written inMatch [src] acc.1 acc'.1) := by
  unfold writeInputEnabled
  refine Written.of_departures ?_ _
  cases hm : inMatch src with
  | none => exact .idle_of_unmatched hm
  | some dst =>
    dsimp only
    cases hq : acc.1.virtualOutputQueue src dst with
    | nil => exact .idle_of_empty hm hq
    | cons pkt rest => exact (Written.sendHead hm hq).of_departures _

/-- Both ways of writing do the same to the queues and the channels. -/
theorem writeOutputs_written {sw sw' : GIQSwitch n m} {inMatch : Fin n → Option (Fin m)}
    (h : sw.writeOutputs inMatch = .ok sw') : Written inMatch (List.finRange n) sw sw' := by
  have hpost : Post (sw.writeOutputs inMatch) (fun _ => True)
      (fun sw' => Written inMatch (List.finRange n) sw sw') := by
    unfold writeOutputs
    split
    · exact (Written.loop Prod.fst (writeInputEnabled_written inMatch) (List.nodup_finRange n)
        (sw, 0)).bind (fun _ h => h)
    · exact (Written.loop Prod.fst (writeInputDisabled_written inMatch) (List.nodup_finRange n)
        (sw, fun _ => false)).bind (fun _ h => h)
  exact hpost.of_ok h

/-! ### What leaves in a slot -/

/-- Every packet waits in the queue of its own ports. -/
def Sorted (sw : GIQSwitch n m) : Prop :=
  ∀ s d, ∀ pkt ∈ sw.virtualOutputQueue s d, pkt.source = s ∧ pkt.destination = d

/-- The packets sent on `dst` in a slot. -/
def sendsOn (sw : GIQSwitch n m) (inMatch : Fin n → Option (Fin m)) (dst : Fin m) :
    List (Packet n m) :=
  (List.finRange n).filterMap (sw.headFor inMatch dst)

section

variable {sw : GIQSwitch n m} {inMatch : Fin n → Option (Fin m)}

theorem headFor_eq_some {dst : Fin m} {src : Fin n} {pkt : Packet n m}
    (h : sw.headFor inMatch dst src = some pkt) :
    inMatch src = some dst ∧ ∃ p ∈ sw.virtualOutputQueue src dst, pkt.source = p.source := by
  unfold headFor at h
  split at h
  · rename_i hdst
    obtain ⟨p, hp, rfl⟩ := Option.map_eq_some_iff.mp h
    exact ⟨hdst, p, List.mem_of_mem_head? hp, rfl⟩
  · cases h

/-- Of the packets sent on an output, those of one source are the one sent by that input. -/
theorem sendsOn_filter (hsorted : sw.Sorted) (dst : Fin m) (src : Fin n) :
    (sw.sendsOn inMatch dst).filter (fun pkt => decide (pkt.source = src))
      = (sw.headFor inMatch dst src).toList := by
  have hsource : ∀ s pkt, sw.headFor inMatch dst s = some pkt → pkt.source = s := by
    intro s pkt hpkt
    obtain ⟨-, p, hp, heq⟩ := headFor_eq_some hpkt
    exact heq.trans (hsorted s dst p hp).1
  unfold sendsOn
  rw [List.filter_filterMap,
    filterMap_eq_toList (List.nodup_finRange n) (List.mem_finRange src) (fun s _ hne => ?_)]
  · cases hhead : sw.headFor inMatch dst src with
    | none => rfl
    | some pkt => rw [Option.filter_some, if_pos (decide_eq_true (hsource src pkt hhead))]
  · cases hhead : sw.headFor inMatch dst s with
    | none => rfl
    | some pkt =>
      rw [Option.filter_some, if_neg]
      rw [decide_eq_true_eq, hsource s pkt hhead]
      exact hne

/-- At most one packet of each input leaves. -/
theorem sum_sendsOn_le_one (hsorted : sw.Sorted) (src : Fin n) :
    ∑ dst, (sw.sendsOn inMatch dst).countP (fun pkt => decide (pkt.source = src)) ≤ 1 := by
  have hle : ∀ dst, (sw.sendsOn inMatch dst).countP (fun pkt => decide (pkt.source = src))
      ≤ if inMatch src = some dst then 1 else 0 := by
    intro dst
    rw [List.countP_eq_length_filter, sendsOn_filter hsorted]
    unfold headFor
    split
    · exact Option.length_toList_le
    · exact le_refl 0
  refine (Finset.sum_le_sum (fun dst _ => hle dst)).trans ?_
  cases inMatch src with
  | none => simp
  | some dst => simp

/-- At most one packet leaves on each output if the row is a matching. -/
theorem length_sendsOn_le_one (hmatch : IsMatching inMatch) (dst : Fin m) :
    (sw.sendsOn inMatch dst).length ≤ 1 := by
  unfold sendsOn
  by_cases hdst : ∃ src, inMatch src = some dst
  · obtain ⟨src, hsrc⟩ := hdst
    rw [filterMap_eq_toList (List.nodup_finRange n) (List.mem_finRange src) (fun s _ hne => ?_)]
    · exact Option.length_toList_le
    · rw [headFor, if_neg (fun hs => hne (hmatch hs hsrc))]
  · have hnone : ∀ s ∈ List.finRange n, sw.headFor inMatch dst s = none := by
      intro s _
      rw [headFor, if_neg (fun hs => hdst ⟨s, hs⟩)]
    rw [List.filterMap_eq_nil_iff.mpr hnone]
    exact Nat.zero_le 1

end

end GIQSwitch

/-! ### Runs with a log -/

/-- The packets of a run, each with the number of the slot: as they arrived for each queue, and as
    they were sent on each output. -/
structure Log (n m : ℕ) where
  accepted : Fin n → Fin m → List (ℕ × Packet n m)
  sent : Fin m → List (ℕ × Packet n m)

namespace Log

def empty : Log n m := ⟨fun _ _ => [], fun _ => []⟩

/-- Slot `T` read `channels` and took the output channels from those of `sw` to those of `sw'`. -/
def extend (log : Log n m) (T : ℕ) (channels : Fin n → List (Packet n m))
    (sw sw' : GIQSwitch n m) : Log n m where
  accepted := fun s d =>
    log.accepted s d ++ (GIQSwitch.arrivalsFor channels s d).map (fun pkt => (T, pkt))
  sent := fun d => log.sent d
    ++ ((sw'.outputChannel d).drop (sw.outputChannel d).length).map (fun pkt => (T, pkt))

end Log

/-- The switch after its constructor and the installation of the output channels. -/
def GIQSwitch.construct (enableDepartureInfo : Bool) (outputChannel : Fin m → List (Packet n m)) :
    GIQSwitch n m where
  enableDepartureInfo := enableDepartureInfo
  virtualOutputQueue := fun _ _ => []
  arrivals := []
  departures := []
  delay := 0
  time := 0
  outputChannel := outputChannel

/-- Slots in which no assertion fails, between which packets may be received from the output
    channels. -/
inductive Logged (S : SchedulerModel n m) (sw₀ : GIQSwitch n m) :
    ℕ → Log n m → GIQSwitch n m → S.State → Prop where
  | start (st : S.State) : Logged S sw₀ 0 Log.empty sw₀ st
  | slot {T : ℕ} {log : Log n m} {sw sw' : GIQSwitch n m} {st st' : S.State} (input : S.Input)
      (channels : Fin n → List (Packet n m)) : Logged S sw₀ T log sw st →
      switching S input channels ⟨.generic sw, st⟩ = .ok ⟨.generic sw', st'⟩ →
      Logged S sw₀ (T + 1) (log.extend T channels sw sw') sw' st'
  | receive {T : ℕ} {log : Log n m} {sw : GIQSwitch n m} {st : S.State} (k : Fin m → ℕ) :
      Logged S sw₀ T log sw st → Logged S sw₀ T log
        { sw with outputChannel := fun d => (sw.outputChannel d).drop (k d) } st

/-- A slot of the generic switch. -/
theorem switching_generic {S : SchedulerModel n m} {input : S.Input}
    {channels : Fin n → List (Packet n m)} {sw sw' : GIQSwitch n m} {st st' : S.State}
    (h : switching S input channels ⟨.generic sw, st⟩ = .ok ⟨.generic sw', st'⟩) :
    ∃ sw₁, (sw.readInputs channels).writeOutputs (S.inMatch st') = .ok sw₁ ∧
      sw' = { sw₁ with time := sw₁.time + 1 } := by
  obtain ⟨st₁, -, h₁⟩ := bind_eq_ok.mp h
  obtain ⟨sw₁, hwrite, h₂⟩ := bind_eq_ok.mp h₁
  rw [Except.ok.injEq, System.mk.injEq] at h₂
  obtain ⟨hsw, rfl⟩ := h₂
  obtain ⟨sw₂, hwrite', h₃⟩ := bind_eq_ok.mp hwrite
  cases h₃
  exact ⟨sw₂, hwrite', (IQSwitch.generic.inj hsw).symm⟩

theorem switching_generic_eq_ok {S : SchedulerModel n m} {input : S.Input}
    {channels : Fin n → List (Packet n m)} {sw sw₁ : GIQSwitch n m} {st st' : S.State}
    (hrun : S.schedule input ((IQSwitch.generic sw).readInputs channels) st = .ok st')
    (hwrite : (sw.readInputs channels).writeOutputs (S.inMatch st') = .ok sw₁) :
    switching S input channels ⟨.generic sw, st⟩
      = .ok ⟨.generic { sw₁ with time := sw₁.time + 1 }, st'⟩ := by
  have hwrite' : ((IQSwitch.generic sw).readInputs channels).writeOutputs (S.inMatch st')
      = .ok (.generic sw₁) := by
    show (sw.readInputs channels).writeOutputs (S.inMatch st') >>= _ = _
    rw [hwrite, ok_bind]
  rw [switching, hrun, ok_bind, hwrite', ok_bind]
  rfl

/-- Writing returns with departure information, which checks no output, or when the row is a
    matching. -/
theorem GIQSwitch.writeOutputs_eq_ok (sw : GIQSwitch n m) {inMatch : Fin n → Option (Fin m)}
    (h : sw.enableDepartureInfo = true ∨ IsMatching inMatch) :
    ∃ sw', sw.writeOutputs inMatch = .ok sw' := by
  rcases h with hinfo | hmatch
  · have hloop : Post ((List.finRange n).foldlM (writeInputEnabled inMatch) (sw, 0))
        (fun _ => False) (fun _ => True) :=
      Post.foldlM trivial
        (fun src _ acc _ => (writeInputEnabled_post inMatch acc src).imp (fun _ _ => trivial))
    obtain ⟨acc, hrun, -⟩ := hloop.exists_ok (fun _ _ he => he)
    exact ⟨acc.1, by rw [writeOutputs, if_pos hinfo, hrun, ok_bind]⟩
  · obtain ⟨sw', hwrite, -⟩ :=
      (IQSwitch.writeOutputs_post (.generic sw) inMatch).exists_ok (fun _ _ he => he.2 hmatch)
    obtain ⟨sw₁, hwrite₁, -⟩ := bind_eq_ok.mp hwrite
    exact ⟨sw₁, hwrite₁⟩

/-- How a packet that arrived in one slot leaves in another. -/
def Leaves (a b : ℕ × Packet n m) : Prop :=
  a.1 ≤ b.1 ∧ b.2 = { a.2 with arrivalTime := a.1, departureTime := b.1 }

/-- How a packet that arrived waits. -/
def waiting (a : ℕ × Packet n m) : Packet n m := { a.2 with arrivalTime := a.1 }

/-- The invariant of a run: the timer counts the slots, and every queue is served first in, first
    out. -/
structure Disciplined (info : Bool) (T : ℕ) (log : Log n m) (sw : GIQSwitch n m) : Prop where
  info : sw.enableDepartureInfo = info
  time : sw.time = T
  delay : sw.delay = 0
  ports : ∀ s d, ∀ a ∈ log.accepted s d, a.1 < T ∧ a.2.source = s ∧ a.2.destination = d
  fifo : ∀ s d, Fifo Leaves waiting (log.accepted s d)
    ((log.sent d).filter (fun b => decide (b.2.source = s))) (sw.virtualOutputQueue s d)

namespace Disciplined

variable {info : Bool} {T : ℕ} {log : Log n m} {sw sw' : GIQSwitch n m}

theorem sorted (h : Disciplined info T log sw) : sw.Sorted := by
  intro s d pkt hpkt
  obtain ⟨served, rest, haccepted, -, hqueue⟩ := h.fifo s d
  rw [hqueue] at hpkt
  obtain ⟨a, ha, rfl⟩ := List.mem_map.mp hpkt
  exact (h.ports s d a (haccepted ▸ List.mem_append_right _ ha)).2

/-- After reading, the arrivals of the slot wait behind the others. -/
theorem read (h : Disciplined info T log sw) (channels : Fin n → List (Packet n m)) (s : Fin n)
    (d : Fin m) : Fifo Leaves waiting
      (log.accepted s d ++ (GIQSwitch.arrivalsFor channels s d).map (fun pkt => (T, pkt)))
      ((log.sent d).filter (fun b => decide (b.2.source = s)))
      ((sw.readInputs channels).virtualOutputQueue s d) := by
  rw [GIQSwitch.readInputs_queue, h.time]
  have henqueue := (h.fifo s d).enqueue
    ((GIQSwitch.arrivalsFor channels s d).map (fun pkt => (T, pkt)))
  rwa [List.map_map] at henqueue

theorem ports_read (h : Disciplined info T log sw) (channels : Fin n → List (Packet n m))
    (s : Fin n) (d : Fin m) : ∀ a ∈ log.accepted s d
        ++ (GIQSwitch.arrivalsFor channels s d).map (fun pkt => (T, pkt)),
      a.1 < T + 1 ∧ a.2.source = s ∧ a.2.destination = d := by
  intro a ha
  rcases List.mem_append.mp ha with ha | ha
  · obtain ⟨hT, hports⟩ := h.ports s d a ha
    exact ⟨Nat.lt_succ_of_lt hT, hports⟩
  · obtain ⟨pkt, hpkt, rfl⟩ := List.mem_map.mp ha
    exact ⟨Nat.lt_succ_self T, of_decide_eq_true (List.mem_filter.mp hpkt).2⟩

/-- The packets are in their queues after reading, too. -/
theorem sorted_read (h : Disciplined info T log sw) (channels : Fin n → List (Packet n m)) :
    (sw.readInputs channels).Sorted := by
  intro s d pkt hpkt
  obtain ⟨served, rest, haccepted, -, hqueue⟩ := h.read channels s d
  rw [hqueue] at hpkt
  obtain ⟨a, ha, rfl⟩ := List.mem_map.mp hpkt
  exact (h.ports_read channels s d a (haccepted ▸ List.mem_append_right _ ha)).2

/-- What a slot sends. -/
theorem outputChannel {S : SchedulerModel n m} {input : S.Input}
    {channels : Fin n → List (Packet n m)} {st st' : S.State}
    (hok : switching S input channels ⟨.generic sw, st⟩ = .ok ⟨.generic sw', st'⟩) (d : Fin m) :
    sw'.outputChannel d
      = sw.outputChannel d ++ (sw.readInputs channels).sendsOn (S.inMatch st') d := by
  obtain ⟨sw₁, hwrite, rfl⟩ := switching_generic hok
  have hchannel := (GIQSwitch.writeOutputs_written hwrite).channel d
  rwa [(sw.readInputs_frame channels).2.2.2] at hchannel

/-- One slot. -/
theorem step (h : Disciplined info T log sw) {S : SchedulerModel n m} {input : S.Input}
    {channels : Fin n → List (Packet n m)} {st st' : S.State}
    (hok : switching S input channels ⟨.generic sw, st⟩ = .ok ⟨.generic sw', st'⟩) :
    Disciplined info (T + 1) (log.extend T channels sw sw') sw' := by
  have hsent := outputChannel hok
  obtain ⟨sw₁, hwrite, rfl⟩ := switching_generic hok
  have hwritten := GIQSwitch.writeOutputs_written hwrite
  obtain ⟨htime, hdelay, hinfo, -⟩ := sw.readInputs_frame channels
  refine ⟨hwritten.info.trans (hinfo.trans h.info), ?_,
    hwritten.delay.trans (hdelay.trans h.delay), h.ports_read channels, fun s d => ?_⟩
  · show sw₁.time + 1 = T + 1
    rw [hwritten.time, htime, h.time]
  · have hread := h.read channels s d
    -- Of the packets sent on `d` in this slot, those of `s` are the head of the queue, if any.
    have hfilter : ((log.extend T channels sw { sw₁ with time := sw₁.time + 1 }).sent d).filter
        (fun b => decide (b.2.source = s))
        = (log.sent d).filter (fun b => decide (b.2.source = s))
          ++ ((sw.readInputs channels).headFor (S.inMatch st') d s).toList.map
            (fun pkt => (T, pkt)) := by
      show (log.sent d ++ _).filter _ = _
      rw [hsent d, List.drop_left, List.filter_append, List.filter_map,
        ← GIQSwitch.sendsOn_filter (h.sorted_read channels) d s]
      rfl
    rw [hfilter]
    show Fifo Leaves waiting _ _ (sw₁.virtualOutputQueue s d)
    by_cases hd : S.inMatch st' s = some d
    · rw [hwritten.served s (List.mem_finRange s) d hd, GIQSwitch.headFor, if_pos hd]
      cases hq : (sw.readInputs channels).virtualOutputQueue s d with
      | nil =>
        rw [hq] at hread
        rw [List.head?_nil, Option.map_none, Option.toList_none, List.map_nil, List.append_nil,
          List.tail_nil]
        exact hread
      | cons pkt rest =>
        rw [hq] at hread
        refine hread.dequeue (fun a ha hpkt => ⟨?_, ?_⟩)
        · exact Nat.lt_succ_iff.mp (h.ports_read channels s d a ha).1
        · subst hpkt
          rw [htime, hdelay, h.time, h.delay]
          rfl
    · rw [hwritten.kept s d (fun hc => hd hc.2), GIQSwitch.headFor, if_neg hd, Option.toList_none,
        List.map_nil, List.append_nil]
      exact hread

end Disciplined

theorem Logged.disciplined {S : SchedulerModel n m} {enableDepartureInfo : Bool}
    {out : Fin m → List (Packet n m)} {T : ℕ} {log : Log n m} {sw : GIQSwitch n m} {st : S.State}
    (h : Logged S (GIQSwitch.construct enableDepartureInfo out) T log sw st) :
    Disciplined enableDepartureInfo T log sw := by
  induction h with
  | start st =>
    exact ⟨rfl, rfl, rfl, fun _ _ _ ha => absurd ha List.not_mem_nil, fun _ _ => Fifo.empty⟩
  | slot input channels _ hok ih => exact ih.step hok
  | receive k _ ih => exact ⟨ih.info, ih.time, ih.delay, ih.ports, ih.fifo⟩

/-- In every run of the generic switch under any scheduler: the packets of a queue leave in the
    order in which they arrived, each either waits or was sent once, and its stamps differ by the
    number of slots it waited.  A slot sends at most one packet of each input, and at most one on
    each output if the scheduler returned a matching; it fails no assertion of the switch if
    departure information is enabled or the scheduler returned a matching. -/
theorem fifo_of_run {S : SchedulerModel n m} {enableDepartureInfo : Bool}
    {out : Fin m → List (Packet n m)} {T : ℕ} {log : Log n m} {sw : GIQSwitch n m} {st : S.State}
    (h : Logged S (GIQSwitch.construct enableDepartureInfo out) T log sw st) :
    (∀ s d, ∃ served rest, log.accepted s d = served ++ rest ∧
      sw.virtualOutputQueue s d = rest.map (fun a => { a.2 with arrivalTime := a.1 }) ∧
      List.Forall₂ (fun a b : ℕ × Packet n m =>
          b.2 = { a.2 with arrivalTime := a.1, departureTime := b.1 } ∧
          b.2.departureTime - b.2.arrivalTime = b.1 - a.1 ∧ a.1 ≤ b.1)
        served ((log.sent d).filter (fun b => decide (b.2.source = s)))) ∧
    ∀ input channels st',
      S.schedule input ((IQSwitch.generic sw).readInputs channels) st = .ok st' →
      (enableDepartureInfo = true ∨ IsMatching (S.inMatch st') →
        ∃ sw', switching S input channels ⟨.generic sw, st⟩ = .ok ⟨.generic sw', st'⟩) ∧
      ∀ sw', switching S input channels ⟨.generic sw, st⟩ = .ok ⟨.generic sw', st'⟩ →
        ∃ sends : Fin m → List (Packet n m),
          (∀ d, sw'.outputChannel d = sw.outputChannel d ++ sends d) ∧
          (∀ s, ∑ d, (sends d).countP (fun pkt => decide (pkt.source = s)) ≤ 1) ∧
          (IsMatching (S.inMatch st') → ∀ d, (sends d).length ≤ 1) := by
  have hdisc := h.disciplined
  refine ⟨fun s d => ?_, fun input channels st' hrun => ⟨fun hcond => ?_, fun sw' hok => ?_⟩⟩
  · obtain ⟨served, rest, haccepted, hserved, hqueue⟩ := hdisc.fifo s d
    refine ⟨served, rest, haccepted, hqueue, hserved.imp (fun a b hab => ?_)⟩
    obtain ⟨hle, heq⟩ := hab
    rw [heq]
    exact ⟨rfl, rfl, hle⟩
  · -- reading the inputs does not change what is reported
    have hcond' : (sw.readInputs channels).enableDepartureInfo = true ∨
        IsMatching (S.inMatch st') := by
      rw [(sw.readInputs_frame channels).2.2.1, hdisc.info]
      exact hcond
    obtain ⟨sw₁, hwrite⟩ := (sw.readInputs channels).writeOutputs_eq_ok hcond'
    exact ⟨_, switching_generic_eq_ok hrun hwrite⟩
  · exact ⟨(sw.readInputs channels).sendsOn (S.inMatch st'), Disciplined.outputChannel hok,
      GIQSwitch.sum_sendsOn_le_one (hdisc.sorted_read channels),
      GIQSwitch.length_sendsOn_le_one⟩

/-- A scheduler whose decisions are given from outside. -/
abbrev decisions (n m : ℕ) : SchedulerModel n m where
  State := Fin n → Option (Fin m)
  Input := Fin n → Option (Fin m)
  schedule := fun decision _ _ => .ok decision
  inMatch := fun decision => decision

/-- Both inputs are matched to the only output, which departure information allows: both send the
    first of their two packets. -/
theorem fifo_after_slot :
    ∃ log sw st, Logged (decisions 2 1) (GIQSwitch.construct true (fun _ => [])) 1 log sw st ∧
      (sw.outputChannel 0).length = 2 ∧
      ∀ s d, ∃ served rest, log.accepted s d = served ++ rest ∧
        sw.virtualOutputQueue s d = rest.map (fun a => { a.2 with arrivalTime := a.1 }) := by
  obtain ⟨⟨sw', st'⟩, hrun, hsys⟩ := exists_of_returns
    (x := switching (decisions 2 1) (fun _ => some 0) (packetsFor 0 (fun _ => 2))
      ⟨.generic (GIQSwitch.construct true (fun _ => [])), fun _ => none⟩)
    (p := fun sys => match sys.switch with
      | .simplified _ => false
      | .generic sw => decide ((sw.outputChannel 0).length = 2)) (by decide)
  cases sw' with
  | simplified sw' => exact nomatch hsys
  | generic sw' =>
    have hlog := Logged.slot _ _ (.start _) hrun
    refine ⟨_, sw', st', hlog, of_decide_eq_true hsys, fun s d => ?_⟩
    obtain ⟨served, rest, haccepted, hqueue, -⟩ := (fifo_of_run hlog).1 s d
    exact ⟨served, rest, haccepted, hqueue⟩

end SschedSimulator
