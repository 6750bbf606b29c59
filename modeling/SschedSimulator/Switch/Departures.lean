import SschedSimulator.Switch.VoqDiscipline

namespace SschedSimulator

open Foundation

/-!
# The departures of a slot

`write_outputs` records a departure for every matched pair whose queue is not empty, in the order of
the inputs, in a buffer that is reused from slot to slot and ends at a sentinel.

* `departed` — what departs, read off the matching and the queue lengths;
* `SIQSwitch.departures_eq`, `GIQSwitch.departures_eq` — it is what either switch reports;
* `sum_queueLength_add_departed` — the queues are shorter by as much.
-/

variable {n m : ℕ}

namespace SdBuffer

/-- The pairs recorded so far, in front of what is left of an earlier slot. -/
def Recorded (buf : SdBuffer n m) (k : ℕ) (ps : List (Fin n × Fin m)) : Prop :=
  k = ps.length ∧ ∃ rest, buf = ps.map some ++ rest

section

variable {buf : SdBuffer n m} {k : ℕ} {ps : List (Fin n × Fin m)}

theorem recorded_nil (buf : SdBuffer n m) : Recorded buf 0 [] := ⟨rfl, buf, rfl⟩

theorem Recorded.record (h : Recorded buf k ps) (p : Fin n × Fin m) :
    Recorded (buf.record k p) (k + 1) (ps ++ [p]) := by
  obtain ⟨rfl, rest, rfl⟩ := h
  exact ⟨by rw [List.length_append, List.length_singleton], rest.tail, record_append ps rest p⟩

/-- The sentinel cuts off what is left. -/
theorem Recorded.mark (h : Recorded buf k ps) :
    Recorded (buf.mark k) k ps ∧ (buf.mark k).pairs = ps := by
  obtain ⟨rfl, rest, rfl⟩ := h
  refine ⟨⟨rfl, ?_⟩, pairs_mark ps rest⟩
  cases rest with
  | nil => exact ⟨[], by simp [SdBuffer.mark]⟩
  | cons x rest => exact ⟨none :: rest, by simp [SdBuffer.mark]⟩

end

end SdBuffer

/-! ### What departs -/

/-- The departure of an input. -/
def departs (inMatch : Fin n → Option (Fin m)) (len : Fin n → Fin m → ℕ) (s : Fin n) :
    Option (Fin n × Fin m) :=
  match inMatch s with
  | none => none
  | some d => if len s d ≠ 0 then some (s, d) else none

/-- The departures of a slot. -/
def departed (inMatch : Fin n → Option (Fin m)) (len : Fin n → Fin m → ℕ) :
    List (Fin n × Fin m) :=
  (List.finRange n).filterMap (departs inMatch len)

section

variable {inMatch : Fin n → Option (Fin m)} {len len' : Fin n → Fin m → ℕ}

theorem departs_of_none {s : Fin n} (h : inMatch s = none) : departs inMatch len s = none := by
  simp [departs, h]

theorem departs_of_empty {s : Fin n} {d : Fin m} (h : inMatch s = some d) (hlen : len s d = 0) :
    departs inMatch len s = none := by
  simp [departs, h, hlen]

theorem departs_of_some {s : Fin n} {d : Fin m} (h : inMatch s = some d) (hlen : len s d ≠ 0) :
    departs inMatch len s = some (s, d) := by
  simp [departs, h, hlen]

/-- Only the queues of the input itself matter. -/
theorem departs_congr {s : Fin n} (h : len s = len' s) :
    departs inMatch len s = departs inMatch len' s := by
  rw [departs, departs, h]

/-- The loop rule for recording departures: `Rec` holds before an input is served, `Rec'` after. -/
theorem departLoop {σ : Type} (len : σ → Fin n → Fin m → ℕ)
    (Rec Rec' : List (Fin n × Fin m) → σ → Prop) (hrec : ∀ ps acc, Rec' ps acc → Rec ps acc)
    {step : σ → Fin n → Except Fault σ}
    (hstep : ∀ ps acc src, Rec ps acc → Post (step acc src) (fun _ => False) (fun acc' =>
      Rec' (ps ++ (departs inMatch (len acc) src).toList) acc' ∧
        ∀ s, s ≠ src → len acc' s = len acc s))
    {l : List (Fin n)} (hl : l.Nodup) (hne : l ≠ []) (ps : List (Fin n × Fin m)) (acc : σ)
    (h : Rec ps acc) :
    Post (l.foldlM step acc) (fun _ => False)
      (Rec' (ps ++ l.filterMap (departs inMatch (len acc)))) := by
  induction l generalizing ps acc with
  | nil => exact absurd rfl hne
  | cons src rest ih =>
    obtain ⟨hsrc, hrest⟩ := List.nodup_cons.mp hl
    rw [List.foldlM_cons]
    refine (hstep ps acc src h).bind (fun acc' h' => ?_)
    obtain ⟨hacc', hframe⟩ := h'
    -- The inputs of `rest` depart as if they had been served first.
    have htail : rest.filterMap (departs inMatch (len acc'))
        = rest.filterMap (departs inMatch (len acc)) :=
      List.filterMap_congr (fun s hs => departs_congr (hframe s (fun he => hsrc (he ▸ hs))))
    have hsplit : (src :: rest).filterMap (departs inMatch (len acc))
        = (departs inMatch (len acc) src).toList
          ++ rest.filterMap (departs inMatch (len acc')) := by
      rw [htail, List.filterMap_cons]
      cases departs inMatch (len acc) src <;> rfl
    rw [hsplit, ← List.append_assoc]
    by_cases hnil : rest = []
    · subst hnil
      simpa using hacc'
    · exact ih hrest hnil _ acc' (hrec _ _ hacc')

end

/-! ### The simplified switch -/

theorem SIQSwitch.writeInput_departs (inMatch : Fin n → Option (Fin m))
    {ps : List (Fin n × Fin m)} {acc : SIQSwitch n m × ℕ} (src : Fin n)
    (h : acc.1.departures.Recorded acc.2 ps) :
    Post (SIQSwitch.writeInput inMatch acc src) (fun _ => False) (fun acc' =>
      acc'.1.departures.Recorded acc'.2
        (ps ++ (departs inMatch acc.1.queueLenMat src).toList) ∧
      ∀ s, s ≠ src → acc'.1.queueLenMat s = acc.1.queueLenMat s) := by
  unfold SIQSwitch.writeInput
  cases hm : inMatch src with
  | none =>
    rw [departs_of_none hm, Option.toList_none, List.append_nil]
    exact ⟨h, fun _ _ => rfl⟩
  | some dst =>
    dsimp only
    split
    · rename_i hlen
      rw [departs_of_some hm hlen, Option.toList_some]
      exact ⟨h.record (src, dst), fun s hs => update₂_row_of_ne _ hs ..⟩
    · rename_i hlen
      rw [departs_of_empty hm (not_not.mp hlen), Option.toList_none, List.append_nil]
      exact ⟨h, fun _ _ => rfl⟩

/-- What the simplified switch reports. -/
theorem SIQSwitch.departures_eq {sw sw' : SIQSwitch n m} {inMatch : Fin n → Option (Fin m)}
    (h : sw.writeOutputs inMatch = .ok sw') :
    sw'.departures.pairs = departed inMatch sw.queueLenMat := by
  rcases Nat.eq_zero_or_pos n with rfl | hn
  · exact Subsingleton.elim _ _
  have hne : List.finRange n ≠ [] := List.ne_nil_of_mem (List.mem_finRange ⟨0, hn⟩)
  have hloop := departLoop (fun acc : SIQSwitch n m × ℕ => acc.1.queueLenMat)
    (fun ps acc => acc.1.departures.Recorded acc.2 ps)
    (fun ps acc => acc.1.departures.Recorded acc.2 ps) (fun _ _ hacc => hacc)
    (fun ps acc src hacc => SIQSwitch.writeInput_departs inMatch src hacc)
    (List.nodup_finRange n) hne [] (sw, 0) (SdBuffer.recorded_nil sw.departures)
  have hpost : Post (sw.writeOutputs inMatch) (fun _ => False)
      (fun sw' => sw'.departures.pairs = departed inMatch sw.queueLenMat) :=
    hloop.bind (fun acc hacc => hacc.mark.2)
  exact hpost.of_ok h

/-! ### The generic switch -/

namespace GIQSwitch

/-- Serving an input takes at most the head of a queue. -/
theorem sorted_of_written {inMatch : Fin n → Option (Fin m)} {l : List (Fin n)}
    {sw sw' : GIQSwitch n m} (h : Written inMatch l sw sw') (hsorted : sw.Sorted) :
    sw'.Sorted := by
  intro s d pkt hpkt
  by_cases hserved : s ∈ l ∧ inMatch s = some d
  · rw [h.served s hserved.1 d hserved.2] at hpkt
    exact hsorted s d pkt (List.mem_of_mem_tail hpkt)
  · rw [h.kept s d hserved] at hpkt
    exact hsorted s d pkt hpkt

theorem writeInputEnabled_departs (inMatch : Fin n → Option (Fin m))
    {ps : List (Fin n × Fin m)} {acc : GIQSwitch n m × ℕ} (src : Fin n) (hsorted : acc.1.Sorted)
    (h : acc.1.departures.Recorded acc.2 ps) :
    Post (writeInputEnabled inMatch acc src) (fun _ => False) (fun acc' =>
      acc'.1.departures.Recorded acc'.2 (ps ++ (departs inMatch acc.1.queueLen src).toList) ∧
        acc'.1.departures.pairs = ps ++ (departs inMatch acc.1.queueLen src).toList) := by
  unfold writeInputEnabled
  cases hm : inMatch src with
  | none =>
    rw [departs_of_none hm, Option.toList_none, List.append_nil]
    exact h.mark
  | some dst =>
    dsimp only
    cases hq : acc.1.virtualOutputQueue src dst with
    | nil =>
      rw [departs_of_empty hm (by rw [queueLen, hq, List.length_nil]), Option.toList_none,
        List.append_nil]
      exact h.mark
    | cons pkt rest =>
      have hlen : acc.1.queueLen src dst ≠ 0 := by
        rw [queueLen, hq, List.length_cons]
        exact Nat.succ_ne_zero _
      -- The packet carries the ports of its queue.
      obtain ⟨hsource, hdestination⟩ := hsorted src dst pkt (by rw [hq]; exact List.mem_cons_self)
      rw [departs_of_some hm hlen, Option.toList_some, ← hsource, ← hdestination]
      exact (h.record (pkt.source, pkt.destination)).mark

/-- One input, with what the loop needs for the next. -/
theorem writeInputEnabled_step (inMatch : Fin n → Option (Fin m)) {ps : List (Fin n × Fin m)}
    {acc : GIQSwitch n m × ℕ} (src : Fin n)
    (h : acc.1.Sorted ∧ acc.1.departures.Recorded acc.2 ps) :
    Post (writeInputEnabled inMatch acc src) (fun _ => False) (fun acc' =>
      (acc'.1.Sorted ∧
        acc'.1.departures.Recorded acc'.2 (ps ++ (departs inMatch acc.1.queueLen src).toList) ∧
        acc'.1.departures.pairs = ps ++ (departs inMatch acc.1.queueLen src).toList) ∧
      ∀ s, s ≠ src → acc'.1.queueLen s = acc.1.queueLen s) := by
  obtain ⟨acc', hrun, hdeparts⟩ :=
    (writeInputEnabled_departs inMatch src h.1 h.2).exists_ok (fun _ _ => not_false)
  have hwritten := (writeInputEnabled_written inMatch acc src).of_ok hrun
  rw [hrun, Post_ok]
  refine ⟨⟨sorted_of_written hwritten h.1, hdeparts⟩, fun s hs => funext (fun d => ?_)⟩
  exact congrArg List.length (hwritten.kept s d (fun hc => hs (List.mem_singleton.mp hc.1)))

/-- What the generic switch reports, if it does. -/
theorem departures_eq {sw sw' : GIQSwitch n m} {inMatch : Fin n → Option (Fin m)}
    (hinfo : sw.enableDepartureInfo = true) (hsorted : sw.Sorted)
    (h : sw.writeOutputs inMatch = .ok sw') :
    sw'.departures.pairs = departed inMatch sw.queueLen := by
  rcases Nat.eq_zero_or_pos n with rfl | hn
  · exact Subsingleton.elim _ _
  have hne : List.finRange n ≠ [] := List.ne_nil_of_mem (List.mem_finRange ⟨0, hn⟩)
  have hloop := departLoop (fun acc : GIQSwitch n m × ℕ => acc.1.queueLen)
    (fun ps acc => acc.1.Sorted ∧ acc.1.departures.Recorded acc.2 ps)
    (fun ps acc => acc.1.Sorted ∧ acc.1.departures.Recorded acc.2 ps ∧ acc.1.departures.pairs = ps)
    (fun _ _ hacc => ⟨hacc.1, hacc.2.1⟩)
    (fun ps acc src hacc => writeInputEnabled_step inMatch src hacc)
    (List.nodup_finRange n) hne [] (sw, 0) ⟨hsorted, SdBuffer.recorded_nil sw.departures⟩
  have hpost : Post (sw.writeOutputs inMatch) (fun _ => False)
      (fun sw' => sw'.departures.pairs = departed inMatch sw.queueLen) := by
    unfold writeOutputs
    rw [if_pos hinfo]
    exact hloop.bind (fun acc hacc => hacc.2.2)
  exact hpost.of_ok h

/-- Arrivals are put into the queues of their ports. -/
theorem sorted_readInputs {sw : GIQSwitch n m} (h : sw.Sorted)
    (channels : Fin n → List (Packet n m)) : (sw.readInputs channels).Sorted := by
  intro s d pkt hpkt
  rw [readInputs_queue, List.mem_append] at hpkt
  rcases hpkt with hold | hnew
  · exact h s d pkt hold
  · obtain ⟨p, hp, rfl⟩ := List.mem_map.mp hnew
    exact of_decide_eq_true (List.mem_filter.mp hp).2

end GIQSwitch

/-! ### Counting -/

theorem length_filterMap {α β : Type*} (f : α → Option β) (l : List α) :
    (l.filterMap f).length = (l.map (fun a => (f a).toList.length)).sum := by
  induction l with
  | nil => rfl
  | cons a rest ih =>
    rw [List.map_cons, List.sum_cons, ← ih, List.filterMap_cons]
    cases f a with
    | none => exact (Nat.zero_add _).symm
    | some b => exact Nat.add_comm _ 1

/-- One departure for each matched pair whose queue is not empty. -/
theorem length_departed (inMatch : Fin n → Option (Fin m)) (len : Fin n → Fin m → ℕ) :
    (departed inMatch len).length
      = ∑ s, ∑ d, if inMatch s = some d ∧ len s d ≠ 0 then 1 else 0 := by
  rw [departed, length_filterMap, ← Fin.sum_univ_def]
  refine Finset.sum_congr rfl (fun s _ => ?_)
  cases hm : inMatch s with
  | none => simp [departs_of_none hm]
  | some dst =>
    rw [Finset.sum_eq_single_of_mem dst (Finset.mem_univ dst) (fun d _ hd => ?_)]
    · by_cases hlen : len s dst = 0
      · simp [departs_of_empty hm hlen, hlen]
      · simp [departs_of_some hm hlen, hlen]
    · rw [if_neg]
      exact fun hc => hd (Option.some.inj hc.1).symm

/-- The queues of the switch are shorter by as much as departs. -/
theorem sum_queueLength_add_departed {len len' : Fin n → Fin m → ℕ}
    {inMatch : Fin n → Option (Fin m)}
    (h : ∀ s d, len' s d = len s d - if inMatch s = some d then 1 else 0) :
    ∑ s, ∑ d, len' s d + (departed inMatch len).length = ∑ s, ∑ d, len s d := by
  rw [length_departed, ← Finset.sum_add_distrib]
  refine Finset.sum_congr rfl (fun s _ => ?_)
  rw [← Finset.sum_add_distrib]
  refine Finset.sum_congr rfl (fun d _ => ?_)
  rw [h]
  by_cases hm : inMatch s = some d
  · by_cases hlen : len s d = 0
    · simp [hm, hlen]
    · rw [if_pos hm, if_pos ⟨hm, hlen⟩]
      omega
  · rw [if_neg hm, if_neg (fun hc => hm hc.1)]
    rfl

/-- The generic switch sends as much as departs. -/
theorem GIQSwitch.sum_sendsOn (sw : GIQSwitch n m) (inMatch : Fin n → Option (Fin m)) :
    ∑ d, (sw.sendsOn inMatch d).length = (departed inMatch sw.queueLen).length := by
  rw [length_departed, Finset.sum_comm]
  refine Finset.sum_congr rfl (fun d _ => ?_)
  rw [GIQSwitch.sendsOn, length_filterMap, ← Fin.sum_univ_def]
  refine Finset.sum_congr rfl (fun s _ => ?_)
  unfold headFor queueLen
  by_cases hm : inMatch s = some d
  · rw [if_pos hm]
    cases hq : sw.virtualOutputQueue s d with
    | nil => simp
    | cons pkt rest => simp [hm]
  · rw [if_neg hm, if_neg (fun hc => hm hc.1)]
    rfl

end SschedSimulator
