import SschedSimulator.Foundation.RoundRobin
import SschedSimulator.Scheduler.SlidingWindow.RoundRobin

namespace SschedSimulator

open Foundation

/-!
# `sliding_window_rr.cpp` — who comes first

The source wants the input just before the one accepted last to have the highest priority.  The key
of its sort is the distance from the input ranked first last time, which is `0` for this input
itself: whenever it competes again it is first again.

* `ranking` — the order in which an output serves the proposals that it keeps in a call;
* `schedule_previous` — a call remembers the first of each ranking;
* `rotates_iff` — between two rankings of an output in any run, the first of the one is the last of
  the next exactly when it does not compete.
-/

namespace SlidingWindowRr

variable {n m : ℕ} {cfg : Config}

/-- The proposals that `out` keeps in a call, in the order in which they come. -/
def kept (cfg : Config) (shuffle : Shuffle n) (sw : IQSwitch n m) (st : State n m) (out : Fin m) :
    List (Fin n) :=
  match propose cfg shuffle (handlePacketArrivals sw st).inputQueues with
  | .ok proposed => proposed.outAccepts out
  | .error _ => []

/-- The proposals that `out` keeps in a call, in the order in which it serves them. -/
def ranking (cfg : Config) (shuffle : Shuffle n) (sw : IQSwitch n m) (st : State n m)
    (out : Fin m) : List (Fin n) :=
  if h : (out : ℕ) < n then
    sortProposals (st.previousLargestInput ⟨out, h⟩) (kept cfg shuffle sw st out)
  else []

/-! ### The list that an output serves -/

section

variable {timeSlot : ℕ} {outAccepts : Fin m → List (Fin n)}

/-- An output changes its own element of `previousLargestInput` only. -/
theorem acceptOutput_previous_of_ne {acc acc' : RoundRobinAccepting n m} {out : Fin m} {i : Fin n}
    (h : acceptOutput cfg timeSlot outAccepts acc out = .ok acc') (hi : (i : ℕ) ≠ out) :
    acc'.previousLargestInput i = acc.previousLargestInput i := by
  unfold acceptOutput at h
  split at h
  · rw [← Except.ok.inj h]
  · split at h
    · obtain ⟨mid, -, hend⟩ := bind_eq_ok.mp h
      rw [← Except.ok.inj hend]
      exact Function.update_of_ne (fun heq => hi (congrArg Fin.val heq)) _ _
    · cases h

/-- An output that ranks proposals remembers the first of them. -/
theorem acceptOutput_previous {acc acc' : RoundRobinAccepting n m} {out : Fin m}
    (hout : (out : ℕ) < n) (h : acceptOutput cfg timeSlot outAccepts acc out = .ok acc') :
    acc'.previousLargestInput ⟨out, hout⟩
      = ((sortProposals (acc.previousLargestInput ⟨out, hout⟩) (outAccepts out)).map Fin.val).headD
          (acc.previousLargestInput ⟨out, hout⟩) := by
  unfold acceptOutput at h
  split at h
  · rename_i hnil
    rw [← Except.ok.inj h, hnil]
    rfl
  · rename_i hne
    obtain ⟨mid, -, hend⟩ := bind_eq_ok.mp h
    rw [← Except.ok.inj hend]
    dsimp only
    rw [Function.update_self]
    cases hsort : sortProposals (acc.previousLargestInput ⟨out, hout⟩) (outAccepts out) with
    | nil =>
      have hperm := perm_sortProposals (acc.previousLargestInput ⟨out, hout⟩) (outAccepts out)
      rw [hsort] at hperm
      exact absurd hperm.symm.eq_nil hne
    | cons i rest => rfl

/-- Other outputs leave the element of `out` as it is. -/
theorem acceptOutputs_previous_of_notMem {outs : List (Fin m)} {out : Fin m} (hmem : out ∉ outs)
    (hout : (out : ℕ) < n) {acc acc' : RoundRobinAccepting n m}
    (h : outs.foldlM (acceptOutput cfg timeSlot outAccepts) acc = .ok acc') :
    acc'.previousLargestInput ⟨out, hout⟩ = acc.previousLargestInput ⟨out, hout⟩ := by
  induction outs generalizing acc with
  | nil => rw [← Except.ok.inj h]
  | cons o rest ih =>
    rw [List.mem_cons, not_or] at hmem
    rw [List.foldlM_cons] at h
    obtain ⟨mid, hstep, hrest⟩ := bind_eq_ok.mp h
    rw [ih hmem.2 hrest]
    exact acceptOutput_previous_of_ne hstep (fun heq => hmem.1 (Fin.ext heq))

/-- When its turn comes, `out` finds the element that the call began with, and what it leaves there
    stays. -/
theorem accept_previous {st : State n m} {acc : RoundRobinAccepting n m} {out : Fin m}
    (hout : (out : ℕ) < n) (h : accept cfg timeSlot outAccepts st = .ok acc) :
    acc.previousLargestInput ⟨out, hout⟩
      = ((sortProposals (st.previousLargestInput ⟨out, hout⟩) (outAccepts out)).map Fin.val).headD
          (st.previousLargestInput ⟨out, hout⟩) := by
  obtain ⟨before, after, hsplit⟩ := List.append_of_mem (List.mem_finRange out)
  have hnodup := List.nodup_finRange m
  rw [hsplit, List.nodup_middle, List.nodup_cons, List.mem_append, not_or] at hnodup
  rw [accept, hsplit, List.foldlM_append] at h
  obtain ⟨mid, hbefore, h⟩ := bind_eq_ok.mp h
  rw [List.foldlM_cons] at h
  obtain ⟨mid', hturn, hafter⟩ := bind_eq_ok.mp h
  rw [acceptOutputs_previous_of_notMem hnodup.1.2 hout hafter, acceptOutput_previous hout hturn,
    acceptOutputs_previous_of_notMem hnodup.1.1 hout hbefore]

end

/-- A dispatch touches neither the samplers nor what the outputs remember. -/
theorem dispatchIf_keeps {now : Bool} {timeSlot : ℕ} {st st' : State n m}
    (h : dispatchIf now timeSlot st = .ok st') :
    st'.inputQueues = st.inputQueues ∧ st'.previousLargestInput = st.previousLargestInput := by
  unfold dispatchIf at h
  split at h
  · obtain ⟨b, -, hend⟩ := bind_eq_ok.mp h
    rw [← Except.ok.inj hend]
    exact ⟨rfl, rfl⟩
  · rw [← Except.ok.inj h]
    exact ⟨rfl, rfl⟩

/-- A call remembers the first of the ranking of an output, and otherwise what was there. -/
theorem schedule_previous {shuffle : Shuffle n} {sw : IQSwitch n m} {st st' : State n m}
    (h : schedule cfg shuffle sw st = .ok st') {out : Fin m} (hout : (out : ℕ) < n) :
    st'.previousLargestInput ⟨out, hout⟩
      = ((ranking cfg shuffle sw st out).map Fin.val).headD
          (st.previousLargestInput ⟨out, hout⟩) := by
  obtain ⟨st₀, hdisp₀, h⟩ := bind_eq_ok.mp h
  obtain ⟨st₁, hqps, h⟩ := bind_eq_ok.mp h
  obtain ⟨st₂, hdisp₂, hend⟩ := bind_eq_ok.mp h
  obtain ⟨hqueues, hprev⟩ := dispatchIf_keeps hdisp₀
  obtain ⟨proposed, hpropose, hqps⟩ := bind_eq_ok.mp hqps
  obtain ⟨acc, haccept, hqps⟩ := bind_eq_ok.mp hqps
  obtain ⟨queues, -, hqps⟩ := bind_eq_ok.mp hqps
  have hkept : kept cfg shuffle sw st out = proposed.outAccepts out := by
    have hsame : propose cfg shuffle (handlePacketArrivals sw st).inputQueues = .ok proposed := by
      rw [← hpropose]
      simp only [handlePacketArrivals, hqueues]
    rw [kept, hsame]
  rw [← Except.ok.inj hend]
  show st₂.previousLargestInput _ = _
  rw [(dispatchIf_keeps hdisp₂).2, ← Except.ok.inj hqps]
  show acc.previousLargestInput _ = _
  rw [accept_previous hout haccept, ranking, dif_pos hout, hkept]
  simp only [handlePacketArrivals, hprev]

/-! ### The order -/

theorem rank_eq_distance (previous : ℕ) (i : Fin n) :
    rank n previous i = RoundRobin.distance n previous i := by
  rw [rank, RoundRobin.distance, Nat.add_comm]

/-- The input remembered ranks before every other. -/
theorem rank_self (i : Fin n) : rank n i i = 0 := by
  rw [rank, Nat.sub_add_cancel i.isLt.le, Nat.mod_self]

/-- The input remembered is first again whenever its proposal is kept. -/
theorem head_sortProposals {ins : List (Fin n)} {i : Fin n} (hi : i ∈ ins) :
    ∃ rest, sortProposals i ins = i :: rest := by
  have hmem : i ∈ sortProposals i ins := (perm_sortProposals _ ins).mem_iff.mpr hi
  have htotal : Std.Total (fun in1 in2 : Fin n => rank n i in1 ≤ rank n i in2) :=
    ⟨fun a b => le_total _ _⟩
  have htrans : IsTrans (Fin n) (fun in1 in2 : Fin n => rank n i in1 ≤ rank n i in2) :=
    ⟨fun _ _ _ hab hbc => le_trans hab hbc⟩
  have hsorted : (sortProposals i ins).Pairwise
      (fun in1 in2 => rank n i in1 ≤ rank n i in2) := List.pairwise_insertionSort _ ins
  cases hcase : sortProposals i ins with
  | nil =>
    rw [hcase] at hmem
    exact absurd hmem List.not_mem_nil
  | cons first rest =>
    rw [hcase] at hmem hsorted
    rcases List.mem_cons.mp hmem with rfl | hmem
    · exact ⟨rest, rfl⟩
    · -- Another input in front of it would be at distance zero as well.
      have hle := (List.pairwise_cons.mp hsorted).1 i hmem
      have hsame : rank n i first = rank n i i := by
        rw [rank_self] at hle ⊢
        omega
      rw [rank_eq_distance, rank_eq_distance] at hsame
      rw [RoundRobin.distance_injective i.isLt hsame]
      exact ⟨rest, rfl⟩

/-- Step 1 in the middle: no output keeps an input twice, or one that is still to propose. -/
structure KeepsOnce (rest : List (Fin n)) (acc : Proposing n m) : Prop where
  order : rest.Nodup
  nodup : ∀ o, (acc.outAccepts o).Nodup
  fresh : ∀ o, ∀ i ∈ acc.outAccepts o, i ∉ rest

theorem KeepsOnce.step {i : Fin n} {rest : List (Fin n)} {acc : Proposing n m}
    (h : KeepsOnce (i :: rest) acc) :
    Post (proposeInput cfg acc i) (fun _ => True) (KeepsOnce rest) := by
  obtain ⟨hi, hrest⟩ := List.nodup_cons.mp h.order
  have hfresh : ∀ o, ∀ j ∈ acc.outAccepts o, j ≠ i ∧ j ∉ rest := by
    intro o j hj
    have hnot := h.fresh o j hj
    rwa [List.mem_cons, not_or] at hnot
  unfold proposeInput
  split
  · exact ⟨hrest, h.nodup, fun o j hj => (hfresh o j hj).2⟩
  · split
    · trivial
    · rename_i out q _
      refine Post.require_bind (fun _ => trivial) (fun _ => ?_)
      refine ⟨hrest, ?_, fun o j hj => ?_⟩
      · exact nodup_update_keep cfg out h.nodup (fun o j hj => (hfresh o j hj).1)
      · rcases mem_update_keep hj with hold | ⟨rfl, -⟩
        · exact (hfresh o j hold).2
        · exact hi

/-- An output keeps at most one proposal of each input. -/
theorem nodup_kept (cfg : Config) (shuffle : Shuffle n) (sw : IQSwitch n m) (st : State n m)
    (out : Fin m) : (kept cfg shuffle sw st out).Nodup := by
  have hstart : KeepsOnce shuffle.val
      { inputQueues := (handlePacketArrivals sw st).inputQueues
        outAccepts := fun _ : Fin m => [] } :=
    ⟨shuffle.nodup, fun _ => List.nodup_nil, fun _ _ hi => absurd hi List.not_mem_nil⟩
  have hloop := Post.foldlM_rest (f := proposeInput cfg) (E := fun _ => True) KeepsOnce shuffle.val
    _ hstart (fun _ _ _ hacc => hacc.step)
  unfold kept
  cases hpropose : propose cfg shuffle (handlePacketArrivals sw st).inputQueues with
  | ok proposed => exact (hloop.of_ok hpropose).nodup out
  | error e => exact List.nodup_nil

/-! ### From one ranking to the next -/

/-- Calls in which `out` keeps no proposal to rank, and resets. -/
inductive Unranked (cfg : Config) (out : Fin m) : State n m → State n m → Prop where
  | refl (st : State n m) : Unranked cfg out st st
  | reset {st st' : State n m} : Unranked cfg out st st' → Unranked cfg out st (reset cfg st')
  | schedule {st st' st'' : State n m} (shuffle : Shuffle n) (sw : IQSwitch n m) :
      Unranked cfg out st st' → ranking cfg shuffle sw st' out = [] →
      schedule cfg shuffle sw st' = .ok st'' → Unranked cfg out st st''

/-- What an output remembers outlasts calls without proposals, and a reset. -/
theorem Unranked.previous {out : Fin m} {st st' : State n m} (h : Unranked cfg out st st')
    (hout : (out : ℕ) < n) :
    st'.previousLargestInput ⟨out, hout⟩ = st.previousLargestInput ⟨out, hout⟩ := by
  induction h with
  | refl => rfl
  | reset _ ih => exact ih
  | schedule shuffle sw _ hnone hrun ih =>
    rw [schedule_previous hrun hout, hnone]
    exact ih

/-- Input `i` was first the last time: now every other input comes before it, and it is not first
    again while another one competes. -/
def Rotates (i : Fin n) (order : List (Fin n)) : Prop :=
  (i ∈ order → order.getLast? = some i) ∧ ¬ (order.head? = some i ∧ ∃ j ∈ order, j ≠ i)

/-- An input that comes first once and competes again is first again. -/
theorem rotates_sortProposals_iff {ins : List (Fin n)} (hins : ins.Nodup) (i : Fin n) :
    Rotates i (sortProposals i ins) ↔ ¬ (i ∈ ins ∧ ∃ j ∈ ins, j ≠ i) := by
  have hmem : ∀ j, j ∈ sortProposals i ins ↔ j ∈ ins :=
    fun j => (perm_sortProposals _ ins).mem_iff
  constructor
  · rintro ⟨-, hnot⟩ ⟨hi, j, hj, hne⟩
    obtain ⟨rest, hsort⟩ := head_sortProposals hi
    exact hnot ⟨by rw [hsort]; rfl, j, (hmem j).mpr hj, hne⟩
  · intro hnot
    refine ⟨fun hi => ?_, fun ⟨hhead, j, hj, hne⟩ => ?_⟩
    · -- The input competes alone.
      obtain ⟨rest, hsort⟩ := head_sortProposals ((hmem i).mp hi)
      have hnodup := (perm_sortProposals i ins).nodup_iff.mpr hins
      rw [hsort, List.nodup_cons] at hnodup
      have hrest : rest = [] := by
        refine List.eq_nil_iff_forall_not_mem.mpr (fun j hj => ?_)
        refine hnot ⟨(hmem i).mp hi, j, (hmem j).mp ?_, fun heq => hnodup.1 (heq ▸ hj)⟩
        rw [hsort]
        exact List.mem_cons_of_mem i hj
      rw [hsort, hrest]
      rfl
    · exact hnot ⟨(hmem i).mp (List.mem_of_mem_head? hhead), j, (hmem j).mp hj, hne⟩

/-- Whenever an output ranks input `i` first in a call, and then makes no ranking in any number of
    calls and resets, its next ranking puts `i` behind every other input exactly when it does not
    keep a proposal of `i` beside another one. -/
theorem rotates_iff {shuffle : Shuffle n} {sw : IQSwitch n m} {st st₁ st₂ : State n m} {out : Fin m}
    {i : Fin n} (hcall : schedule cfg shuffle sw st = .ok st₁)
    (hfirst : (ranking cfg shuffle sw st out).head? = some i)
    (hbetween : Unranked cfg out st₁ st₂) (shuffle' : Shuffle n) (sw' : IQSwitch n m) :
    Rotates i (ranking cfg shuffle' sw' st₂ out) ↔
      ¬ (i ∈ kept cfg shuffle' sw' st₂ out ∧ ∃ j ∈ kept cfg shuffle' sw' st₂ out, j ≠ i) := by
  by_cases hout : (out : ℕ) < n
  · have hprevious : st₂.previousLargestInput ⟨out, hout⟩ = i := by
      rw [hbetween.previous hout, schedule_previous hcall hout]
      cases hrank : ranking cfg shuffle sw st out with
      | nil =>
        rw [hrank] at hfirst
        cases hfirst
      | cons first rest =>
        rw [hrank] at hfirst
        rw [← Option.some.inj hfirst]
        rfl
    rw [ranking, dif_pos hout, hprevious]
    exact rotates_sortProposals_iff (nodup_kept cfg shuffle' sw' st₂ out) i
  · rw [ranking, dif_neg hout] at hfirst
    cases hfirst

/-- Input `0` is first and gets a frame; in the next slot input `1` competes alone and is first. -/
theorem rotates_after_slot :
    ∃ st : State 2 2, schedule ⟨2, 3, false, false⟩ (Shuffle.inOrder 2)
        (.simplified ⟨fun _ _ => 1, [some (0, 0)], []⟩) (State.initial ⟨2, 3, false, false⟩)
        = .ok st ∧
      Rotates 0 (ranking ⟨2, 3, false, false⟩ (Shuffle.inOrder 2)
        (.simplified ⟨fun _ _ => 1, [some (1, 0)], []⟩) st 0) := by
  obtain ⟨st, hrun, hst⟩ := exists_of_returns
    (x := schedule ⟨2, 3, false, false⟩ (Shuffle.inOrder 2)
      (.simplified ⟨fun _ _ => 1, [some (0, 0)], []⟩)
      (State.initial ⟨2, 3, false, false⟩ : State 2 2))
    (p := fun st => decide (0 ∉ kept ⟨2, 3, false, false⟩ (Shuffle.inOrder 2)
      (.simplified ⟨fun _ _ => 1, [some (1, 0)], []⟩) st 0)) (by decide)
  refine ⟨st, hrun, (rotates_iff hrun ?_ (.refl st) _ _).mpr ?_⟩
  · decide
  · exact fun h => of_decide_eq_true hst h.1

/-- A packet for output `0` arrives at both inputs in each of two slots: input `0` is first twice.
    -/
theorem not_rotates_twice :
    ∃ st : State 2 2, schedule ⟨2, 3, false, false⟩ (Shuffle.inOrder 2)
        (.simplified ⟨fun _ _ => 1, [some (0, 0), some (1, 0)], []⟩)
        (State.initial ⟨2, 3, false, false⟩) = .ok st ∧
      (ranking ⟨2, 3, false, false⟩ (Shuffle.inOrder 2)
        (.simplified ⟨fun _ _ => 1, [some (0, 0), some (1, 0)], []⟩)
        (State.initial ⟨2, 3, false, false⟩ : State 2 2) 0).head? = some 0 ∧
      ranking ⟨2, 3, false, false⟩ (Shuffle.inOrder 2)
        (.simplified ⟨fun _ _ => 1, [some (0, 0), some (1, 0)], []⟩) st 0 = [0, 1] ∧
      ¬ Rotates 0 (ranking ⟨2, 3, false, false⟩ (Shuffle.inOrder 2)
        (.simplified ⟨fun _ _ => 1, [some (0, 0), some (1, 0)], []⟩) st 0) := by
  obtain ⟨st, hrun, hst⟩ := exists_of_returns
    (x := schedule ⟨2, 3, false, false⟩ (Shuffle.inOrder 2)
      (.simplified ⟨fun _ _ => 1, [some (0, 0), some (1, 0)], []⟩)
      (State.initial ⟨2, 3, false, false⟩ : State 2 2))
    (p := fun st => decide (ranking ⟨2, 3, false, false⟩ (Shuffle.inOrder 2)
      (.simplified ⟨fun _ _ => 1, [some (0, 0), some (1, 0)], []⟩) st 0 = [0, 1])) (by decide)
  have horder := of_decide_eq_true hst
  refine ⟨st, hrun, by decide, horder, ?_⟩
  rw [horder]
  exact fun h => absurd (h.1 (by decide)) (by decide)

end SlidingWindowRr

end SschedSimulator
