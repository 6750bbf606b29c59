import SschedSimulator.Scheduler.EdgeColoring

namespace SschedSimulator

open Foundation

/-!
# `edge_coloring_batch_scheduler.cc` — the packets of a run

The rows coloured at the end of a frame are dispatched during the next one.  A packet is scheduled
once if it is coloured in the frame in which it arrives and in no other, and if no other edge is
written to its cell.

* `calls` — a run of the scheduler, and `multigraphAdj_of_calls`: the multigraph holds every packet
  since its start, because the end of a frame does not clear it;
* `calls_ok` — what the clocks and the rows to be dispatched are at a slot of a frame;
* `frameScheduled_iff` — when one frame is scheduled as it should be, and `scheduledOnce_iff`, when
  all frames of a run are.
-/

namespace EdgeColoring

variable {n : ℕ}

/-- The state after `T` calls of `schedule()`; `slots t` are the random choices of call `t` and the
    switch it is given. -/
def calls (slots : ℕ → Draws × IQSwitch n n) (st : State n) : ℕ → Except Fault (State n) :=
  steps (fun t => schedule (slots t).1 (slots t).2) st

/-- The number of slots in a frame; with frame size `0` every call ends one. -/
def frameLength (B : ℕ) : ℕ := max B 1

/-- The last slot of frame `k`. -/
def lastSlot (B k : ℕ) : ℕ := k * frameLength B + (frameLength B - 1)

/-- The packets that arrive in `len` slots from slot `T` on. -/
def arrivalsIn (slots : ℕ → Draws × IQSwitch n n) (T len : ℕ) : List (Fin n × Fin n) :=
  (List.range len).flatMap (fun t => (slots (T + t)).2.getArrivals)

/-- The packets that arrive in frame `k`. -/
def frameArrivals (slots : ℕ → Draws × IQSwitch n n) (B k : ℕ) : List (Fin n × Fin n) :=
  arrivalsIn slots (k * frameLength B) (frameLength B)

/-- Frame `k` returns; the edges it colours are the packets that arrived in it; and the rows
    dispatched in frame `k + 1` hold each of them once. -/
def FrameScheduled (B : ℕ) (slots : ℕ → Draws × IQSwitch n n) (start : State n) (k : ℕ) : Prop :=
  ∃ before col st,
    calls slots start (lastSlot B k) = .ok before ∧
    colorFrame (slots (lastSlot B k)).1 (handleArrivals (slots (lastSlot B k)).2 before)
      = .ok col ∧
    calls slots start ((k + 1) * frameLength B) = .ok st ∧
    (∀ e, (col.assigned.map Prod.fst).count e = (frameArrivals slots B k).count e) ∧
    (∀ f < B, ∀ st', calls slots start ((k + 1) * frameLength B + f + 1) = .ok st' →
      st'.inMatch = st.schedulesPre.row f) ∧
    ∀ e : Fin n × Fin n, (List.range B).countP (fun f => st.schedulesPre.row f e.1 = some e.2)
      = (frameArrivals slots B k).count e

/-- No packet arrives before frame `k`, no edge of the frame runs out of colours, and none draws the
    number of an earlier edge of its input. -/
def FrameCondition (B : ℕ) (slots : ℕ → Draws × IQSwitch n n) (k : ℕ) : Prop :=
  (∀ t < k * frameLength B, (slots t).2.getArrivals = []) ∧
    KeptApart ShareInput B (slots (lastSlot B k)).1 []
      (shuffledEdges (slots (lastSlot B k)).1 (addEdges (fun _ => []) (frameArrivals slots B k)))

instance (B : ℕ) (slots : ℕ → Draws × IQSwitch n n) (k : ℕ) :
    Decidable (FrameCondition B slots k) :=
  inferInstanceAs (Decidable (_ ∧ _))

/-! ### The multigraph -/

theorem addEdges_append (adj : Fin n → List (Fin n)) (a b : List (Fin n × Fin n)) :
    addEdges adj (a ++ b) = addEdges (addEdges adj a) b := by
  simp [addEdges, List.foldl_append]

/-- Every arrival is one more edge. -/
theorem count_addEdges (adj : Fin n → List (Fin n)) (arrivals : List (Fin n × Fin n))
    (i j : Fin n) :
    (addEdges adj arrivals i).count j = (adj i).count j + arrivals.count (i, j) := by
  induction arrivals generalizing adj with
  | nil => simp [addEdges]
  | cons p rest ih =>
    obtain ⟨i', j'⟩ := p
    show (addEdges (Function.update adj i' (adj i' ++ [j'])) rest i).count j = _
    rw [ih, List.count_cons]
    by_cases hi : i = i'
    · subst hi
      rw [Function.update_self, List.count_append, List.count_singleton, Nat.add_right_comm,
        Nat.add_assoc]
      simp
    · rw [Function.update_of_ne hi]
      simp [Ne.symm hi]

theorem arrivalsIn_succ (slots : ℕ → Draws × IQSwitch n n) (T len : ℕ) :
    arrivalsIn slots T (len + 1) = arrivalsIn slots T len ++ (slots (T + len)).2.getArrivals := by
  simp [arrivalsIn, List.range_succ]

theorem arrivalsIn_add (slots : ℕ → Draws × IQSwitch n n) (T len : ℕ) :
    arrivalsIn slots 0 (T + len) = arrivalsIn slots 0 T ++ arrivalsIn slots T len := by
  induction len with
  | zero => simp [arrivalsIn]
  | succ len ih =>
    rw [← Nat.add_assoc, arrivalsIn_succ, ih, arrivalsIn_succ, List.append_assoc, Nat.zero_add]

/-! ### A run -/

section

variable {B : ℕ} {slots : ℕ → Draws × IQSwitch n n} {start : State n}

/-- A run starts after the constructor or a reset. -/
structure Start (B : ℕ) (start : State n) : Prop where
  between : Between B start
  cfRelTime : start.cfRelTime = 0
  multigraphAdj : start.multigraphAdj = fun _ => []

theorem start_of_reachable
    (h : start = .initial B ∨ ∃ st, Reachable B st ∧ start = reset B st) : Start B start := by
  rcases h with rfl | ⟨st, hst, rfl⟩
  · exact ⟨between_initial B, rfl, rfl⟩
  · exact ⟨(between_of_reachable hst).reset, rfl, rfl⟩

/-- What holds after `T` calls: the frame clock has advanced modulo the frame length, and every
    packet since the start is still in the multigraph. -/
theorem calls_ok (hstart : Start B start) {T : ℕ} {st : State n}
    (hrun : calls slots start T = .ok st) :
    Between B st ∧ st.cfRelTime = T % frameLength B ∧
      st.multigraphAdj = addEdges (fun _ => []) (arrivalsIn slots 0 T) := by
  induction T generalizing st with
  | zero =>
    cases hrun
    refine ⟨hstart.between, ?_, hstart.multigraphAdj⟩
    rw [Nat.zero_mod, hstart.cfRelTime]
  | succ T ih =>
    obtain ⟨mid, hmid, hcall⟩ := steps_succ_eq_ok.mp hrun
    obtain ⟨hbetween, htime, hadj⟩ := ih hmid
    have hedges : addEdges (fun _ => []) (arrivalsIn slots 0 (T + 1))
        = (entered (slots T).2 mid).multigraphAdj := by
      rw [entered_multigraphAdj, hadj, arrivalsIn_succ, addEdges_append, Nat.zero_add]
    refine ⟨hbetween.schedule hcall, ?_, ?_⟩
    · rw [← Nat.mod_add_mod, ← htime]
      rcases hbetween.schedule_ok hcall with ⟨hin, rfl⟩ | ⟨hend, col, -, -, rfl⟩
      · have hslot : mid.cfRelTime + 1 < frameLength B := lt_max_of_lt_left hin
        rw [entered_cfRelTime, Nat.mod_eq_of_lt hslot]
      · -- The last slot of a frame.
        have hlast : mid.cfRelTime + 1 = frameLength B := by
          have htime' := hbetween.time
          unfold frameLength
          omega
        rw [hlast, Nat.mod_self]
        rfl
    · rw [hedges]
      rcases hbetween.schedule_ok hcall with ⟨-, rfl⟩ | ⟨-, col, -, -, rfl⟩ <;> rfl

/-- The frame time at slot `t` of a frame that starts at `T`. -/
theorem cfRelTime_of_calls (hstart : Start B start) {T : ℕ} (hT : T % frameLength B = 0) {t : ℕ}
    (ht : t < B) {st : State n} (hrun : calls slots start (T + t) = .ok st) : st.cfRelTime = t := by
  have hlt : t < frameLength B := lt_max_of_lt_left ht
  rw [(calls_ok hstart hrun).2.1, Nat.add_mod, hT, Nat.zero_add, Nat.mod_mod, Nat.mod_eq_of_lt hlt]

/-- The slots of a frame before the last one return. -/
theorem exists_calls (hstart : Start B start) {T : ℕ} {st : State n}
    (hrun : calls slots start T = .ok st) (hT : T % frameLength B = 0) {t : ℕ}
    (ht : t < frameLength B) : ∃ st', calls slots start (T + t) = .ok st' := by
  induction t with
  | zero => exact ⟨st, hrun⟩
  | succ t ih =>
    obtain ⟨mid, hmid⟩ := ih (by omega)
    have hin : t + 1 < B := by
      unfold frameLength at ht
      omega
    have hslot : mid.cfRelTime = t := cfRelTime_of_calls hstart hT (by omega) hmid
    have hcall : schedule (slots (T + t)).1 (slots (T + t)).2 mid
        = .ok (entered (slots (T + t)).2 mid) := by
      rw [(calls_ok hstart hmid).1.schedule_eq, hslot, if_pos hin]
    exact ⟨entered (slots (T + t)).2 mid, steps_succ_eq_ok.mpr ⟨mid, hmid, hcall⟩⟩

/-! ### The rows dispatched in a frame -/

/-- With a previous frame of `B > 0` slots, a slot dispatches the row of the frame time and clears
    it. -/
theorem Between.entered_dispatched {st : State n} (h : Between B st)
    (hsize : st.schedulesPre.size = B) (hB : 0 < B) (sw : IQSwitch n n) :
    (entered sw st).inMatch = st.schedulesPre.row st.cfRelTime ∧
      (entered sw st).schedulesPre.row
        = Function.update st.schedulesPre.row st.cfRelTime (fun _ => none) := by
  have hpf : st.pfRelTime = st.cfRelTime := by
    rcases h.clocks with hpf | hpf
    · omega
    · exact hpf.2
  have hne : st.schedulesPre.size ≠ 0 := by omega
  unfold entered
  rw [if_neg hne, ← hpf]
  exact ⟨rfl, rfl⟩

/-- A slot before the last one of its frame takes in the arrivals and no more. -/
theorem entered_of_call (hstart : Start B start) {T : ℕ} (hT : T % frameLength B = 0) {t : ℕ}
    (ht : t + 1 < B) {mid next : State n} (hmid : calls slots start (T + t) = .ok mid)
    (hnext : schedule (slots (T + t)).1 (slots (T + t)).2 mid = .ok next) :
    Between B mid ∧ mid.cfRelTime = t ∧ next = entered (slots (T + t)).2 mid := by
  have hbetween := (calls_ok hstart hmid).1
  have htime := cfRelTime_of_calls hstart hT (by omega) hmid
  rcases hbetween.schedule_ok hnext with ⟨-, hnext⟩ | ⟨hend, -⟩
  · exact ⟨hbetween, htime, hnext⟩
  · omega

/-- The table being dispatched keeps its length in the slots of a frame. -/
theorem schedulesPre_size_of_calls (hstart : Start B start) {T : ℕ} {st : State n}
    (hrun : calls slots start T = .ok st) (hT : T % frameLength B = 0)
    (hsize : st.schedulesPre.size = B) {t : ℕ} (ht : t < B) {st' : State n}
    (hrun' : calls slots start (T + t) = .ok st') : st'.schedulesPre.size = B := by
  rw [← hsize]
  apply steps_keep (fun st _ => st.schedulesPre.size) hrun _ ht hrun' t (le_refl t)
  intro t mid next ht hmid hnext j _
  obtain ⟨-, -, rfl⟩ := entered_of_call hstart hT ht hmid hnext
  simp

/-- The rows that are still to be dispatched are as the first slot of the frame found them. -/
theorem schedulesPre_row_of_calls (hstart : Start B start) {T : ℕ} {st : State n}
    (hrun : calls slots start T = .ok st) (hT : T % frameLength B = 0)
    (hsize : st.schedulesPre.size = B) {t : ℕ} (ht : t < B) {st' : State n}
    (hrun' : calls slots start (T + t) = .ok st') :
    ∀ f, t ≤ f → st'.schedulesPre.row f = st.schedulesPre.row f := by
  apply steps_keep (fun st => st.schedulesPre.row) hrun _ ht hrun'
  intro t mid next ht hmid hnext j hj
  obtain ⟨hbetween, rfl, rfl⟩ := entered_of_call hstart hT ht hmid hnext
  have hmidSize := schedulesPre_size_of_calls hstart hrun hT hsize (by omega) hmid
  simp only [(hbetween.entered_dispatched hmidSize (by omega) _).2, Function.update_of_ne hj]

/-- Slot `f` of a frame dispatches row `f` of the frame before. -/
theorem inMatch_of_calls (hstart : Start B start) {T : ℕ} {st : State n}
    (hrun : calls slots start T = .ok st) (hT : T % frameLength B = 0)
    (hsize : st.schedulesPre.size = B) {f : ℕ} (hf : f < B) {st' : State n}
    (hrun' : calls slots start (T + f + 1) = .ok st') : st'.inMatch = st.schedulesPre.row f := by
  obtain ⟨mid, hmid, hcall⟩ := steps_succ_eq_ok.mp hrun'
  obtain ⟨hbetween, -⟩ := calls_ok hstart hmid
  have hmidSize := schedulesPre_size_of_calls hstart hrun hT hsize hf hmid
  have hentered : (entered (slots (T + f)).2 mid).inMatch = st.schedulesPre.row f := by
    rw [(hbetween.entered_dispatched hmidSize (by omega) _).1, cfRelTime_of_calls hstart hT hf hmid]
    exact schedulesPre_row_of_calls hstart hrun hT hsize hf hmid f (le_refl f)
  rcases hbetween.schedule_ok hcall with ⟨-, rfl⟩ | ⟨-, col, -, -, rfl⟩
  · exact hentered
  · exact hentered

/-! ### One frame -/

/-- The slots of frame `k`: the last one leads to frame `k + 1`. -/
theorem lastSlot_add_one (B k : ℕ) : lastSlot B k + 1 = (k + 1) * frameLength B := by
  have hpos : 1 ≤ frameLength B := le_max_right B 1
  rw [lastSlot, Nat.add_assoc, Nat.sub_add_cancel hpos, Nat.succ_mul]

/-- The last slot of a frame, if the frame is reached. -/
theorem exists_before (hstart : Start B start) {k : ℕ} {first : State n}
    (hfirst : calls slots start (k * frameLength B) = .ok first) :
    ∃ before, calls slots start (lastSlot B k) = .ok before ∧ Between B before ∧
      B ≤ before.cfRelTime + 1 ∧
      (handleArrivals (slots (lastSlot B k)).2 before).multigraphAdj
        = addEdges (fun _ => [])
          (arrivalsIn slots 0 (k * frameLength B) ++ frameArrivals slots B k) := by
  have hpos : 1 ≤ frameLength B := le_max_right B 1
  obtain ⟨before, hbefore⟩ := exists_calls hstart hfirst (Nat.mul_mod_left k _)
    (show frameLength B - 1 < frameLength B by omega)
  obtain ⟨hbetween, htime, hadj⟩ := calls_ok hstart hbefore
  refine ⟨before, hbefore, hbetween, ?_, ?_⟩
  · have hB : B ≤ frameLength B := le_max_left B 1
    rw [htime, Nat.mul_add_mod_self_right, Nat.mod_eq_of_lt (by omega)]
    omega
  · show addEdges before.multigraphAdj _ = _
    rw [hadj, ← addEdges_append, frameArrivals, ← arrivalsIn_add]
    have hlast := arrivalsIn_succ slots 0 (lastSlot B k)
    rw [lastSlot_add_one, Nat.succ_mul, Nat.zero_add] at hlast
    rw [hlast]
    rfl

/-- No packet has arrived in the first `T` slots if and only if none is in the multigraph. -/
theorem arrivalsIn_eq_nil_iff {T : ℕ} :
    arrivalsIn slots 0 T = [] ↔ ∀ t < T, (slots t).2.getArrivals = [] := by
  simp [arrivalsIn]

/-- The colouring of a frame keeps the edges of each input apart exactly when the draws do. -/
theorem Between.colorFrame_iff {st : State n} (h : Between B st) (draws : Draws)
    (sw : IQSwitch n n) :
    (∃ col, colorFrame draws (handleArrivals sw st) = .ok col ∧
        Separates ShareInput col.assigned) ↔
      KeptApart ShareInput B draws []
        (shuffledEdges draws (handleArrivals sw st).multigraphAdj) := by
  rw [h.colorFrame_eq]
  exact (colored_start h.size h.row).colorEdges_iff separates_nil _

/-- The edges that the last slot of a frame colours are the packets of all slots up to then. -/
theorem count_colored {before : State n} {col : Coloring n} (hbetween : Between B before) {k : ℕ}
    (hadj : (handleArrivals (slots (lastSlot B k)).2 before).multigraphAdj
      = addEdges (fun _ => [])
        (arrivalsIn slots 0 (k * frameLength B) ++ frameArrivals slots B k))
    (hcol : colorFrame (slots (lastSlot B k)).1 (handleArrivals (slots (lastSlot B k)).2 before)
      = .ok col) (e : Fin n × Fin n) :
    (col.assigned.map Prod.fst).count e
      = (arrivalsIn slots 0 (k * frameLength B)).count e + (frameArrivals slots B k).count e := by
  have hall := (hbetween.colored hcol).2 e.1 e.2
  rw [hadj, count_addEdges, List.count_append] at hall
  simpa using hall

/-- The last slot of a frame whose edges are coloured ends it. -/
theorem calls_lastSlot {before : State n} {col : Coloring n} (hbetween : Between B before) {k : ℕ}
    (hbefore : calls slots start (lastSlot B k) = .ok before) (hend : B ≤ before.cfRelTime + 1)
    (hcol : colorFrame (slots (lastSlot B k)).1 (handleArrivals (slots (lastSlot B k)).2 before)
      = .ok col) :
    calls slots start ((k + 1) * frameLength B)
      = .ok (ended col (entered (slots (lastSlot B k)).2 before)) := by
  rw [← lastSlot_add_one]
  apply steps_succ_eq_ok.mpr
  refine ⟨before, hbefore, ?_⟩
  rw [hbetween.schedule_eq, if_neg (not_lt.mpr hend), hcol, ok_bind]
  exact hbetween.endFrame_eq_ok _ hend (hbetween.colored hcol).1

/-- A frame that schedules its packets once is the first one with packets, and its draws keep the
    edges of each input apart. -/
theorem FrameScheduled.frameCondition (hstart : Start B start) {k : ℕ} {first : State n}
    (hfirst : calls slots start (k * frameLength B) = .ok first)
    (h : FrameScheduled B slots start k) : FrameCondition B slots k := by
  obtain ⟨before, hbefore, hbetween, hend, hadj⟩ := exists_before hstart hfirst
  obtain ⟨before', col, st, hbefore', hcol, hst, hcount, -, hcells⟩ := h
  cases hbefore.symm.trans hbefore'
  have hcolored := (hbetween.colored hcol).1
  -- The edges coloured are all packets since the start, so there are none from before the frame.
  have hearlier : arrivalsIn slots 0 (k * frameLength B) = [] := by
    apply List.eq_nil_iff_forall_not_mem.mpr
    intro e
    apply List.count_eq_zero.mp
    have hall := count_colored hbetween hadj hcol e
    rw [hcount e] at hall
    omega
  cases (calls_lastSlot hbetween hbefore hend hcol).symm.trans hst
  have hcolors := hbetween.colorFrame_iff (slots (lastSlot B k)).1 (slots (lastSlot B k)).2
  rw [hadj, hearlier, List.nil_append] at hcolors
  refine ⟨arrivalsIn_eq_nil_iff.mp hearlier, ?_⟩
  apply hcolors.mp
  refine ⟨col, hcol, (hcolored.written.count_cells_iff hcolored.below).mp (fun e => ?_)⟩
  rw [hcount e]
  exact hcells e

/-- The first frame with packets schedules them once if its draws keep the edges of each input
    apart. -/
theorem FrameCondition.frameScheduled (hstart : Start B start) {k : ℕ} {first : State n}
    (hfirst : calls slots start (k * frameLength B) = .ok first) (h : FrameCondition B slots k) :
    FrameScheduled B slots start k := by
  obtain ⟨before, hbefore, hbetween, hend, hadj⟩ := exists_before hstart hfirst
  have hearlier := arrivalsIn_eq_nil_iff.mpr h.1
  have hcolors := hbetween.colorFrame_iff (slots (lastSlot B k)).1 (slots (lastSlot B k)).2
  rw [hadj, hearlier, List.nil_append] at hcolors
  obtain ⟨col, hcol, hsep⟩ := hcolors.mpr h.2
  have hcolored := (hbetween.colored hcol).1
  have hcount : ∀ e, (col.assigned.map Prod.fst).count e = (frameArrivals slots B k).count e := by
    intro e
    rw [count_colored hbetween hadj hcol, hearlier, List.count_nil, Nat.zero_add]
  have hst := calls_lastSlot hbetween hbefore hend hcol
  refine ⟨before, col, _, hbefore, hcol, hst, hcount, ?_, ?_⟩
  · intro f hf st' hst'
    exact inMatch_of_calls hstart hst (Nat.mul_mod_left _ _) hcolored.frameSizeNext hf hst'
  · intro e
    rw [← hcount e]
    exact (hcolored.written.count_cells_iff hcolored.below).mpr hsep e

/-- A frame that is reached schedules its packets once exactly when it is the first one with packets
    and its draws keep the edges of each input apart. -/
theorem frameScheduled_iff (hstart : Start B start) {k : ℕ} {first : State n}
    (hfirst : calls slots start (k * frameLength B) = .ok first) :
    FrameScheduled B slots start k ↔ FrameCondition B slots k :=
  ⟨fun h => h.frameCondition hstart hfirst, fun h => h.frameScheduled hstart hfirst⟩

/-! ### Whole runs -/

/-- The first frame is reached, and every other one if the frame before it returns. -/
theorem exists_first {K : ℕ} (h : ∀ k < K, FrameScheduled B slots start k) {k : ℕ} (hk : k ≤ K) :
    ∃ first, calls slots start (k * frameLength B) = .ok first := by
  cases k with
  | zero => exact ⟨start, by rw [Nat.zero_mul]; rfl⟩
  | succ k =>
    obtain ⟨-, -, st, -, -, hst, -⟩ := h k (by omega)
    exact ⟨st, hst⟩

/-- The packets of the first `K` frames of a run are scheduled once each, in the frame after the one
    in which they arrive, exactly when no frame finds packets from before it and the draws of every
    frame keep the edges of each input apart. -/
theorem scheduledOnce_iff (hstart : start = .initial B ∨ ∃ st, Reachable B st ∧ start = reset B st)
    (slots : ℕ → Draws × IQSwitch n n) (K : ℕ) :
    (∀ k < K, FrameScheduled B slots start k) ↔ ∀ k < K, FrameCondition B slots k := by
  have hst := start_of_reachable hstart
  constructor
  · intro hall k hk
    obtain ⟨first, hfirst⟩ := exists_first hall (le_of_lt hk)
    exact (frameScheduled_iff hst hfirst).mp (hall k hk)
  · intro hall
    induction K with
    | zero => exact fun k hk => absurd hk (Nat.not_lt_zero k)
    | succ K ih =>
      have hbefore := ih (fun k hk => hall k (by omega))
      intro k hk
      obtain ⟨first, hfirst⟩ := exists_first hbefore (show k ≤ K by omega)
      exact (frameScheduled_iff hst hfirst).mpr (hall k hk)

/-- Frames of one slot, of which only the third brings packets. -/
theorem scheduledOnce_three :
    FrameScheduled 1
      (fun t => (firstDraws, .simplified
        ⟨fun _ _ => 0, if t = 2 then [some (0, 1), some (1, 0)] else [], []⟩))
      (.initial 1 : State 2) 2 :=
  (scheduledOnce_iff (.inl rfl) _ 3).mpr (by decide) 2 (by decide)

/-- Frames of one slot, of which only the first brings a packet: the second colours it again. -/
theorem not_scheduledOnce_two :
    ¬ ∀ k < 2, FrameScheduled 1
      (fun t => (firstDraws, .simplified ⟨fun _ _ => 0, if t = 0 then [some (0, 0)] else [], []⟩))
      (.initial 1 : State 1) k := by
  intro hall
  obtain ⟨before, col, -, hbefore, hcol, -, hcount, -⟩ := hall 1 Nat.one_lt_two
  obtain ⟨col', hcol', hassigned⟩ := exists_of_returns
    (x := calls (fun t => (firstDraws, (.simplified
        ⟨fun _ _ => 0, if t = 0 then [some (0, 0)] else [], []⟩ : IQSwitch 1 1)))
        (.initial 1 : State 1) (lastSlot 1 1) >>=
      fun before =>
        colorFrame firstDraws (handleArrivals (.simplified ⟨fun _ _ => 0, [], []⟩) before))
    (p := fun col => decide (col.assigned = [((0, 0), 0)])) (by decide +kernel)
  rw [hbefore, ok_bind] at hcol'
  cases hcol.symm.trans hcol'
  have hnone := hcount (0, 0)
  rw [of_decide_eq_true hassigned] at hnone
  exact absurd hnone (by decide)

end

end EdgeColoring

end SschedSimulator
