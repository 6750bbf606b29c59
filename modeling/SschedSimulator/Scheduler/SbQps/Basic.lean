import SschedSimulator.Scheduler.Qps
import SschedSimulator.Scheduler.SbQps.Batch

namespace SschedSimulator

open Foundation

/-!
# `sb_qps.cc` — the scheduler `SB_QPS_Basic`

The simplest of the small-batch schedulers grants the current slot to the longest proposal of
each output and dispatches the row one batch later.

It is QPS-1 with a delay of one batch, which is proved by running the two in lock-step.

* `Delayed` — the relation: the trees and `VOQLength` of one are the trees and the queues of the
  other, and the rows hold the last `B` matchings of QPS-1;
* `Delayed.step` — one slot keeps it;
* `inMatch_eq_delayed` — the matchings dispatched over a whole run.
-/

namespace SbQps

variable {n m : ℕ}

namespace Basic

/-- The state of `SB_QPS_Basic`. -/
abbrev State (n m : ℕ) := SbState (Reservations n m) n m

/-- The constructor. -/
def initial : State n m := SbState.initial Reservations.empty

/-- The body of the accept loop for one output. -/
def acceptOutput (timeSlot : ℕ) (outAccepts : Fin m → List (Fin n)) (acc : PlainAccepting n m)
    (out : Fin m) : Except Fault (PlainAccepting n m) :=
  match outAccepts out with
  | [] => .ok acc
  | i :: _ => acc.serveNow timeSlot out i

/-- `qps`. -/
def qps (draws : TreeDraws n m) (timeSlot : ℕ) (core : Core (Reservations n m) n m) :
    Except Fault (Core (Reservations n m) n m) := do
  let outAccepts ← propose core.voq.getQueueLengthForInput core.voq.voqLength
    (draws.outputs core.voq.bst) (keepLongest core.voq.voqLength) draws.shuffle.val (fun _ => [])
  let acc ← (List.finRange m).foldlM (acceptOutput timeSlot outAccepts)
    { toReservations := core.tables, virtualDepartures := [] }
  let voq ← core.voq.handlePacketDepartures acc.virtualDepartures
  .ok { tables := acc.toReservations, voq := voq }

/-- The scheduler as a switch drives it. -/
abbrev model (n m B : ℕ) : SchedulerModel n m := sbModel (qps (n := n) (m := m)) B

/-! ### One round -/

/-- The accept loop on the tables `r` when the outputs of `rest` are still to come: the others have
    booked the proposal they hold, at the slot itself, and recorded it once. -/
structure Serving (t : ℕ) (outAccepts : Fin m → List (Fin n)) (r : Reservations n m)
    (rest : List (Fin m)) (acc : PlainAccepting n m) : Prop where
  nodup : rest.Nodup
  rows : ∀ f, f ≠ t → acc.schedules f = r.schedules f
  row : ∀ i o, acc.schedules t i = some o ↔ o ∉ rest ∧ (outAccepts o).head? = some i
  count : ∀ i o, acc.virtualDepartures.count (i, o) = if acc.schedules t i = some o then 1 else 0

/-- Passing an output that does not hold `i` does not change by whom `i` is held. -/
theorem held_iff_of_ne {outAccepts : Fin m → List (Fin n)} {out : Fin m} {i : Fin n}
    (hne : (outAccepts out).head? ≠ some i) (rest : List (Fin m)) (o : Fin m) :
    (o ∉ out :: rest ∧ (outAccepts o).head? = some i) ↔
      (o ∉ rest ∧ (outAccepts o).head? = some i) := by
  refine and_congr_left (fun hi => ?_)
  have ho : o ≠ out := by
    intro heq
    exact hne (heq ▸ hi)
  rw [List.mem_cons, not_or]
  exact and_iff_right ho

/-- The body of the accept loop. -/
theorem Serving.step {t : ℕ} (ht : t < bitmapWidth) {outAccepts : Fin m → List (Fin n)}
    {sample : Fin n → Option (Fin m)}
    (hsample : ∀ out i, (outAccepts out).head? = some i → sample i = some out)
    {r : Reservations n m} {out : Fin m} {rest : List (Fin m)} {acc : PlainAccepting n m}
    (h : Serving t outAccepts r (out :: rest) acc) :
    Post (acceptOutput t outAccepts acc out) (fun _ => False) (Serving t outAccepts r rest) := by
  obtain ⟨hout, hrest⟩ := List.nodup_cons.mp h.nodup
  unfold acceptOutput
  cases hacc : outAccepts out with
  | nil =>
    refine ⟨hrest, h.rows, fun i o => (h.row i o).trans (held_iff_of_ne ?_ rest o), h.count⟩
    rw [hacc]
    exact (Option.some_ne_none i).symm
  | cons j others =>
    have hj : (outAccepts out).head? = some j := by
      rw [hacc]
      rfl
    -- The input held by `out` has no cell yet: an earlier output holds somebody else.
    have hcell : acc.schedules t j = none := by
      cases hc : acc.schedules t j with
      | none => rfl
      | some o =>
        obtain ⟨ho, hi⟩ := (h.row j o).mp hc
        have heq := (hsample o j hi).symm.trans (hsample out j hj)
        rw [Option.some.injEq] at heq
        exact absurd (List.mem_cons_self ..) (heq ▸ ho)
    have hnow : ∀ i, update₂ acc.schedules t j (some out) t i
        = if i = j then some out else acc.schedules t i := by
      intro i
      rw [update₂_apply]
      simp only [true_and]
    dsimp only
    unfold PlainAccepting.serveNow
    rw [Reservations.assignNow_eq_ok _ ht, ok_bind]
    refine ⟨hrest, fun f hf => ?_, fun i o => ?_, fun i o => ?_⟩
    · show update₂ acc.schedules t j (some out) f = _
      rw [update₂_row_of_ne _ hf]
      exact h.rows f hf
    · show update₂ acc.schedules t j (some out) t i = some o ↔ _
      rw [hnow]
      by_cases hi : i = j
      · subst hi
        rw [if_pos rfl, Option.some.injEq]
        constructor
        · intro ho
          subst ho
          exact ⟨hout, hj⟩
        · intro ho
          exact Option.some.inj ((hsample out i hj).symm.trans (hsample o i ho.2))
      · rw [if_neg hi, h.row]
        refine held_iff_of_ne (fun hc => hi ?_) rest o
        exact Option.some.inj (hc.symm.trans hj)
    · show (acc.virtualDepartures ++ [(j, out)]).count (i, o)
        = if update₂ acc.schedules t j (some out) t i = some o then 1 else 0
      rw [List.count_append, h.count, List.count_singleton, hnow]
      by_cases hi : i = j
      · subst hi
        rw [hcell, if_neg (Option.some_ne_none o).symm, if_pos rfl, Nat.zero_add]
        simp
      · rw [if_neg hi]
        simp [Ne.symm hi]

/-- The accept loop books the proposals held by the outputs, at the slot itself. -/
theorem acceptAll_eq_ok {t : ℕ} (ht : t < bitmapWidth) {outAccepts : Fin m → List (Fin n)}
    {sample : Fin n → Option (Fin m)}
    (hsample : ∀ out i, (outAccepts out).head? = some i → sample i = some out)
    {r : Reservations n m} (hempty : ∀ i, r.schedules t i = none) :
    ∃ acc, (List.finRange m).foldlM (acceptOutput t outAccepts)
        { toReservations := r, virtualDepartures := [] } = .ok acc ∧
      (∀ f, f ≠ t → acc.schedules f = r.schedules f) ∧
      (∀ i o, acc.schedules t i = some o ↔ (outAccepts o).head? = some i) ∧
      ∀ i o, acc.virtualDepartures.count (i, o)
        = if acc.schedules t i = some o then 1 else 0 := by
  have h0 : Serving t outAccepts r (List.finRange m)
      { toReservations := r, virtualDepartures := [] } :=
    ⟨List.nodup_finRange m, fun _ _ => rfl, fun i o => by simp [hempty],
      fun i o => by simp [hempty]⟩
  have hloop := Post.foldlM_rest (Serving t outAccepts r) _ _ h0
    (fun _ _ _ hacc => hacc.step ht hsample)
  obtain ⟨acc, hrun, hacc⟩ := hloop.exists_ok (fun _ _ he => he)
  refine ⟨acc, hrun, hacc.rows, fun i o => ?_, hacc.count⟩
  exact (hacc.row i o).trans (and_iff_right List.not_mem_nil)

/-- One round with valid samples: each output books its longest proposer at the slot, and the
    VOQs booked lose a packet. -/
theorem qps_eq_ok {draws : TreeDraws n m} (hvalid : draws.Valid) {t : ℕ} (ht : t < bitmapWidth)
    {core : Core (Reservations n m) n m} (hexact : core.voq.Exact)
    (hempty : ∀ i, core.schedules t i = none) :
    ∃ core', qps draws t core = .ok core' ∧ core'.voq.Exact ∧
      (∀ f, f ≠ t → core'.schedules f = core.schedules f) ∧
      (∀ i o, core'.schedules t i = some o ↔
        draws.longestProposer core.voq.bst core.voq.voqLength o = some i) ∧
      ∀ i o, core'.voq.voqLength i o
        = core.voq.voqLength i o - if core'.schedules t i = some o then 1 else 0 := by
  obtain ⟨outAccepts, hpropose, hkept, hpos⟩ := (propose_post _ _ _ :
    Post (propose core.voq.getQueueLengthForInput core.voq.voqLength (draws.outputs core.voq.bst)
      (keepLongest core.voq.voqLength) draws.shuffle.val (fun _ => [])) _ _).exists_ok
    (fun _ _ he => he.2 (hvalid.good hexact))
  have hhead : ∀ o, (outAccepts o).head?
      = draws.longestProposer core.voq.bst core.voq.voqLength o := by
    intro o
    rw [hkept o, head?_foldl_keepLongest]
    rfl
  have hsample : ∀ out i, (outAccepts out).head? = some i →
      draws.outputs core.voq.bst i = some out := by
    intro out i hi
    rw [hhead out] at hi
    exact (TreeDraws.longestProposer_eq_some hi).2
  have hrow₀ : ∀ i, core.tables.schedules t i = none := hempty
  obtain ⟨acc, hrun, hrows, hrow, hcount⟩ := acceptAll_eq_ok ht hsample hrow₀
  have hle : ∀ i o, (acc.virtualDepartures.count (i, o) : ℤ) ≤ core.voq.voqLength i o := by
    intro i o
    have hnonneg := hexact.nonneg i o
    rw [hcount]
    split
    · rename_i hc
      -- A booked pair is a proposal, and every proposal has a packet.
      have hi := (hrow i o).mp hc
      rw [hhead o] at hi
      rcases mem_of_foldl_challenge _ hi with hmem | hnone
      · have hio := hpos o i hmem
        push_cast
        omega
      · cases hnone
    · push_cast
      omega
  obtain ⟨voq, hdepart, hexact', hlen⟩ := VoqState.handlePacketDepartures_eq_ok hexact hle
  refine ⟨⟨acc.toReservations, voq⟩, ?_, hexact', hrows, fun i o => ?_, fun i o => ?_⟩
  · unfold qps
    rw [hpropose, ok_bind, hrun, ok_bind, hdepart, ok_bind]
  · rw [← hhead o]
    exact hrow i o
  · rw [hlen, hcount]
    push_cast
    rfl

/-! ### One slot -/

variable {B : ℕ}

/-- The trivial table invariant: a row booked here never meets another. -/
theorem batchInvariant_true (B : ℕ) :
    BatchInvariant B (fun _ (_ : Reservations n m) => True) (fun _ _ => True) where
  clearRow := fun _ _ _ => trivial
  resetBitmap := fun _ _ => trivial

/-- One slot with valid samples.  `core` is the state in which the round starts. -/
theorem schedule_eq_ok (hB1 : 1 ≤ B) (hB : B ≤ bitmapWidth) {draws : TreeDraws n m}
    (hvalid : draws.Valid) (sw : IQSwitch n m) {st : State n m} (hexact : st.voq.Exact) :
    ∃ (core : Core (Reservations n m) n m) (st' : State n m),
      schedule (qps draws) B sw st = .ok st' ∧ core.voq.Exact ∧
      (∀ i o, core.voq.voqLength i o = st.voq.voqLength i o + sw.getArrivals.count (i, o)) ∧
      st'.cfRelTime = st.cfRelTime + 1 ∧ st'.inMatch = st.schedules (st.cfRelTime % B) ∧
      (∀ f, f ≠ st.cfRelTime % B → st'.schedules f = st.schedules f) ∧ st'.voq.Exact ∧
      (∀ i o, st'.schedules (st.cfRelTime % B) i = some o ↔
        draws.longestProposer core.voq.bst core.voq.voqLength o = some i) ∧
      ∀ i o, st'.voq.voqLength i o = core.voq.voqLength i o
        - if st'.schedules (st.cfRelTime % B) i = some o then 1 else 0 := by
  have ht : st.cfRelTime % B < B := Nat.mod_lt _ (by omega)
  obtain ⟨core, henter, hsound, hentered⟩ :=
    enterSlot_eq_ok (batchInvariant_true B) sw ⟨trivial, hexact⟩
  -- The row of the slot is clear when the round begins, and the round writes no other.
  have hempty : ∀ i, core.schedules (st.cfRelTime % B) i = none := by
    intro i
    rw [hentered.schedules, Function.update_self]
  obtain ⟨core', hround, hexact', hrows, hrow, hlen⟩ :=
    qps_eq_ok hvalid (by omega : st.cfRelTime % B < bitmapWidth) hsound.voq hempty
  let mid : State n m :=
    { toCore := core', cfRelTime := st.cfRelTime, inMatch := st.schedules (st.cfRelTime % B) }
  have hmid : (endSlot B mid).schedules = core'.schedules := endSlot_schedules B mid
  refine ⟨core, endSlot B mid, ?_, hsound.voq, hentered.voqLength, rfl, rfl, fun f hf => ?_,
    hexact', fun i o => ?_, fun i o => ?_⟩
  · unfold schedule slotRound
    rw [henter, ok_bind, hround, ok_bind, ok_bind]
  · rw [hmid, hrows f hf, hentered.schedules, Function.update_of_ne hf]
  · rw [hmid]
    exact hrow i o
  · rw [hmid]
    exact hlen i o

/-! ### The delay of one batch -/

/-- `SB_QPS_Basic` in a switch of its own and QPS-1 in another, after `T` slots with the same
    arrivals and draws; `matchings T'` is what QPS-1 matched at slot `T'`. -/
structure Delayed (B T : ℕ) (matchings : ℕ → Fin n → Option (Fin m)) (sb : System (model n m B))
    (qps : System (Qps.model n m Qps.qps1)) : Prop where
  time : sb.scheduler.cfRelTime = T
  exact : sb.scheduler.voq.Exact
  mirror : Qps.Mirror qps.scheduler.bst qps.switch.getQueueLength
  voqLength : ∀ i o, sb.scheduler.voq.voqLength i o = qps.switch.getQueueLength i o
  rows : ∀ T' < T, T ≤ T' + B → sb.scheduler.schedules (T' % B) = matchings T'
  unwritten : ∀ f, T ≤ f → sb.scheduler.schedules f = fun _ => none
  matching : ∀ T' < T, IsMatching (matchings T')

theorem delayed_initial (B : ℕ) (matchings : ℕ → Fin n → Option (Fin m)) {sw sw' : IQSwitch n m}
    (hsw' : sw'.Empty) : Delayed B 0 matchings ⟨sw, initial⟩ ⟨sw', Qps.initial⟩ where
  time := rfl
  exact := VoqState.exact_empty
  mirror := by
    intro i
    refine cast (congrArg (Mirrors _) ?_) (mirrors_zero (m := m))
    ext o
    show (0 : ℤ) = sw'.getQueueLength i o
    rw [hsw' i o]
    rfl
  voqLength := fun i o => by
    show (0 : ℤ) = sw'.getQueueLength i o
    rw [hsw' i o]
    rfl
  rows := fun _ h => absurd h (Nat.not_lt_zero _)
  unwritten := fun _ _ => rfl
  matching := fun _ h => absurd h (Nat.not_lt_zero _)

/-- The row that `SB_QPS_Basic` dispatches at slot `T`: what QPS-1 matched `B` slots before. -/
theorem Delayed.dispatched {T : ℕ} {matchings : ℕ → Fin n → Option (Fin m)}
    {sb : System (model n m B)} {qps : System (Qps.model n m Qps.qps1)} (hB1 : 1 ≤ B)
    (h : Delayed B T matchings sb qps) :
    sb.scheduler.schedules (T % B) = if T < B then fun _ => none else matchings (T - B) := by
  split
  · rename_i hT
    rw [Nat.mod_eq_of_lt hT]
    exact h.unwritten T (le_refl T)
  · rename_i hT
    rw [Nat.mod_eq_sub_mod (by omega)]
    exact h.rows (T - B) (by omega) (by omega)

theorem Delayed.dispatched_isMatching {T : ℕ} {matchings : ℕ → Fin n → Option (Fin m)}
    {sb : System (model n m B)} {qps : System (Qps.model n m Qps.qps1)} (hB1 : 1 ≤ B)
    (h : Delayed B T matchings sb qps) : IsMatching (sb.scheduler.schedules (T % B)) := by
  rw [h.dispatched hB1]
  split
  · exact isMatching_none
  · exact h.matching (T - B) (by omega)

/-- The slot `T` writes a row that the `B - 1` slots before it do not share. -/
theorem mod_ne_of_window {T T' : ℕ} (hT' : T' < T) (hle : T + 1 ≤ T' + B) : T' % B ≠ T % B := by
  intro heq
  have hmod := Nat.sub_mod_eq_zero_of_mod_eq heq.symm
  rw [Nat.mod_eq_of_lt (by omega)] at hmod
  omega

/-- Trees with the same leaves are equal, so that the same draws sample the same outputs. -/
theorem bst_eq_of_mirror {voq : VoqState n m} (h : voq.Exact) {bst : Fin n → Bst}
    {len : Fin n → Fin m → ℕ} (hbst : Qps.Mirror bst len)
    (hlen : ∀ i o, voq.voqLength i o = (len i o : ℤ)) : voq.bst = bst := by
  ext i : 1
  have hi := h i
  rw [show voq.voqLength i = fun o => (len i o : ℤ) from funext (hlen i)] at hi
  exact hi.ext (hbst i)

/-- One slot, with the same arrivals and the same valid draws. -/
theorem Delayed.step {T : ℕ} {matchings : ℕ → Fin n → Option (Fin m)}
    {sb : System (model n m B)} {qps : System (Qps.model n m Qps.qps1)} (hB1 : 1 ≤ B)
    (hB : B ≤ bitmapWidth) (h : Delayed B T matchings sb qps)
    (channels : Fin n → List (Packet n m)) {draws : TreeDraws n m} (hvalid : draws.Valid) :
    ∃ sb' qps', switching (model n m B) draws channels sb = .ok sb' ∧
      switching (Qps.model n m Qps.qps1) (fun _ => draws) channels qps = .ok qps' ∧
      sb'.scheduler.inMatch = sb.scheduler.schedules (T % B) ∧
      (matchings T = qps'.scheduler.inMatch → Delayed B (T + 1) matchings sb' qps') := by
  have ht : T % B < B := Nat.mod_lt _ (by omega)
  -- The two schedulers see the same arrivals and hold the same trees and lengths.
  have hread : ∀ i o, (qps.switch.readInputs channels).getQueueLength i o
      = qps.switch.getQueueLength i o
        + (qps.switch.readInputs channels).getArrivals.count (i, o) := by
    intro i o
    rw [IQSwitch.readInputs_queueLength, IQSwitch.readInputs_arrivals]
  obtain ⟨q', bst, hq, hbst, hqrow, hqmir⟩ :=
    Qps.schedule_qps1_eq_ok h.mirror hread (fun _ => draws) hvalid
  obtain ⟨core, s', hs, hcore, harrive, htime, hcopy, hrows, hexact, hrow, hlen⟩ :=
    schedule_eq_ok hB1 hB hvalid (sb.switch.readInputs channels) h.exact
  rw [h.time] at htime hcopy hrows hrow hlen
  have hsame : ∀ i o, core.voq.voqLength i o
      = ((qps.switch.readInputs channels).getQueueLength i o : ℤ) := by
    intro i o
    rw [harrive, h.voqLength, IQSwitch.readInputs_queueLength, IQSwitch.readInputs_arrivals]
    push_cast
    rfl
  have hmatched : s'.schedules (T % B) = q'.inMatch := by
    ext i o : 2
    rw [hrow, hqrow, bst_eq_of_mirror hcore hbst hsame, show core.voq.voqLength
      = fun i o => ((qps.switch.readInputs channels).getQueueLength i o : ℤ) from funext₂ hsame]
  have hqmatching : IsMatching q'.inMatch := by
    intro i i' o hi hi'
    rw [hqrow] at hi hi'
    exact Option.some.inj (hi.symm.trans hi')
  have hsmatching : IsMatching s'.inMatch := by
    rw [hcopy]
    exact h.dispatched_isMatching hB1
  obtain ⟨sw₁, hsw₁, -⟩ := (IQSwitch.writeOutputs_post (sb.switch.readInputs channels)
    s'.inMatch).exists_ok (fun _ _ he => he.2 hsmatching)
  obtain ⟨sw₂, hsw₂, hleft⟩ := (IQSwitch.writeOutputs_post (qps.switch.readInputs channels)
    q'.inMatch).exists_ok (fun _ _ he => he.2 hqmatching)
  refine ⟨⟨sw₁.tick, s'⟩, ⟨sw₂.tick, q'⟩, ?_, ?_, hcopy, fun hT => ?_⟩
  · simp only [switching, hs, ok_bind, hsw₁]
  · simp only [switching, hq, ok_bind, hsw₂]
  · refine ⟨htime, hexact, ?_, fun i o => ?_, fun T' hT' hle => ?_, fun f hf => ?_,
      fun T' hT' => ?_⟩
    · refine hqmir.congr (fun i o => ?_)
      rw [IQSwitch.tick_getQueueLength, hleft]
    · rw [hlen, hsame, hmatched, IQSwitch.tick_getQueueLength, hleft]
      -- A matched VOQ holds a packet, so the subtraction does not truncate.
      split
      · rename_i hio
        have hleft' : 0 ≤ s'.voq.voqLength i o := hexact.nonneg i o
        rw [hlen, hsame, hmatched, if_pos hio] at hleft'
        omega
      · omega
    · by_cases hlast : T' = T
      · rw [hlast, hT]
        exact hmatched
      · have hne := mod_ne_of_window (by omega) hle
        show s'.schedules (T' % B) = _
        rw [hrows _ hne]
        exact h.rows T' (by omega) (by omega)
    · have hne : f ≠ T % B := by
        have := Nat.mod_le T B
        omega
      show s'.schedules f = _
      rw [hrows f hne]
      exact h.unwritten f (by omega)
    · by_cases hlast : T' = T
      · rw [hlast, hT]
        exact hqmatching
      · exact h.matching T' (by omega)

/-! ### Whole runs -/

/-- What QPS-1 matches at slot `T` of its run. -/
def qpsMatching (draws : ℕ → TreeDraws n m) (channels : ℕ → Fin n → List (Packet n m))
    (sw : IQSwitch n m) (T : ℕ) : Fin n → Option (Fin m) :=
  match runSlots (Qps.model n m Qps.qps1) (fun t _ => draws t) channels ⟨sw, Qps.initial⟩ (T + 1)
  with
  | .ok sys => sys.scheduler.inMatch
  | .error _ => fun _ => none

/-- Neither run meets a fault, and they stay related. -/
theorem delayed_of_run (hB1 : 1 ≤ B) (hB : B ≤ bitmapWidth) {draws : ℕ → TreeDraws n m}
    (hvalid : ∀ T, (draws T).Valid) (channels : ℕ → Fin n → List (Packet n m))
    (sw : IQSwitch n m) {sw' : IQSwitch n m} (hsw' : sw'.Empty) (T : ℕ) :
    ∃ sb qps, runSlots (model n m B) draws channels ⟨sw, initial⟩ T = .ok sb ∧
      runSlots (Qps.model n m Qps.qps1) (fun t _ => draws t) channels ⟨sw', Qps.initial⟩ T
        = .ok qps ∧
      Delayed B T (qpsMatching draws channels sw') sb qps := by
  -- The matching of slot `T` is known only after that slot, when the relation moves on.
  induction T with
  | zero => exact ⟨_, _, rfl, rfl, delayed_initial B _ hsw'⟩
  | succ T ih =>
    obtain ⟨sb, qps, hsb, hqps, hrel⟩ := ih
    obtain ⟨sb', qps', hsb', hqps', -, hnext⟩ := hrel.step hB1 hB (channels T) (hvalid T)
    have hrun : runSlots (Qps.model n m Qps.qps1) (fun t _ => draws t) channels
        ⟨sw', Qps.initial⟩ (T + 1) = .ok qps' := by
      rw [runSlots, hqps, ok_bind, hqps']
    refine ⟨sb', qps', by rw [runSlots, hsb, ok_bind, hsb'], hrun, hnext ?_⟩
    unfold qpsMatching
    rw [hrun]

/-- `SB_QPS_Basic` is QPS-1 delayed by one batch: on the same arrivals and the same valid draws
    neither run meets a fault, nothing is dispatched in the first `B` slots, and at every slot
    `T ≥ B` the matching dispatched is the one QPS-1 made at slot `T - B`.  The switch of
    `SB_QPS_Basic` need not even be empty, since the scheduler never looks at its queues. -/
theorem inMatch_eq_delayed (hB1 : 1 ≤ B) (hB : B ≤ bitmapWidth) {draws : ℕ → TreeDraws n m}
    (hvalid : ∀ T, (draws T).Valid) (channels : ℕ → Fin n → List (Packet n m))
    (sw : IQSwitch n m) {sw' : IQSwitch n m} (hsw' : sw'.Empty) (T : ℕ) :
    ∃ sb, runSlots (model n m B) draws channels ⟨sw, initial⟩ (T + 1) = .ok sb ∧
      (T < B → ∀ i, sb.scheduler.inMatch i = none) ∧
      (B ≤ T → ∃ qps, runSlots (Qps.model n m Qps.qps1) (fun t _ => draws t) channels
          ⟨sw', Qps.initial⟩ (T - B + 1) = .ok qps ∧
        sb.scheduler.inMatch = qps.scheduler.inMatch) := by
  obtain ⟨sb, qps, hsb, -, hrel⟩ := delayed_of_run hB1 hB hvalid channels sw hsw' T
  obtain ⟨sb', -, hsb', -, hcopy, -⟩ := hrel.step hB1 hB (channels T) (hvalid T)
  rw [hrel.dispatched hB1] at hcopy
  refine ⟨sb', by rw [runSlots, hsb, ok_bind, hsb'], fun hT i => ?_, fun hT => ?_⟩
  · rw [hcopy, if_pos hT]
  · obtain ⟨-, qps₀, -, hqps₀, -⟩ := delayed_of_run hB1 hB hvalid channels sw hsw' (T - B + 1)
    refine ⟨qps₀, hqps₀, ?_⟩
    rw [hcopy, if_neg (by omega)]
    unfold qpsMatching
    rw [hqps₀]

/-- With `B = 1`, a packet that arrives in the first slot is dispatched in the second. -/
theorem dispatched_next_slot :
    let draws : TreeDraws 2 2 := ⟨⟨[1, 0], by decide⟩, fun _ => drawnSample (1 / 4)⟩
    ∃ sb, runSlots (model 2 2 1) (fun _ => draws)
        (fun T i => if T = 0 ∧ i = 0 then [⟨0, 1, 0, 0⟩] else [])
        ⟨.simplified ⟨fun _ _ => 0, [], []⟩, initial⟩ 2 = .ok sb ∧
      sb.scheduler.inMatch 0 = some 1 := by
  intro draws
  have hvalid : draws.Valid := valid_drawnSample _ (by norm_num) (by norm_num)
  obtain ⟨sb, hsb, -, hdelayed⟩ := inMatch_eq_delayed (le_refl 1) (by decide) (fun _ => hvalid)
    (fun T i => if T = 0 ∧ i = 0 then [⟨0, 1, 0, 0⟩] else [])
    (.simplified ⟨fun _ _ => 0, [], []⟩)
    (show (IQSwitch.simplified (⟨fun _ _ => 0, [], []⟩ : SIQSwitch 2 2)).Empty
      from fun _ _ => rfl) 1
  obtain ⟨qps, hqps, heq⟩ := hdelayed (le_refl 1)
  refine ⟨sb, hsb, ?_⟩
  obtain ⟨qps', hqps', hmatch⟩ := exists_of_returns
    (x := runSlots (Qps.model 2 2 Qps.qps1) (fun _ _ => draws)
      (fun T i => if T = 0 ∧ i = 0 then [⟨0, 1, 0, 0⟩] else [])
      ⟨.simplified ⟨fun _ _ => 0, [], []⟩, Qps.initial⟩ 1)
    (p := fun sys => decide (sys.scheduler.inMatch 0 = some 1)) (by decide +kernel)
  rw [heq, Except.ok.inj (hqps.symm.trans hqps')]
  exact of_decide_eq_true hmatch

end Basic

end SbQps

end SschedSimulator
