import SschedSimulator.Foundation.Crossbar
import SschedSimulator.Switch.Switching

namespace SschedSimulator

open Foundation Finset

/-!
# The queues of a switch over infinite runs

A switch that runs without a fault is a crossbar: in every slot its queues grow by the packets that
are read and lose the head of every matched queue.

* `exists_trace` — a system whose slots all return has an infinite run;
* `Trace.evolves` — the lengths of its queues, whatever the scheduler is;
* `Trace.bounded_of_heaviest` and `Trace.bounded_of_maximal` — what the two kinds of matchings make
  of an arrival process that is bounded over windows of `W` slots;
* `Trace.empties_of_heaviest`, `Trace.empties_of_maximal` and `Trace.empties_of_some` — when the
  queues are empty after the last arrival.
-/

variable {n m : ℕ} {S : SchedulerModel n m}

/-- The states of a system that runs for ever. -/
structure Trace (S : SchedulerModel n m) (inputs : ℕ → S.Input)
    (channels : ℕ → Fin n → List (Packet n m)) (w : ℕ → System S) : Prop where
  step : ∀ t, switching S (inputs t) (channels t) (w t) = .ok (w (t + 1))

section

variable {inputs : ℕ → S.Input} {channels : ℕ → Fin n → List (Packet n m)} {w : ℕ → System S}

/-- The states are those of `runSlots`. -/
theorem Trace.runSlots_eq (h : Trace S inputs channels w) (T : ℕ) :
    runSlots S inputs channels (w 0) T = .ok (w T) := by
  induction T with
  | zero => rfl
  | succ T ih => rw [runSlots, ih, ok_bind, h.step T]

/-- Every state of the trace is reached. -/
theorem Trace.run (h : Trace S inputs channels w) (T : ℕ) : Run S (w 0) (w T) := by
  induction T with
  | zero => exact .refl
  | succ T ih => exact .step _ _ ih (h.step T)

/-- With an invariant under which every slot returns. -/
theorem exists_trace {Inv : System S → Prop} (inputs : ℕ → S.Input)
    (channels : ℕ → Fin n → List (Packet n m)) {sys : System S} (h0 : Inv sys)
    (hstep : ∀ t mid, Inv mid →
      ∃ next, switching S (inputs t) (channels t) mid = .ok next ∧ Inv next) :
    ∃ w, w 0 = sys ∧ Trace S inputs channels w ∧ ∀ t, Inv (w t) := by
  choose! next hnext using hstep
  let w : ℕ → System S := fun T => T.rec sys (fun t mid => next t mid)
  have hinv : ∀ t, Inv (w t) := by
    intro t
    induction t with
    | zero => exact h0
    | succ t ih => exact (hnext t (w t) ih).2
  exact ⟨w, rfl, ⟨fun t => (hnext t (w t) (hinv t)).1⟩, hinv⟩

/-! ### The queues -/

/-- The lengths of the queues, by pairs of ports. -/
def System.lengths (sys : System S) (p : Fin n × Fin m) : ℕ := sys.switch.getQueueLength p.1 p.2

/-- The packets of a slot, by pairs of ports. -/
def offered (channels : Fin n → List (Packet n m)) (p : Fin n × Fin m) : ℕ :=
  (arrivalsOf channels).count p

/-- The scheduler finds the queues as they are after reading. -/
theorem lengths_readInputs (sys : System S) (channels : Fin n → List (Packet n m))
    (p : Fin n × Fin m) :
    (sys.switch.readInputs channels).getQueueLength p.1 p.2 = (sys.lengths + offered channels) p :=
  IQSwitch.readInputs_queueLength sys.switch channels p.1 p.2

/-- So the queues that a scheduler can serve are those that are not empty then. -/
theorem pos_readInputs (sys : System S) (channels : Fin n → List (Packet n m)) :
    (fun s d => 0 < (sys.switch.readInputs channels).getQueueLength s d)
      = fun s d => 0 < (sys.lengths + offered channels) (s, d) :=
  funext₂ (fun s d => congrArg (0 < ·) (lengths_readInputs sys channels (s, d)))

/-- What a slot does to the queues. -/
theorem lengths_switching {input : S.Input} {channels : Fin n → List (Packet n m)}
    {sys next : System S} (h : switching S input channels sys = .ok next) :
    next.lengths + servedOf (sys.lengths + offered channels) (S.inMatch next.scheduler)
      = sys.lengths + offered channels := by
  obtain ⟨st, -, h'⟩ := bind_eq_ok.mp h
  obtain ⟨sw, hwrite, h''⟩ := bind_eq_ok.mp h'
  obtain rfl := Except.ok.inj h''
  funext p
  have hlen := (IQSwitch.writeOutputs_post _ _).of_ok hwrite p.1 p.2
  have hread := lengths_readInputs sys channels p
  show (sw.tick.getQueueLength p.1 p.2) + servedOf _ (S.inMatch st) p = _
  rw [IQSwitch.tick_getQueueLength, hlen, hread]
  unfold servedOf
  by_cases hp : S.inMatch st p.1 = some p.2
  · by_cases hpos : 0 < (sys.lengths + offered channels) p
    · rw [if_pos hp, if_pos ⟨hp, hpos⟩]
      omega
    · rw [if_pos hp, if_neg (fun hc => hpos hc.2)]
      omega
  · rw [if_neg hp, if_neg (fun hc => hp hc.1)]
    omega

/-- The queues take in what is offered and give away what is served. -/
theorem Trace.evolves (h : Trace S inputs channels w) :
    Evolves (fun t => (w t).lengths) (fun t => offered (channels t))
      (fun t => servedOf ((w t).lengths + offered (channels t))
        (S.inMatch (w (t + 1)).scheduler)) where
  step := fun t => lengths_switching (h.step t)
  served := fun _ p => servedOf_le_one _ _ p

/-! ### Arrivals -/

/-- In each window of `W` slots at most `r` packets arrive at an input and at most `r` are for an
    output. -/
structure Admissible (channels : ℕ → Fin n → List (Packet n m)) (W r : ℕ) : Prop where
  input : ∀ k s, ∑ t ∈ range W,
    (arrivalsOf (channels (k * W + t))).countP (fun p => decide (p.1 = s)) ≤ r
  output : ∀ k d, ∑ t ∈ range W,
    (arrivalsOf (channels (k * W + t))).countP (fun p => decide (p.2 = d)) ≤ r

/-- In each window of `W` slots at most `r` packets arrive at an input or are for an output, taken
    together, whichever the two ports are. -/
def HalfAdmissible (channels : ℕ → Fin n → List (Packet n m)) (W r : ℕ) : Prop :=
  ∀ k s d, ∑ t ∈ range W,
      (arrivalsOf (channels (k * W + t))).countP (fun p => decide (p.1 = s))
    + ∑ t ∈ range W,
      (arrivalsOf (channels (k * W + t))).countP (fun p => decide (p.2 = d)) ≤ r

/-- The pairs of a list with a given left port. -/
theorem sum_count_left (l : List (Fin n × Fin m)) (s : Fin n) :
    ∑ d, l.count (s, d) = l.countP (fun p => decide (p.1 = s)) := by
  induction l with
  | nil => simp
  | cons p rest ih =>
    have hone : ∑ d, (if p = (s, d) then 1 else 0) = if p.1 = s then 1 else 0 := by
      obtain ⟨i, o⟩ := p
      by_cases hi : i = s <;> simp [hi]
    simp only [List.count_cons, List.countP_cons, beq_iff_eq, decide_eq_true_eq, sum_add_distrib,
      ih, hone]

/-- The pairs of a list with a given right port. -/
theorem sum_count_right (l : List (Fin n × Fin m)) (d : Fin m) :
    ∑ s, l.count (s, d) = l.countP (fun p => decide (p.2 = d)) := by
  induction l with
  | nil => simp
  | cons p rest ih =>
    have hone : ∑ s, (if p = (s, d) then 1 else 0) = if p.2 = d then 1 else 0 := by
      obtain ⟨i, o⟩ := p
      by_cases ho : o = d <;> simp [ho]
    simp only [List.count_cons, List.countP_cons, beq_iff_eq, decide_eq_true_eq, sum_add_distrib,
      ih, hone]

/-- The lines of a window. -/
theorem sum_batch_left (channels : ℕ → Fin n → List (Packet n m)) (T W : ℕ) (s : Fin n) :
    ∑ d, batch (fun t => offered (channels t)) T W (s, d)
      = ∑ t ∈ range W, (arrivalsOf (channels (T + t))).countP (fun p => decide (p.1 = s)) := by
  simp only [batch_apply, offered]
  rw [sum_comm]
  exact sum_congr rfl (fun t _ => sum_count_left _ s)

/-- The columns of a window. -/
theorem sum_batch_right (channels : ℕ → Fin n → List (Packet n m)) (T W : ℕ) (d : Fin m) :
    ∑ s, batch (fun t => offered (channels t)) T W (s, d)
      = ∑ t ∈ range W, (arrivalsOf (channels (T + t))).countP (fun p => decide (p.2 = d)) := by
  simp only [batch_apply, offered]
  rw [sum_comm]
  exact sum_congr rfl (fun t _ => sum_count_right _ d)

/-! ### Bounded queues -/

/-- What no queue exceeds if heaviest matchings are served. -/
def heaviestCeiling (W r : ℕ) (sys : System S) : ℕ := ceiling 1 n W r sys.lengths

/-- What no queue exceeds if maximal matchings are served. -/
def maximalCeiling (W r : ℕ) (sys : System S) : ℕ := ceiling lines (n * m) W r sys.lengths

/-- With heaviest matchings, no queue exceeds its bound at any admissible load. -/
theorem Trace.bounded_of_heaviest (h : Trace S inputs channels w)
    (hrow : ∀ t row, IsMatching row →
      pairWeight ((w t).lengths + offered (channels t)) row
        ≤ pairWeight ((w t).lengths + offered (channels t)) (S.inMatch (w (t + 1)).scheduler))
    {W r : ℕ} (hr : r < W) (hload : Admissible channels W r) (t : ℕ) (s : Fin n) (d : Fin m) :
    (w t).switch.getQueueLength s d ≤ heaviestCeiling W r (w 0) := by
  have hbound := Foundation.bounded_of_heaviest h.evolves (fun t => heaviest_le (hrow t)) hr
    (fun k => ⟨fun s => by rw [sum_batch_left]; exact hload.input k s,
      fun d => by rw [sum_batch_right]; exact hload.output k d⟩) t (s, d)
  rwa [Fintype.card_fin] at hbound

/-- With maximal matchings it takes half the load. -/
theorem Trace.bounded_of_maximal (h : Trace S inputs channels w)
    (hrow : ∀ t, ∃ column, MaximalMatching
      (fun s d => 0 < ((w t).switch.readInputs (channels t)).getQueueLength s d)
      (S.inMatch (w (t + 1)).scheduler) column)
    {W r : ℕ} (hr : r < W) (hload : HalfAdmissible channels W r) (t : ℕ) (s : Fin n) (d : Fin m) :
    (w t).switch.getQueueLength s d ≤ maximalCeiling W r (w 0) := by
  have hbound := Foundation.bounded_of_maximal h.evolves
    (fun t => by rw [← pos_readInputs]; exact hrow t) hr
    (fun k s d => by rw [sum_batch_left, sum_batch_right]; exact hload k s d) t (s, d)
  rwa [Fintype.card_prod, Fintype.card_fin, Fintype.card_fin] at hbound

/-! ### After the last arrival -/

/-- Nothing is offered in a slot without packets. -/
theorem offered_silent : offered (n := n) (m := m) (fun _ => []) = 0 := by
  funext p
  rw [offered, arrivalsOf_eq_nil.mpr (fun _ => rfl), List.count_nil]
  rfl

/-- The packets at an input and those for an output, one that is both counted twice. -/
def System.portLengths (sys : System S) (s : Fin n) (d : Fin m) : ℕ :=
  ∑ d', sys.switch.getQueueLength s d' + ∑ s', sys.switch.getQueueLength s' d

/-- All packets. -/
def System.totalLength (sys : System S) : ℕ := ∑ s, ∑ d, sys.switch.getQueueLength s d

/-- A heaviest matching serves one of the two ports of every queue that is not empty. -/
theorem Trace.empties_of_heaviest (h : Trace S inputs (fun _ _ => []) w)
    (hmatching : ∀ t, IsMatching (S.inMatch (w (t + 1)).scheduler))
    (hrow : ∀ t row, IsMatching row → pairWeight ((w t).lengths + offered (fun _ => [])) row
      ≤ pairWeight ((w t).lengths + offered (fun _ => [])) (S.inMatch (w (t + 1)).scheduler))
    {T : ℕ} {s : Fin n} {d : Fin m} (hT : (w 0).portLengths s d ≤ T + 1) :
    (w T).switch.getQueueLength s d = 0 := by
  refine h.evolves.drained (p := (s, d)) (fun _ => offered_silent) (fun t p hp => ?_) hT
  apply lineSum_pos_of_heaviest (hmatching t) (hrow t)
  rwa [offered_silent, add_zero]

/-- So does a maximal one. -/
theorem Trace.empties_of_maximal (h : Trace S inputs (fun _ _ => []) w)
    (hrow : ∀ t, ∃ column, MaximalMatching
      (fun s d => 0 < ((w t).switch.readInputs (fun _ => [])).getQueueLength s d)
      (S.inMatch (w (t + 1)).scheduler) column)
    {T : ℕ} {s : Fin n} {d : Fin m} (hT : (w 0).portLengths s d ≤ T + 1) :
    (w T).switch.getQueueLength s d = 0 := by
  refine h.evolves.drained (p := (s, d)) (fun _ => offered_silent) (fun t p hp => ?_) hT
  obtain ⟨column, hmax⟩ := hrow t
  rw [pos_readInputs] at hmax
  apply lineSum_pos_of_maximal hmax
  rwa [offered_silent, add_zero]

/-- Serving any packet in each slot takes as many slots as there are packets. -/
theorem Trace.empties_of_some (h : Trace S inputs (fun _ _ => []) w)
    (hrow : ∀ t p, 0 < (w t).lengths p → ∃ s d,
      S.inMatch (w (t + 1)).scheduler s = some d ∧ 0 < (w t).lengths (s, d)) {T : ℕ}
    (hT : (w 0).totalLength ≤ T) (s : Fin n) (d : Fin m) :
    (w T).switch.getQueueLength s d = 0 := by
  have hzero : (w T).lengths = 0 := by
    refine h.evolves.drained_of_some (fun _ => offered_silent) (fun t p hp => ?_) ?_
    · obtain ⟨s', d', hmatched, hpos⟩ := hrow t p hp
      rw [offered_silent, add_zero]
      refine sum_pos' (fun _ _ => Nat.zero_le _) ⟨(s', d'), mem_univ _, ?_⟩
      rw [servedOf, if_pos ⟨hmatched, hpos⟩]
      exact Nat.one_pos
    · rw [Fintype.sum_prod_type]
      exact hT
  exact congrFun hzero (s, d)

end

end SschedSimulator
