import SschedSimulator.Matching.MaxPropose
import SschedSimulator.Matching.Serena

namespace SschedSimulator

open Foundation

/-!
# `double_max.cc` — the class `EdgeColorDoubleMax`

The weights are a traffic matrix, which the scheduler decomposes into partial matchings.  In every
round each input proposes to the output of its longest queue, and each output accepts the proposal
with the longest queue of those it keeps; the packets matched leave their queues.  Rounds follow
until no packet is left.

* `qps`, `pass`, `schedule` — the operations of the source;
* `Accepted`, `Matched` — the accept phase after some of the outputs, and a whole round;
* `Decomposing` — what holds before every round of the loop;
* `schedule_decomposes_iff` — the whole of `schedule`: the number of all packets must be an `int`.

That number is found first, and no other sum is larger.
-/

namespace EdgeColorDoubleMax

variable {n : ℕ}

/-- The fields that change; `row` is `_schedule`. -/
structure State (n : ℕ) where
  inputQueues : Fin n → MaxPropose n
  row : MatchingRow n
  inputAvailability : Fin n → ℤ
  outputAvailability : Fin n → ℤ

/-- The constructor. -/
def construct (n : ℕ) : State n where
  inputQueues := fun _ => .construct n
  row := fun _ => none
  inputAvailability := fun _ => 1
  outputAvailability := fun _ => 1

/-- `reset`. -/
def reset (st : State n) : State n :=
  { st with
    row := fun _ => none
    inputAvailability := fun _ => 1
    outputAvailability := fun _ => 1 }

/-- `handle_arrivals`. -/
def handleArrivals (weights : Weights n) (st : State n) : State n :=
  { reset st with inputQueues := fun i => (st.inputQueues i).assign (weights i) }

/-- `match_element`. -/
def matchElement (i out : Fin n) (st : State n) : State n where
  inputQueues := Function.update st.inputQueues i ((st.inputQueues i).increment out (-1))
  row := Function.update st.row i (some out)
  inputAvailability := Function.update st.inputAvailability i (st.inputAvailability i - 1)
  outputAvailability := Function.update st.outputAvailability out (st.outputAvailability out - 1)

/-- Step 1 of `qps` for one input. -/
def proposeInput (cutoff : ℕ) (queues : Fin n → MaxPropose n) (outAccepts : Fin n → List (Fin n))
    (i : Fin n) : Except DoubleMaxFault (Fin n → List (Fin n)) :=
  if (queues i).getQueueLength = 0 then .ok outAccepts
  else do
    match ← (queues i).sample with
    | none => .error .noSample
    | some out => do
      require (0 < (queues i).getPacketNumber out) .emptyQueue
      .ok (if (outAccepts out).length < cutoff then
        Function.update outAccepts out (outAccepts out ++ [i]) else outAccepts)

/-- Step 1 of `qps`. -/
def propose (cutoff : ℕ) (queues : Fin n → MaxPropose n) :
    Except DoubleMaxFault (Fin n → List (Fin n)) :=
  (List.finRange n).foldlM (proposeInput cutoff queues) (fun _ => [])

/-- `std::sort` of the proposals to `out`: by queue length, of equal lengths the higher input
    first. -/
def sortProposals (queues : Fin n → MaxPropose n) (out : Fin n) (ins : List (Fin n)) :
    List (Fin n) :=
  ins.insertionSort (fun i j =>
    (queues j).getPacketNumber out < (queues i).getPacketNumber out ∨
      (queues j).getPacketNumber out = (queues i).getPacketNumber out ∧ j ≤ i)

/-- The sorted proposals to `out` in turn. -/
def acceptFrom (out : Fin n) : List (Fin n) → State n → State n
  | [], st => st
  | i :: rest, st =>
    if st.outputAvailability out = 0 then st
    else if st.inputAvailability i = 0 then acceptFrom out rest st
    else acceptFrom out rest (matchElement i out st)

/-- Step 2 of `qps` for one output. -/
def acceptOutput (outAccepts : Fin n → List (Fin n)) (st : State n) (out : Fin n) : State n :=
  if outAccepts out = [] then st
  else acceptFrom out (sortProposals st.inputQueues out (outAccepts out)) st

/-- `qps`. -/
def qps (cutoff : ℕ) (st : State n) : Except DoubleMaxFault (State n) := do
  let outAccepts ← propose cutoff st.inputQueues
  .ok ((List.finRange n).foldl (acceptOutput outAccepts) st)

/-- The object and the variables of `schedule`; `rows` are the values of `_schedule` that debug mode
    writes, one for each round. -/
structure Progress (n : ℕ) where
  object : State n
  packets : ℤ
  round : ℤ
  rows : List (MatchingRow n)

/-- `matrix_sum`: each row is added up, and then added to those before. -/
def matrixSum (weights : Weights n) : Except DoubleMaxFault ℤ :=
  accumulateOf .signedOverflow
    (fun i => accumulate .signedOverflow ((List.finRange n).map (weights i))) (List.finRange n)

/-- What comes before the loop of `schedule`, once the packets have been counted. -/
def start (packets : ℤ) (weights : Weights n) (st : State n) : Progress n where
  object := handleArrivals weights st
  packets := packets
  round := 0
  rows := []

/-- One round of the loop. -/
def pass (cutoff : ℕ) (p : Progress n) : Except DoubleMaxFault (Progress n) := do
  let st ← qps cutoff p.object
  require (0 < Serena.matchingSize st.row) .emptySchedule
  .ok
    { object := reset st
      packets := p.packets - Serena.matchingSize st.row
      round := p.round + 1
      rows := p.rows ++ [st.row] }

/-- The loop, for as many rounds as the fuel allows. -/
def loop (cutoff : ℕ) : ℕ → Progress n → Except DoubleMaxFault (Progress n)
  | 0, p => if 0 < p.packets then .error .unfinished else .ok p
  | fuel + 1, p =>
    if 0 < p.packets then do
      let p' ← pass cutoff p
      loop cutoff fuel p'
    else .ok p

/-- `schedule`, which returns `round`. -/
def schedule (cutoff fuel : ℕ) (weights : Weights n) (st : State n) :
    Except DoubleMaxFault (Progress n) := do
  let packets ← matrixSum weights
  let p ← loop cutoff fuel (start packets weights st)
  require (∀ i, (p.object.inputQueues i).isEmpty) .packetsLeft
  .ok p

/-- Some rounds of the loop. -/
def passes (cutoff : ℕ) : ℕ → Progress n → Except DoubleMaxFault (Progress n)
  | 0, p => .ok p
  | k + 1, p => do
    let p' ← passes cutoff k p
    pass cutoff p'

/-! ### The proposals -/

/-- The proposals when the inputs of `rest` are still to come. -/
structure Proposing (queues : Fin n → MaxPropose n) (rest : List (Fin n))
    (accepts : Fin n → List (Fin n)) : Prop where
  nodup : rest.Nodup
  fresh : ∀ o, ∀ i ∈ accepts o, i ∉ rest
  queued : ∀ o, ∀ i ∈ accepts o, 0 < (queues i).getPacketNumber o
  once : ∀ o o' i, i ∈ accepts o → i ∈ accepts o' → o = o'
  answered : ∀ i, i ∉ rest → (queues i).getQueueLength ≠ 0 → ∃ o, accepts o ≠ []

/-- One input. -/
theorem Proposing.step {cutoff : ℕ} (hcutoff : 1 ≤ cutoff) {queues : Fin n → MaxPropose n}
    (hqueues : ∀ i, (queues i).Valid) {i : Fin n} {rest : List (Fin n)}
    {accepts : Fin n → List (Fin n)} (h : Proposing queues (i :: rest) accepts) :
    Post (proposeInput cutoff queues accepts i) (fun _ => False) (Proposing queues rest) := by
  obtain ⟨hi, hrest⟩ := List.nodup_cons.mp h.nodup
  have hfresh : ∀ o, ∀ j ∈ accepts o, j ∉ rest :=
    fun o j hj hmem => h.fresh o j hj (List.mem_cons_of_mem i hmem)
  have hnew : ∀ o, i ∉ accepts o := fun o hmem => h.fresh o i hmem (List.mem_cons_self ..)
  unfold proposeInput
  split
  · rename_i hzero
    refine ⟨hrest, hfresh, h.queued, h.once, fun j hj hlen => ?_⟩
    have hji : j ≠ i := fun he => hlen (he ▸ hzero)
    exact h.answered j (by simp [hji, hj]) hlen
  · rename_i hlen
    obtain ⟨out, hsample, hpos, -⟩ := (hqueues i).sample_eq_ok hlen
    rw [hsample, ok_bind]
    dsimp only
    rw [require_pos hpos, ok_bind]
    split
    · have hmem : ∀ o j, j ∈ Function.update accepts out (accepts out ++ [i]) o ↔
          j ∈ accepts o ∨ o = out ∧ j = i := by
        intro o j
        by_cases ho : o = out
        · rw [ho, Function.update_self]
          simp
        · rw [Function.update_of_ne ho]
          simp [ho]
      refine ⟨hrest, fun o j hj => ?_, fun o j hj => ?_, fun o o' j hj hj' => ?_,
        fun _ _ _ => ⟨out, by simp⟩⟩
      · rcases (hmem o j).mp hj with hold | ⟨-, rfl⟩
        · exact hfresh o j hold
        · exact hi
      · rcases (hmem o j).mp hj with hold | ⟨rfl, rfl⟩
        · exact h.queued o j hold
        · exact hpos
      · -- Input `i` proposes to `out` only.
        rcases (hmem o j).mp hj with hold | ⟨rfl, rfl⟩ <;>
          rcases (hmem o' j).mp hj' with hold' | ⟨rfl, hji⟩
        · exact h.once o o' j hold hold'
        · exact absurd (hji ▸ hold) (hnew o)
        · exact absurd hold' (hnew o')
        · rfl
    · rename_i hfull
      refine ⟨hrest, hfresh, h.queued, h.once, fun _ _ _ => ⟨out, fun hnil => ?_⟩⟩
      rw [hnil, List.length_nil] at hfull
      omega

/-- The proposals of a round. -/
theorem propose_eq_ok {cutoff : ℕ} (hcutoff : 1 ≤ cutoff) {queues : Fin n → MaxPropose n}
    (hqueues : ∀ i, (queues i).Valid) :
    ∃ accepts, propose cutoff queues = .ok accepts ∧ Proposing queues [] accepts := by
  have hstart : Proposing queues (List.finRange n) (fun _ => []) :=
    ⟨List.nodup_finRange n, fun _ _ hi => absurd hi List.not_mem_nil,
      fun _ _ hi => absurd hi List.not_mem_nil, fun _ _ _ hi => absurd hi List.not_mem_nil,
      fun i hi => absurd (List.mem_finRange i) hi⟩
  exact (Post.foldlM_rest (Proposing queues) _ _ hstart
    (fun i rest accepts h => h.step hcutoff hqueues)).exists_ok (fun _ _ he => he)

/-! ### The matches -/

/-- The accept phase that started in `st₀`, when the outputs of `rest` are still to come. -/
structure Accepted (accepts : Fin n → List (Fin n)) (st₀ : State n) (rest : List (Fin n))
    (st : State n) : Prop where
  valid : ∀ i, (st.inputQueues i).Valid
  counts : ∀ i o, (st.inputQueues i).getPacketNumber o
    = (st₀.inputQueues i).getPacketNumber o - if st.row i = some o then 1 else 0
  matching : IsMatching st.row
  proposed : ∀ i o, st.row i = some o → o ∉ rest ∧ i ∈ accepts o
  served : ∀ o, o ∉ rest → accepts o ≠ [] → ∃ i, st.row i = some o
  inputFree : ∀ i, st.row i = none → st.inputAvailability i = 1
  outputFree : ∀ o ∈ rest, st.outputAvailability o = 1

/-- An output that is free matches the first of its proposals whose input is free. -/
theorem acceptFrom_cons {out i : Fin n} {rest : List (Fin n)} {st : State n}
    (hout : st.outputAvailability out = 1) (hi : st.inputAvailability i = 1) :
    acceptFrom out (i :: rest) st = matchElement i out st := by
  have hdone : (matchElement i out st).outputAvailability out = 0 := by
    show Function.update _ _ _ _ = _
    rw [Function.update_self, hout]
    rfl
  rw [acceptFrom, if_neg (by omega), if_neg (by omega)]
  cases rest with
  | nil => rfl
  | cons j rest => rw [acceptFrom, if_pos hdone]

theorem matchElement_row (i out : Fin n) (st : State n) {j o : Fin n} :
    (matchElement i out st).row j = some o ↔ j = i ∧ o = out ∨ j ≠ i ∧ st.row j = some o := by
  show Function.update st.row i (some out) j = some o ↔ _
  by_cases hj : j = i
  · rw [hj, Function.update_self]
    simp [eq_comm]
  · rw [Function.update_of_ne hj]
    simp [hj]

/-- The packet that is matched leaves its queue. -/
theorem matchElement_getPacketNumber (i out : Fin n) (st : State n) (j o : Fin n) :
    ((matchElement i out st).inputQueues j).getPacketNumber o
      = (st.inputQueues j).getPacketNumber o + if j = i ∧ o = out then -1 else 0 := by
  show (Function.update st.inputQueues i _ j).getPacketNumber o = _
  by_cases hj : j = i
  · subst hj
    rw [Function.update_self, MaxPropose.increment_getPacketNumber]
    simp
  · rw [Function.update_of_ne hj]
    simp [hj]

section

variable {accepts : Fin n → List (Fin n)} {st₀ st : State n} {out : Fin n} {rest : List (Fin n)}

/-- An output without proposals is passed over. -/
theorem Accepted.skip (h : Accepted accepts st₀ (out :: rest) st) (hnil : accepts out = []) :
    Accepted accepts st₀ rest st where
  valid := h.valid
  counts := h.counts
  matching := h.matching
  proposed := by
    intro i o hio
    obtain ⟨hmem, hprop⟩ := h.proposed i o hio
    exact ⟨fun ho => hmem (List.mem_cons_of_mem out ho), hprop⟩
  served := by
    intro o ho hne
    have hoo : o ≠ out := fun he => hne (he ▸ hnil)
    exact h.served o (by simp [hoo, ho]) hne
  inputFree := h.inputFree
  outputFree := fun o ho => h.outputFree o (List.mem_cons_of_mem out ho)

/-- An output that has not been served yet is matched to an input that is free. -/
theorem Accepted.serve (h : Accepted accepts st₀ (out :: rest) st) (hnew : out ∉ rest) {i : Fin n}
    (hi : i ∈ accepts out) (hfree : st.row i = none)
    (hcount : 0 < (st.inputQueues i).getPacketNumber out) :
    Accepted accepts st₀ rest (matchElement i out st) where
  valid := by
    intro j
    show (Function.update st.inputQueues i _ j).Valid
    by_cases hj : j = i
    · rw [hj, Function.update_self]
      exact MaxPropose.increment_valid (h.valid i) (by omega)
    · rw [Function.update_of_ne hj]
      exact h.valid j
  counts := by
    intro j o
    rw [matchElement_getPacketNumber, h.counts]
    by_cases hj : j = i
    · subst hj
      simp only [matchElement_row, hfree, true_and, ne_eq, not_true_eq_false, false_and, or_false,
        reduceCtorEq, if_false]
      split <;> omega
    · simp [matchElement_row, hj]
  matching := h.matching.update (fun j hj => (h.proposed j out hj).1 (List.mem_cons_self ..))
  proposed := by
    intro j o hjo
    rcases (matchElement_row i out st).mp hjo with ⟨rfl, rfl⟩ | ⟨-, hold⟩
    · exact ⟨hnew, hi⟩
    · obtain ⟨hmem, hprop⟩ := h.proposed j o hold
      exact ⟨fun ho => hmem (List.mem_cons_of_mem out ho), hprop⟩
  served := by
    intro o ho hne
    by_cases hoo : o = out
    · exact ⟨i, (matchElement_row i out st).mpr (.inl ⟨rfl, hoo⟩)⟩
    · obtain ⟨j, hj⟩ := h.served o (by simp [hoo, ho]) hne
      refine ⟨j, (matchElement_row i out st).mpr (.inr ⟨fun hji => ?_, hj⟩)⟩
      rw [hji, hfree] at hj
      cases hj
  inputFree := by
    intro j hj
    -- an input that is free now is another one
    by_cases hji : j = i
    · rw [hji, (matchElement_row i out st).mpr (.inl ⟨rfl, rfl⟩)] at hj
      cases hj
    · have hold : st.row j = none := by
        rwa [show (matchElement i out st).row j = st.row j from Function.update_of_ne hji _ _] at hj
      show Function.update st.inputAvailability i _ j = 1
      rw [Function.update_of_ne hji]
      exact h.inputFree j hold
  outputFree := by
    intro o ho
    have hoo : o ≠ out := fun he => hnew (he ▸ ho)
    show Function.update st.outputAvailability out _ o = 1
    rw [Function.update_of_ne hoo]
    exact h.outputFree o (List.mem_cons_of_mem out ho)

/-- One output. -/
theorem Accepted.step (hproposing : Proposing st₀.inputQueues [] accepts)
    (hrest : (out :: rest).Nodup) (h : Accepted accepts st₀ (out :: rest) st) :
    Accepted accepts st₀ rest (acceptOutput accepts st out) := by
  unfold acceptOutput
  split
  · exact h.skip ‹_›
  · rename_i hne
    have hmem : ∀ i, i ∈ sortProposals st.inputQueues out (accepts out) ↔ i ∈ accepts out :=
      fun i => List.mem_insertionSort _
    cases hsorted : sortProposals st.inputQueues out (accepts out) with
    | nil =>
      refine absurd (List.eq_nil_iff_forall_not_mem.mpr (fun i hi => ?_)) hne
      rw [← hmem i, hsorted] at hi
      exact List.not_mem_nil hi
    | cons i others =>
      have hi : i ∈ accepts out := (hmem i).mp (by rw [hsorted]; exact List.mem_cons_self ..)
      -- An input that is matched has proposed to another output.
      have hfree : st.row i = none := by
        rw [Option.eq_none_iff_forall_ne_some]
        intro o hio
        obtain ⟨hrest', hprop⟩ := h.proposed i o hio
        rw [hproposing.once o out i hprop hi] at hrest'
        exact hrest' (List.mem_cons_self ..)
      have hcount : 0 < (st.inputQueues i).getPacketNumber out := by
        rw [h.counts, hfree, if_neg (by simp), sub_zero]
        exact hproposing.queued out i hi
      rw [acceptFrom_cons (h.outputFree out (List.mem_cons_self ..)) (h.inputFree i hfree)]
      exact h.serve (List.nodup_cons.mp hrest).1 hi hfree hcount

/-- All outputs. -/
theorem Accepted.foldl (hproposing : Proposing st₀.inputQueues [] accepts) (hrest : rest.Nodup)
    (h : Accepted accepts st₀ rest st) :
    Accepted accepts st₀ [] (rest.foldl (acceptOutput accepts) st) := by
  induction rest generalizing st with
  | nil => exact h
  | cons out rest ih => exact ih (List.nodup_cons.mp hrest).2 (h.step hproposing hrest)

end

/-! ### A round -/

/-- Between two rounds nothing is matched and every queue is in its tree. -/
structure Ready (st : State n) : Prop where
  valid : ∀ i, (st.inputQueues i).Valid
  row : ∀ i, st.row i = none
  inputFree : ∀ i, st.inputAvailability i = 1
  outputFree : ∀ o, st.outputAvailability o = 1

/-- The number of packets that are queued. -/
def queued (st : State n) : ℤ := ∑ i, ∑ o, (st.inputQueues i).getPacketNumber o

/-- A round from `st` to `st'`: its row is a partial matching of queued packets, not empty, and its
    packets are gone. -/
structure Matched (st st' : State n) (row : MatchingRow n) : Prop where
  ready : Ready st'
  matching : IsMatching row
  nonempty : ∃ i o, row i = some o
  available : ∀ i o, row i = some o → 0 < (st.inputQueues i).getPacketNumber o
  counts : ∀ i o, (st'.inputQueues i).getPacketNumber o
    = (st.inputQueues i).getPacketNumber o - if row i = some o then 1 else 0

/-- A round takes as many packets as its row matches. -/
theorem Matched.queued_eq {st st' : State n} {row : MatchingRow n} (h : Matched st st' row) :
    queued st' = queued st - matchSize row := by
  unfold queued
  simp only [h.counts, Finset.sum_sub_distrib]
  rw [sum_pairs_eq]

/-- A round with packets matches some of them. -/
theorem pass_eq_ok {cutoff : ℕ} (hcutoff : 1 ≤ cutoff) {p : Progress n} (hready : Ready p.object)
    (hpos : 0 < queued p.object) :
    ∃ st' row, Matched p.object st' row ∧ pass cutoff p = .ok
      { object := st'
        packets := p.packets - matchSize row
        round := p.round + 1
        rows := p.rows ++ [row] } := by
  obtain ⟨accepts, hpropose, hproposing⟩ := propose_eq_ok hcutoff hready.valid
  have hstart : Accepted accepts p.object (List.finRange n) p.object :=
    ⟨hready.valid, fun i o => by rw [hready.row i, if_neg (by simp), sub_zero],
      fun i _ o hi _ => absurd ((hready.row i).symm.trans hi) (by simp),
      fun i o hi => absurd ((hready.row i).symm.trans hi) (by simp),
      fun o ho => absurd (List.mem_finRange o) ho, fun i _ => hready.inputFree i,
      fun o _ => hready.outputFree o⟩
  have hdone := hstart.foldl hproposing (List.nodup_finRange n)
  generalize hst : (List.finRange n).foldl (acceptOutput accepts) p.object = st at hdone
  -- Some input has a packet, so some output has a proposal.
  obtain ⟨i, -, hi⟩ := Finset.exists_ne_zero_of_sum_ne_zero (ne_of_gt hpos)
  obtain ⟨o, ho⟩ := hproposing.answered i List.not_mem_nil
    (by rw [(hready.valid i).getQueueLength_eq]; exact hi)
  obtain ⟨j, hj⟩ := hdone.served o List.not_mem_nil ho
  have hsize := matchSize_pos hj
  refine ⟨reset st, st.row, ⟨⟨hdone.valid, fun _ => rfl, fun _ => rfl, fun _ => rfl⟩,
    hdone.matching, ⟨j, o, hj⟩, fun i o hio => ?_, hdone.counts⟩, ?_⟩
  · exact hproposing.queued o i (hdone.proposed i o hio).2
  · unfold pass qps
    rw [hpropose, ok_bind, ok_bind, hst, Serena.matchingSize_eq hdone.matching,
      require_pos (by exact_mod_cast hsize), ok_bind]

/-! ### The loop -/

/-- How often a pair is scheduled. -/
def timesScheduled (rows : List (MatchingRow n)) (i o : Fin n) : ℕ :=
  rows.countP (fun row => decide (row i = some o))

theorem timesScheduled_append (rows : List (MatchingRow n)) (row : MatchingRow n) (i o : Fin n) :
    (timesScheduled (rows ++ [row]) i o : ℤ)
      = timesScheduled rows i o + if row i = some o then 1 else 0 := by
  rw [timesScheduled, List.countP_append, List.countP_singleton]
  by_cases h : row i = some o <;> simp [timesScheduled, h]

/-- An input sends at most one packet in each round. -/
theorem sum_timesScheduled_left_le (rows : List (MatchingRow n)) (i : Fin n) :
    ∑ o, (timesScheduled rows i o : ℤ) ≤ rows.length := by
  induction rows using List.reverseRecOn with
  | nil => simp [timesScheduled]
  | append_singleton rows row ih =>
    simp only [timesScheduled_append, Finset.sum_add_distrib, List.length_append,
      List.length_singleton, Nat.cast_add, Nat.cast_one]
    refine add_le_add ih ((sum_pairs_left row i).trans_le ?_)
    split <;> simp

/-- An output gets at most one packet in each round. -/
theorem sum_timesScheduled_right_le {rows : List (MatchingRow n)}
    (hrows : ∀ row ∈ rows, IsMatching row) (o : Fin n) :
    ∑ i, (timesScheduled rows i o : ℤ) ≤ rows.length := by
  induction rows using List.reverseRecOn with
  | nil => simp [timesScheduled]
  | append_singleton rows row ih =>
    simp only [timesScheduled_append, Finset.sum_add_distrib, List.length_append,
      List.length_singleton, Nat.cast_add, Nat.cast_one]
    exact add_le_add (ih (fun r hr => hrows r (List.mem_append_left _ hr)))
      (sum_pairs_right_le (hrows row (by simp)) o)

/-- Before every round, and after the last one: what has been scheduled is missing from the queues,
    and the rows are those of the rounds so far. -/
structure Decomposing (cutoff : ℕ) (weights : Weights n) (st : State n) (p : Progress n) :
    Prop where
  ready : Ready p.object
  counts : ∀ i o, (p.object.inputQueues i).getPacketNumber o
    = weights i o - timesScheduled p.rows i o
  packets : p.packets = queued p.object
  round : p.round = p.rows.length
  progress : p.round + p.packets ≤ ∑ i, ∑ o, weights i o
  run : passes cutoff p.rows.length (start (∑ i, ∑ o, weights i o) weights st) = .ok p
  rounds : ∀ k row, p.rows[k]? = some row → IsMatching row ∧ (∃ i o, row i = some o) ∧
    ∃ before after, passes cutoff k (start (∑ i, ∑ o, weights i o) weights st) = .ok before ∧
      pass cutoff before = .ok after ∧ before.rows = p.rows.take k ∧
      after.rows = p.rows.take (k + 1) ∧
      ∀ i o, row i = some o → 0 < (before.object.inputQueues i).getPacketNumber o

section

variable {cutoff : ℕ} {weights : Weights n} {st : State n} {p : Progress n}

/-- One round. -/
theorem Decomposing.step (hcutoff : 1 ≤ cutoff) (h : Decomposing cutoff weights st p)
    (hpos : 0 < p.packets) :
    ∃ p', pass cutoff p = .ok p' ∧ Decomposing cutoff weights st p' ∧ p'.packets < p.packets := by
  obtain ⟨st', row, hmatched, hrun⟩ := pass_eq_ok hcutoff h.ready (h.packets ▸ hpos)
  obtain ⟨i, o, hio⟩ := hmatched.nonempty
  have hsize := matchSize_pos hio
  refine ⟨_, hrun, ⟨hmatched.ready, fun i o => ?_, ?_, ?_, ?_, ?_, fun k r hr => ?_⟩, ?_⟩
  · rw [hmatched.counts, h.counts, timesScheduled_append]
    omega
  · rw [hmatched.queued_eq, h.packets]
  · rw [List.length_append, List.length_singleton, h.round, Nat.cast_succ]
  · have hle := h.progress
    dsimp only
    omega
  · rw [List.length_append, List.length_singleton, passes, h.run, ok_bind, hrun]
  · dsimp only at hr ⊢
    rcases Nat.lt_or_ge k p.rows.length with hlt | hge
    · -- a row of an earlier round
      rw [List.getElem?_append_left hlt] at hr
      rw [List.take_append_of_le_length hlt.le, List.take_append_of_le_length hlt]
      exact h.rounds k r hr
    · rw [List.getElem?_append_right hge] at hr
      obtain ⟨hk, hget⟩ := List.getElem?_eq_some_iff.mp hr
      rw [List.length_singleton] at hk
      obtain rfl : k = p.rows.length := by omega
      simp only [Nat.sub_self, List.getElem_cons_zero] at hget
      subst hget
      refine ⟨hmatched.matching, hmatched.nonempty, p, _, h.run, hrun, ?_, ?_, hmatched.available⟩
      · exact (List.take_left).symm
      · exact (List.take_of_length_le (by simp)).symm
  · dsimp only
    omega

/-- The loop ends when no packet is left. -/
theorem Decomposing.loop (hcutoff : 1 ≤ cutoff) (h : Decomposing cutoff weights st p) {fuel : ℕ}
    (hfuel : p.packets ≤ fuel) :
    ∃ p', loop cutoff fuel p = .ok p' ∧ Decomposing cutoff weights st p' ∧ p'.packets ≤ 0 := by
  induction fuel generalizing p with
  | zero =>
    have hle : ¬ 0 < p.packets := by simpa using hfuel
    exact ⟨p, by rw [EdgeColorDoubleMax.loop, if_neg hle], h, not_lt.mp hle⟩
  | succ fuel ih =>
    rw [EdgeColorDoubleMax.loop]
    split
    · rename_i hpos
      obtain ⟨p₁, hrun, h₁, hlt⟩ := h.step hcutoff hpos
      rw [hrun, ok_bind]
      exact ih h₁ (by push_cast at hfuel; omega)
    · rename_i hle
      exact ⟨p, rfl, h, not_lt.mp hle⟩

end

/-! ### Objects in use -/

/-- The objects that calls of the public functions lead to. -/
inductive Reachable (cutoff : ℕ) : State n → Prop where
  | construct : Reachable cutoff (construct n)
  | reset {st : State n} : Reachable cutoff st → Reachable cutoff (reset st)
  | handleArrivals {st : State n} (weights : Weights n) :
      Reachable cutoff st → Reachable cutoff (handleArrivals weights st)
  | schedule {st : State n} {p : Progress n} (fuel : ℕ) (weights : Weights n) :
      Reachable cutoff st → schedule cutoff fuel weights st = .ok p → Reachable cutoff p.object

/-- The positions that hold no queue are zero. -/
def Spares (st : State n) : Prop := ∀ i, (st.inputQueues i).Spare

theorem Spares.handleArrivals {st : State n} (h : Spares st) (weights : Weights n) :
    Spares (handleArrivals weights st) := fun i => (h i).assign (weights i)

theorem Spares.matchElement {st : State n} (h : Spares st) (i out : Fin n) :
    Spares (matchElement i out st) := by
  intro j
  show (Function.update st.inputQueues i _ j).Spare
  by_cases hj : j = i
  · rw [hj, Function.update_self]
    exact (h i).increment out (-1)
  · rw [Function.update_of_ne hj]
    exact h j

theorem Spares.acceptFrom {st : State n} (h : Spares st) (out : Fin n) (ins : List (Fin n)) :
    Spares (acceptFrom out ins st) := by
  induction ins generalizing st with
  | nil => exact h
  | cons i rest ih =>
    unfold EdgeColorDoubleMax.acceptFrom
    split
    · exact h
    · split
      · exact ih h
      · exact ih (h.matchElement i out)

theorem Spares.acceptOutputs {st : State n} (h : Spares st) (accepts : Fin n → List (Fin n))
    (outs : List (Fin n)) : Spares (outs.foldl (acceptOutput accepts) st) := by
  induction outs generalizing st with
  | nil => exact h
  | cons out rest ih =>
    refine ih ?_
    unfold acceptOutput
    split
    · exact h
    · exact h.acceptFrom out _

theorem Spares.pass {cutoff : ℕ} {p p' : Progress n} (h : Spares p.object)
    (hrun : pass cutoff p = .ok p') : Spares p'.object := by
  obtain ⟨st, hqps, hrest⟩ := bind_eq_ok.mp hrun
  obtain ⟨accepts, -, hst⟩ := bind_eq_ok.mp hqps
  obtain ⟨-, -, hp'⟩ := bind_eq_ok.mp hrest
  cases hst
  cases hp'
  exact h.acceptOutputs accepts (List.finRange n)

theorem Spares.loop {cutoff fuel : ℕ} {p p' : Progress n} (h : Spares p.object)
    (hrun : loop cutoff fuel p = .ok p') : Spares p'.object := by
  induction fuel generalizing p with
  | zero =>
    unfold EdgeColorDoubleMax.loop at hrun
    split at hrun
    · cases hrun
    · cases hrun
      exact h
  | succ fuel ih =>
    unfold EdgeColorDoubleMax.loop at hrun
    split at hrun
    · obtain ⟨p₁, hpass, hloop⟩ := bind_eq_ok.mp hrun
      exact ih (h.pass hpass) hloop
    · cases hrun
      exact h

theorem Reachable.spares {cutoff : ℕ} {st : State n} (h : Reachable cutoff st) : Spares st := by
  induction h with
  | construct => exact fun _ => MaxPropose.spare_construct n
  | reset _ ih => exact ih
  | handleArrivals weights _ ih => exact ih.handleArrivals weights
  | schedule fuel weights _ hrun ih =>
    obtain ⟨packets, -, hrest⟩ := bind_eq_ok.mp hrun
    obtain ⟨p, hloop, hrest⟩ := bind_eq_ok.mp hrest
    obtain ⟨-, -, hp⟩ := bind_eq_ok.mp hrest
    cases hp
    exact (ih.handleArrivals weights).loop hloop

/-! ### The decomposition -/

/-- The loop starts with the whole matrix. -/
theorem Decomposing.start (cutoff : ℕ) {st : State n} (h : Spares st) {weights : Weights n}
    (hweights : ∀ i o, 0 ≤ weights i o) :
    Decomposing cutoff weights st (start (∑ i, ∑ o, weights i o) weights st) := by
  have hassign := fun i => MaxPropose.assign_valid (h i) (hweights i)
  have hcount : ∀ i o, ((handleArrivals weights st).inputQueues i).getPacketNumber o
      = weights i o := fun i o => (hassign i).2 o
  refine ⟨⟨fun i => (hassign i).1, fun _ => rfl, fun _ => rfl, fun _ => rfl⟩, fun i o => ?_, ?_,
    rfl, ?_, rfl, fun k row hrow => nomatch hrow⟩
  · exact (hcount i o).trans (sub_zero _).symm
  · show ∑ i, ∑ o, weights i o = ∑ i, ∑ o, ((handleArrivals weights st).inputQueues
      i).getPacketNumber o
    simp only [hcount]
  · exact (zero_add _).le

theorem matrixSum_of_nonneg {weights : Weights n} (hweights : ∀ i o, 0 ≤ weights i o) :
    matrixSum weights = if ∑ i, ∑ o, weights i o ≤ largestInt
      then .ok (∑ i, ∑ o, weights i o) else .error .signedOverflow :=
  accumulateOf_finRange hweights

/-- What is claimed of a traffic matrix: `schedule` decomposes it into partial matchings.  It ends
    within as many rounds as there are packets; every round matches packets that are still queued, and
    at least one; every packet is scheduled once; and there are at least as many rounds as packets in
    a row or in a column. -/
def Decomposes (cutoff : ℕ) (weights : Weights n) (st : State n) : Prop :=
  ∀ fuel : ℕ, ∑ i, ∑ o, weights i o ≤ fuel → ∃ p, schedule cutoff fuel weights st = .ok p ∧
    (∀ k row, p.rows[k]? = some row → IsMatching row ∧ (∃ i o, row i = some o) ∧
      ∃ before after, passes cutoff k (start (∑ i, ∑ o, weights i o) weights st) = .ok before ∧
        pass cutoff before = .ok after ∧ before.rows = p.rows.take k ∧
        after.rows = p.rows.take (k + 1) ∧
        ∀ i o, row i = some o → 0 < (before.object.inputQueues i).getPacketNumber o) ∧
    (∀ i o, (timesScheduled p.rows i o : ℤ) = weights i o) ∧
    (∀ i, (p.object.inputQueues i).isEmpty) ∧
    p.round = p.rows.length ∧
    (∀ i, ∑ o, weights i o ≤ p.round) ∧ (∀ o, ∑ i, weights i o ≤ p.round) ∧
    p.round ≤ ∑ i, ∑ o, weights i o

/-- A matrix whose packets can be counted. -/
theorem decomposes {cutoff : ℕ} (hcutoff : 1 ≤ cutoff) {st : State n} (hst : Reachable cutoff st)
    {weights : Weights n} (hweights : ∀ i o, 0 ≤ weights i o)
    (hfits : ∑ i, ∑ o, weights i o ≤ largestInt) : Decomposes cutoff weights st := by
  intro fuel hfuel
  obtain ⟨p, hloop, h, hdone⟩ :=
    (Decomposing.start cutoff hst.spares hweights).loop hcutoff hfuel
  have hnonneg : ∀ i o, 0 ≤ (p.object.inputQueues i).getPacketNumber o :=
    fun i o => (h.ready.valid i).nonneg o
  -- No packet is left, so every queue is empty.
  have hzero : queued p.object = 0 := by
    refine le_antisymm (h.packets ▸ hdone) ?_
    exact Finset.sum_nonneg (fun i _ => Finset.sum_nonneg (fun o _ => hnonneg i o))
  have hempty : ∀ i o, (p.object.inputQueues i).getPacketNumber o = 0 := by
    intro i o
    have hrow := (Finset.sum_eq_zero_iff_of_nonneg
      (fun i _ => Finset.sum_nonneg (fun o _ => hnonneg i o))).mp hzero i (Finset.mem_univ i)
    exact (Finset.sum_eq_zero_iff_of_nonneg (fun o _ => hnonneg i o)).mp hrow o (Finset.mem_univ o)
  have htimes : ∀ i o, (timesScheduled p.rows i o : ℤ) = weights i o := by
    intro i o
    have hcount := h.counts i o
    rw [hempty] at hcount
    omega
  have hisEmpty : ∀ i, (p.object.inputQueues i).isEmpty :=
    fun i => (h.ready.valid i).isEmpty (hempty i)
  refine ⟨p, ?_, h.rounds, htimes, hisEmpty, h.round, fun i => ?_, fun o => ?_, ?_⟩
  · rw [schedule, matrixSum_of_nonneg hweights, if_pos hfits, ok_bind, hloop, ok_bind,
      require_pos hisEmpty, ok_bind]
  · rw [h.round, ← Finset.sum_congr rfl (fun o _ => htimes i o)]
    exact sum_timesScheduled_left_le p.rows i
  · rw [h.round, ← Finset.sum_congr rfl (fun i _ => htimes i o)]
    refine sum_timesScheduled_right_le (fun row hrow => ?_) o
    obtain ⟨k, hk⟩ := List.mem_iff_getElem?.mp hrow
    exact (h.rounds k row hk).1
  · have hle := h.progress
    rw [h.packets, hzero] at hle
    omega

/-- A matrix with more packets: the sum overflows before the first round. -/
theorem schedule_eq_error {weights : Weights n} (hweights : ∀ i o, 0 ≤ weights i o)
    (hfits : ¬ ∑ i, ∑ o, weights i o ≤ largestInt) (cutoff fuel : ℕ) (st : State n) :
    schedule cutoff fuel weights st = .error .signedOverflow := by
  rw [schedule, matrixSum_of_nonneg hweights, if_neg hfits, error_bind]

theorem le_of_decomposes {cutoff : ℕ} {weights : Weights n} (hweights : ∀ i o, 0 ≤ weights i o)
    {st : State n} (h : Decomposes cutoff weights st) :
    ∑ i, ∑ o, weights i o ≤ largestInt := by
  by_contra hfits
  obtain ⟨p, hrun, -⟩ := h (∑ i, ∑ o, weights i o).toNat (Int.self_le_toNat _)
  rw [schedule_eq_error hweights hfits] at hrun
  cases hrun

/-- A matrix of packet numbers is decomposed as claimed exactly if the number of all packets is in
    the range of `int`. -/
theorem schedule_decomposes_iff {cutoff : ℕ} (hcutoff : 1 ≤ cutoff) {st : State n}
    (hst : Reachable cutoff st) {weights : Weights n} (hweights : ∀ i o, 0 ≤ weights i o) :
    Decomposes cutoff weights st ↔ ∑ i, ∑ o, weights i o ≤ largestInt :=
  ⟨le_of_decomposes hweights, decomposes hcutoff hst hweights⟩

/-- A matrix of six packets whose rows have three each. -/
theorem schedule_decomposes_six :
    let weights : Weights 2 := fun i o => if i = o then 2 else 1
    ∃ p, schedule 1 6 weights (construct 2) = .ok p ∧
      (∀ i o, (timesScheduled p.rows i o : ℤ) = weights i o) ∧ 3 ≤ p.round ∧ p.round ≤ 6 := by
  intro weights
  have hdecomposes := (schedule_decomposes_iff (le_refl 1) (.construct : Reachable 1 (construct 2))
    (show ∀ i o, 0 ≤ weights i o by decide)).mpr (by decide)
  obtain ⟨p, hrun, -, htimes, -, -, hrow, -, hle⟩ := hdecomposes 6 (by decide)
  exact ⟨p, hrun, htimes, hrow 0, hle⟩

/-- The largest `int` and one packet more: no round is made. -/
theorem matrixSum_overflows :
    let weights : Weights 2 := fun i o => if i = o then (if i = 0 then 2147483647 else 1) else 0
    (∀ fuel, schedule 1 fuel weights (construct 2) = .error .signedOverflow) ∧
      ¬ Decomposes 1 weights (construct 2) := by
  intro weights
  have hweights : ∀ i o, 0 ≤ weights i o := by decide
  have hfits : ¬ ∑ i, ∑ o, weights i o ≤ largestInt := by decide
  exact ⟨fun fuel => schedule_eq_error hweights hfits 1 fuel _,
    fun h => hfits (le_of_decomposes hweights h)⟩

end EdgeColorDoubleMax

end SschedSimulator
