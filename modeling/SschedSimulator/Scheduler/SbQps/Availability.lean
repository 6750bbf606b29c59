import SschedSimulator.Scheduler.SbQps.Batch

namespace SschedSimulator

open Foundation

/-!
# `sb_qps.cc` — the rounds with availability counters

`SB_QPS_HalfHalf_AvailabilityAware`, `SB_QPS_Adaptive`, `SB_QPS_HalfHalf_MI` and
`SB_QPS_ThreeThird_MI` have the same round: each output gives the current slot to the first
proposal of its list and then walks over the proposals, sorted by VOQ length, from the second
one on, giving each the latest earlier slot that is free for both ports.  They differ in how
many proposals an output may accept and in how often the round is run.

* `round` — the round, for given `maxAccepts`;
* `acceptAll_post` — its accept phase: the cells of the current slot are overwritten by the
  inputs served there, whatever they hold, and an invariant of the other rows is kept.
-/

namespace SbQps

variable {n m : ℕ}

namespace Availability

/-- The state of the schedulers with these rounds. -/
abbrev State (n m : ℕ) := SbState (Booking n m) n m

/-- Their constructors. -/
def initial : State n m := SbState.initial (Booking.empty 0)

/-- Step 1: an output that may accept several proposals records all of them in the order in which
    they come, any other only the longest. -/
def keepProposal (maxAccepts : Fin m → ℤ) (voqLength : Fin n → Fin m → ℤ) (i : Fin n)
    (out : Fin m) (outAccepts : List (Fin n)) : List (Fin n) :=
  if maxAccepts out > 1 then outAccepts ++ [i] else keepLongest voqLength i out outAccepts

/-- Step 1 of `qps`. -/
def proposeAll (maxAccepts : Fin m → ℤ) (draws : TreeDraws n m) (voq : VoqState n m) :
    Except Fault (Fin m → List (Fin n)) :=
  propose voq.getQueueLengthForInput voq.voqLength (draws.outputs voq.bst)
    (keepProposal maxAccepts voq.voqLength) draws.shuffle.val (fun _ => [])

/-- Assign the current slot to the first proposal of the list. -/
def serveNow (timeSlot : ℕ) (out : Fin m) (i : Fin n) (acc : Accepting n m) :
    Except Fault (Accepting n m) := do
  let r ← acc.toReservations.assignNow timeSlot i out
  .ok
    { toBooking := { acc.toBooking with toReservations := r }
      virtualDepartures := acc.virtualDepartures ++ [(i, out)] }

/-- The proposals that may get an earlier slot: those at the positions from `1` up to `maxAccepts`
    after the list is sorted by VOQ length. -/
def remaining (sort : DescSort (Fin n)) (voqLength : Fin n → Fin m → ℤ) (maxAccepts : ℤ)
    (out : Fin m) (ins : List (Fin n)) : List (Fin n) :=
  ((sort.run (fun i => voqLength i out) ins).take maxAccepts.toNat).drop 1

/-- The body of the accept loop for one output. -/
def acceptOutput (sort : DescSort (Fin n)) (voqLength : Fin n → Fin m → ℤ)
    (maxAccepts : Fin m → ℤ) (timeSlot : ℕ) (outAccepts : Fin m → List (Fin n))
    (acc : Accepting n m) (out : Fin m) : Except Fault (Accepting n m) :=
  match outAccepts out with
  | [] => .ok acc
  | i :: rest => do
    -- the first proposal is served before the list is sorted
    let acc' ← serveNow timeSlot out i acc
    if maxAccepts out > 1 then
      acc'.acceptLoop (fun available => decide (available > 0)) false (earlierFrames timeSlot) out
        (remaining sort voqLength (maxAccepts out) out (i :: rest))
    else .ok acc'

/-- Step 2 of `qps`. -/
def acceptAll (sort : DescSort (Fin n)) (voqLength : Fin n → Fin m → ℤ) (maxAccepts : Fin m → ℤ)
    (timeSlot : ℕ) (outAccepts : Fin m → List (Fin n)) (tables : Booking n m) :
    Except Fault (Accepting n m) :=
  (List.finRange m).foldlM (acceptOutput sort voqLength maxAccepts timeSlot outAccepts)
    { toBooking := tables, virtualDepartures := [] }

/-- The end of a round: the slot becomes available to the ports that are not matched in it. -/
def countUnmatched (timeSlot : ℕ) (outMatch : Fin m → Option (Fin n)) (b : Booking n m) :
    Booking n m where
  toReservations := b.toReservations
  inputAvailability := fun i =>
    if b.schedules timeSlot i = none then b.inputAvailability i + 1 else b.inputAvailability i
  outputAvailability := fun o =>
    if outMatch o = none then b.outputAvailability o + 1 else b.outputAvailability o

/-- `qps`, with the number of proposals that each output may accept; the first proposal of an
    output is its `out_match`. -/
def round (sort : DescSort (Fin n)) (maxAccepts : Fin m → ℤ) (draws : TreeDraws n m)
    (timeSlot : ℕ) (core : Core (Booking n m) n m) : Except Fault (Core (Booking n m) n m) := do
  let outAccepts ← proposeAll maxAccepts draws core.voq
  let acc ← acceptAll sort core.voq.voqLength maxAccepts timeSlot outAccepts core.tables
  let voq ← core.voq.handlePacketDepartures acc.virtualDepartures
  .ok
    { tables := countUnmatched timeSlot (fun out => (outAccepts out).head?) acc.toBooking
      voq := voq }

/-! ### The proposals -/

/-- The inputs that propose to `out`, in shuffled order. -/
def proposersOf (draws : TreeDraws n m) (voq : VoqState n m) (out : Fin m) : List (Fin n) :=
  proposers voq.getQueueLengthForInput (draws.outputs voq.bst) draws.shuffle.val out

/-- The list `outAccepts[out]` after Step 1. -/
def accepted (maxAccepts : Fin m → ℤ) (draws : TreeDraws n m) (voq : VoqState n m)
    (out : Fin m) : List (Fin n) :=
  (proposersOf draws voq out).foldl (fun k i => keepProposal maxAccepts voq.voqLength i out k) []

/-- The input to which `out` gives the current slot. -/
def served (maxAccepts : Fin m → ℤ) (draws : TreeDraws n m) (voq : VoqState n m)
    (out : Fin m) : Option (Fin n) := (accepted maxAccepts draws voq out).head?

/-- An output that may accept several proposals records all of them. -/
theorem accepted_of_many {maxAccepts : Fin m → ℤ} {draws : TreeDraws n m} {voq : VoqState n m}
    {out : Fin m} (h : maxAccepts out > 1) :
    accepted maxAccepts draws voq out = proposersOf draws voq out := by
  have happ : ∀ ins k : List (Fin n),
      ins.foldl (fun k i => keepProposal maxAccepts voq.voqLength i out k) k = k ++ ins := by
    intro ins
    induction ins with
    | nil => simp
    | cons i rest ih =>
      intro k
      rw [List.foldl_cons, ih, keepProposal, if_pos h, List.append_assoc, List.singleton_append]
  exact (happ _ []).trans (List.nil_append _)

/-- An output with a proposal records at least one. -/
theorem accepted_ne_nil {maxAccepts : Fin m → ℤ} {draws : TreeDraws n m} {voq : VoqState n m}
    {out : Fin m} (h : proposersOf draws voq out ≠ []) :
    accepted maxAccepts draws voq out ≠ [] := by
  -- Whatever was recorded before it, the last proposal leaves a list that is not empty.
  obtain ⟨ins, i, hins⟩ := List.eq_nil_or_concat (proposersOf draws voq out) |>.resolve_left h
  unfold accepted
  rw [hins, List.concat_eq_append, List.foldl_append, List.foldl_cons, List.foldl_nil]
  unfold keepProposal
  split
  · exact List.append_ne_nil_of_right_ne_nil _ (List.cons_ne_nil i [])
  · unfold keepLongest
    split
    · exact List.cons_ne_nil i []
    · split <;> exact List.cons_ne_nil _ _

/-- An input with a packet samples an output, to which it therefore proposes. -/
theorem exists_proposer {draws : TreeDraws n m} {voq : VoqState n m}
    (hgood : draws.Good voq.bst voq.voqLength) (hexact : voq.Exact)
    (hpacket : ¬ ∀ i o, voq.voqLength i o = 0) : ∃ out, proposersOf draws voq out ≠ [] := by
  obtain ⟨i, hi⟩ := not_forall.mp hpacket
  have hlen : voq.getQueueLengthForInput i ≠ 0 :=
    fun hzero => hi ((hexact.getQueueLengthForInput_eq_zero i).mp hzero)
  obtain ⟨out, hout, -⟩ := hgood i hlen
  refine ⟨out, List.ne_nil_of_mem (a := i) ?_⟩
  exact mem_proposers.mpr ⟨draws.shuffle.mem i, hlen, hout⟩

/-- Without packets there are no proposals. -/
theorem accepted_eq_nil {maxAccepts : Fin m → ℤ} {draws : TreeDraws n m} {voq : VoqState n m}
    (h : ∀ i, voq.getQueueLengthForInput i = 0) (out : Fin m) :
    accepted maxAccepts draws voq out = [] := by
  have hnone : proposersOf draws voq out = [] :=
    List.filter_eq_nil_iff.mpr (fun i _ => by simp [h i])
  rw [accepted, hnone, List.foldl_nil]

/-- What an output records are distinct proposals. -/
theorem accepted_subperm (maxAccepts : Fin m → ℤ) (draws : TreeDraws n m) (voq : VoqState n m)
    (out : Fin m) : (accepted maxAccepts draws voq out).Subperm (proposersOf draws voq out) := by
  have hkeep : ∀ (i : Fin n) (k : List (Fin n)),
      (keepProposal maxAccepts voq.voqLength i out k).Subperm (i :: k) := by
    intro i k
    unfold keepProposal
    split
    · exact List.perm_append_singleton i k |>.subperm
    · -- The new proposal replaces the head or is dropped.
      unfold keepLongest
      cases k with
      | nil => exact List.Subperm.refl _
      | cons first rest =>
        dsimp only
        split
        · exact List.Sublist.subperm (List.Sublist.cons_cons i (List.sublist_cons_self first rest))
        · exact (List.sublist_cons_self i (first :: rest)).subperm
  have hfold := foldl_keep_subperm id (fun i k => keepProposal maxAccepts voq.voqLength i out k)
    hkeep (proposersOf draws voq out) []
  rwa [show (id [] : List (Fin n)) = [] from rfl, List.append_nil] at hfold

theorem nodup_accepted (maxAccepts : Fin m → ℤ) (draws : TreeDraws n m) (voq : VoqState n m)
    (out : Fin m) : (accepted maxAccepts draws voq out).Nodup := by
  obtain ⟨l, hl, hsub⟩ := accepted_subperm maxAccepts draws voq out
  exact hl.nodup_iff.mp ((nodup_proposers draws.shuffle.nodup out).sublist hsub)

/-- An output records inputs that sampled it. -/
theorem sampled_of_mem_accepted {maxAccepts : Fin m → ℤ} {draws : TreeDraws n m}
    {voq : VoqState n m} {out : Fin m} {i : Fin n} (h : i ∈ accepted maxAccepts draws voq out) :
    draws.outputs voq.bst i = some out :=
  (mem_proposers.mp ((accepted_subperm maxAccepts draws voq out).subset h)).2.2

/-- Step 1 fails only at a bad sample, and every recorded input has a packet for its output. -/
theorem proposeAll_post (maxAccepts : Fin m → ℤ) (draws : TreeDraws n m) (voq : VoqState n m) :
    Post (proposeAll maxAccepts draws voq)
      (fun e => e = .badSample ∧ ¬ draws.Good voq.bst voq.voqLength)
      (fun outAccepts => outAccepts = accepted maxAccepts draws voq ∧
        ∀ out, ∀ i ∈ accepted maxAccepts draws voq out, 0 < voq.voqLength i out) := by
  refine (propose_post (keepProposal maxAccepts voq.voqLength) draws.shuffle.val
    (fun _ => [])).imp ?_
  rintro outAccepts ⟨hkept, hpos⟩
  refine ⟨funext hkept, fun out i hi => ?_⟩
  exact hpos out i ((accepted_subperm maxAccepts draws voq out).subset hi)

/-! ### The accept phase -/

variable {B t : ℕ} {I : Booking n m → Prop}

/-- An output without proposals does nothing. -/
theorem acceptOutput_of_nil {sort : DescSort (Fin n)} {voqLength : Fin n → Fin m → ℤ}
    {maxAccepts : Fin m → ℤ} {outAccepts : Fin m → List (Fin n)} {acc : Accepting n m}
    {out : Fin m} (h : outAccepts out = []) :
    acceptOutput sort voqLength maxAccepts t outAccepts acc out = .ok acc := by
  unfold acceptOutput
  rw [h]

/-- The tables after the current slot is given to `i`. -/
def bookNow (t : ℕ) (i : Fin n) (out : Fin m) (b : Booking n m) : Booking n m :=
  { b with toReservations := b.toReservations.book t i out }

/-- Assigning a slot within the bitmaps does not fail. -/
theorem serveNow_eq {t : ℕ} (ht : t < bitmapWidth) (out : Fin m) (i : Fin n) (acc : Accepting n m) :
    serveNow t out i acc = .ok
      { toBooking := bookNow t i out acc.toBooking
        virtualDepartures := acc.virtualDepartures ++ [(i, out)] } := by
  rw [serveNow, Reservations.assignNow_eq_ok _ ht, ok_bind]
  rfl

/-- The row of the slot, if the input had no cell in it. -/
theorem bookNow_row {t : ℕ} {b : Booking n m} {i : Fin n} (h : b.schedules t i = none)
    (out : Fin m) (j : Fin n) (o : Fin m) :
    (bookNow t i out b).schedules t j = some o ↔ b.schedules t j = some o ∨ o = out ∧ i = j := by
  show update₂ b.schedules t i (some out) t j = some o ↔ _
  rw [update₂_apply]
  by_cases hj : j = i
  · subst hj
    simp [h, eq_comm]
  · simp [hj, Ne.symm hj]

/-- One output with a proposal: its first proposal gets the current slot, some of the others get
    an earlier slot each. -/
theorem acceptOutput_post (hI : Booking.Kept (earlierFrames t) (t + 1) I) (ht : t < B)
    (sort : DescSort (Fin n)) (voqLength : Fin n → Fin m → ℤ) (maxAccepts : Fin m → ℤ)
    {outAccepts : Fin m → List (Fin n)} {acc : Accepting n m} {out : Fin m} {i : Fin n}
    {rest : List (Fin n)} (hins : outAccepts out = i :: rest)
    (h : I (bookNow t i out acc.toBooking)) :
    Post (acceptOutput sort voqLength maxAccepts t outAccepts acc out) (fun _ => False)
      (fun acc' => I acc'.toBooking ∧ ∃ gs,
        gs.Sublist ((remaining sort voqLength (maxAccepts out) out (i :: rest)).map (·, out)) ∧
        Granted B (· < t) (update₂ acc.schedules t i (some out)) acc'.schedules
          (acc.virtualDepartures ++ [(i, out)]) acc'.virtualDepartures gs) := by
  have hwidth := hI.width
  unfold acceptOutput
  rw [hins]
  dsimp only
  rw [serveNow_eq (by omega), ok_bind]
  split
  · refine (Accepting.acceptLoop_post hI (by omega : t + 1 ≤ B) _ _ out _ h).imp ?_
    rintro acc' ⟨gs, hsub, hI', hgs⟩
    exact ⟨hI', gs, hsub, hgs.mono (fun f hf => mem_earlierFrames.mp hf)⟩
  · exact ⟨h, [], List.nil_sublist _, Granted.refl ..⟩

/-- The accept phase on `tables` when the outputs of `rest` are still to come: the others have
    served their first proposal at the slot, an input that none of them served has its old cell
    there, and if no input served now had a cell, nothing was overwritten. -/
structure Serving (I : Booking n m → Prop) (B t : ℕ) (outAccepts : Fin m → List (Fin n))
    (tables : Booking n m) (rest : List (Fin m)) (acc : Accepting n m) : Prop where
  nodup : rest.Nodup
  inv : I acc.toBooking
  served : ∀ o, o ∉ rest → ∀ i, (outAccepts o).head? = some i → acc.schedules t i = some o
  old : ∀ i, (∀ o, o ∉ rest → (outAccepts o).head? ≠ some i) →
    acc.schedules t i = tables.schedules t i
  extended : (∀ o i, (outAccepts o).head? = some i → tables.schedules t i = none) →
    Extends (Finset.range B) (· ≤ t) tables.schedules acc.schedules acc.virtualDepartures

/-- The body of the accept loop. -/
theorem Serving.step (hI : Booking.Kept (earlierFrames t) (t + 1) I) (ht : t < B)
    (hnow : ∀ b i o, I b → I (bookNow t i o b)) (sort : DescSort (Fin n))
    (voqLength : Fin n → Fin m → ℤ) (maxAccepts : Fin m → ℤ) {outAccepts : Fin m → List (Fin n)}
    {sample : Fin n → Option (Fin m)} (hsample : ∀ o, ∀ i ∈ outAccepts o, sample i = some o)
    {tables : Booking n m} {out : Fin m} {rest : List (Fin m)} {acc : Accepting n m}
    (h : Serving I B t outAccepts tables (out :: rest) acc) :
    Post (acceptOutput sort voqLength maxAccepts t outAccepts acc out) (fun _ => False)
      (Serving I B t outAccepts tables rest) := by
  obtain ⟨hout, hrest⟩ := List.nodup_cons.mp h.nodup
  -- An input that no output before `rest` served was not served before `out` either.
  have hold : ∀ i, (∀ o, o ∉ rest → (outAccepts o).head? ≠ some i) →
      acc.schedules t i = tables.schedules t i :=
    fun i hi => h.old i (fun o ho => hi o (fun hmem => ho (List.mem_cons_of_mem _ hmem)))
  have hserved : ∀ o, o ∉ rest → o ≠ out → ∀ i, (outAccepts o).head? = some i →
      acc.schedules t i = some o :=
    fun o ho hne => h.served o (by rw [List.mem_cons, not_or]; exact ⟨hne, ho⟩)
  cases hins : outAccepts out with
  | nil =>
    rw [acceptOutput_of_nil hins]
    refine ⟨hrest, h.inv, fun o ho i hi => hserved o ho ?_ i hi, hold, h.extended⟩
    intro heq
    rw [heq, hins] at hi
    cases hi
  | cons j others =>
    have hj : (outAccepts out).head? = some j := by
      rw [hins]
      rfl
    -- Another output cannot have served `j`, which sampled `out`.
    have hother : ∀ o, (outAccepts o).head? = some j → o = out := by
      intro o ho
      have heq := (hsample o j (List.mem_of_mem_head? ho)).symm.trans
        (hsample out j (List.mem_of_mem_head? hj))
      exact Option.some.inj heq
    refine (acceptOutput_post hI ht sort voqLength maxAccepts hins (hnow _ j out h.inv)).imp ?_
    rintro acc' ⟨hacc', gs, -, hgs⟩
    have hrow : ∀ i, acc'.schedules t i = if i = j then some out else acc.schedules t i := by
      intro i
      rw [hgs.extended.row_eq (lt_irrefl t), update₂_apply]
      simp only [true_and]
    refine ⟨hrest, hacc', fun o ho i hi => ?_, fun i hi => ?_, fun hfresh => ?_⟩
    · rw [hrow]
      by_cases hij : i = j
      · subst hij
        rw [if_pos rfl, hother o hi]
      · rw [if_neg hij]
        refine hserved o ho (fun heq => hij ?_) i hi
        rw [heq] at hi
        exact Option.some.inj (hi.symm.trans hj)
    · rw [hrow, if_neg (fun hij => hi out hout (by rw [hij]; exact hj))]
      exact hold i hi
    · -- No output has served `j` before, so its cell is still as empty as it was.
      have hcell : acc.schedules t j = none := by
        rw [h.old j (fun o ho hoj => ho (hother o hoj ▸ List.mem_cons_self ..))]
        exact hfresh out j hj
      have hnow' : Granted B (· ≤ t) acc.schedules (update₂ acc.schedules t j (some out))
          acc.virtualDepartures (acc.virtualDepartures ++ [(j, out)]) [(j, out)] :=
        ⟨Extends.single (Finset.mem_range.mpr ht) (le_refl t) hcell, rfl⟩
      have hall := hnow'.trans (hgs.mono (fun f hf => Nat.le_of_lt hf))
      rw [hall.departures]
      exact (h.extended hfresh).trans hall.extended

/-- The accept phase, for an invariant `I` that does not mind what the row of the slot holds.  In
    this row the inputs served now replace what was there; if no input served now had a cell in
    it, nothing was overwritten. -/
theorem acceptAll_post (hI : Booking.Kept (earlierFrames t) (t + 1) I) (ht : t < B)
    (hnow : ∀ b i o, I b → I (bookNow t i o b)) (sort : DescSort (Fin n))
    (voqLength : Fin n → Fin m → ℤ) (maxAccepts : Fin m → ℤ) {outAccepts : Fin m → List (Fin n)}
    {sample : Fin n → Option (Fin m)} (hsample : ∀ o, ∀ i ∈ outAccepts o, sample i = some o)
    {tables : Booking n m} (h : I tables) :
    Post (acceptAll sort voqLength maxAccepts t outAccepts tables) (fun _ => False)
      (fun acc => I acc.toBooking ∧
        (∀ o i, (outAccepts o).head? = some i → acc.schedules t i = some o) ∧
        (∀ i, (∀ o, (outAccepts o).head? ≠ some i) →
          acc.schedules t i = tables.schedules t i) ∧
        ((∀ o i, (outAccepts o).head? = some i → tables.schedules t i = none) →
          Extends (Finset.range B) (· ≤ t) tables.schedules acc.schedules
            acc.virtualDepartures)) := by
  have h0 : Serving I B t outAccepts tables (List.finRange m)
      { toBooking := tables, virtualDepartures := [] } :=
    ⟨List.nodup_finRange m, h, fun o ho => absurd (List.mem_finRange o) ho, fun _ _ => rfl,
      fun _ => Extends.refl ..⟩
  refine (Post.foldlM_rest (Serving I B t outAccepts tables) _ _ h0 (fun _ _ _ hacc =>
    hacc.step hI ht hnow sort voqLength maxAccepts hsample)).imp (fun acc hacc => ?_)
  exact ⟨hacc.inv, fun o => hacc.served o List.not_mem_nil,
    fun i hi => hacc.old i (fun o _ => hi o), hacc.extended⟩

/-- A round, for an invariant that minds neither what the row of the slot holds nor the counters.
    An assertion can fail only at a sample or when an input is granted more than it has. -/
theorem round_post (hI : Booking.Kept (earlierFrames t) (t + 1) I) (ht : t < B)
    (hnow : ∀ b i o, I b → I (bookNow t i o b))
    (hcount : ∀ b outMatch, I b → I (countUnmatched t outMatch b)) (sort : DescSort (Fin n))
    (maxAccepts : Fin m → ℤ) (draws : TreeDraws n m) {core : Core (Booking n m) n m}
    (h : I core.tables) (hexact : core.voq.Exact) :
    Post (round sort maxAccepts draws t core)
      (fun e => e = .badSample ∧ ¬ draws.Good core.voq.bst core.voq.voqLength ∨
        e = .departureFromEmptyVoq)
      (fun core' => I core'.tables ∧ core'.voq.Exact ∧
        (∀ o i, served maxAccepts draws core.voq o = some i → core'.schedules t i = some o) ∧
        (∀ i, (∀ o, served maxAccepts draws core.voq o ≠ some i) →
          core'.schedules t i = core.schedules t i) ∧
        ((∀ o i, served maxAccepts draws core.voq o = some i → core.schedules t i = none) →
          Grants B t core core')) := by
  unfold round
  refine ((proposeAll_post maxAccepts draws core.voq).mono (fun e he => .inl he)
    (fun _ hacc => hacc)).bind ?_
  rintro outAccepts ⟨rfl, -⟩
  refine ((acceptAll_post hI ht hnow sort core.voq.voqLength maxAccepts
    (fun o i hi => sampled_of_mem_accepted hi) h).mono (fun e he => he.elim)
    (fun _ hacc => hacc)).bind ?_
  rintro acc ⟨hacc, hserved, hold, hext⟩
  -- An input granted twice by one output may have too few packets.
  refine ((VoqState.handlePacketDepartures_post hexact acc.virtualDepartures).mono
    (fun e he => .inr he.1) (fun _ hvoq => hvoq)).bind ?_
  rintro voq ⟨hexact', hlen⟩
  refine ⟨hcount _ _ hacc, hexact', hserved, hold, fun hfresh => ?_⟩
  exact ⟨acc.virtualDepartures, hext hfresh, hlen⟩

end Availability

end SbQps

end SschedSimulator
