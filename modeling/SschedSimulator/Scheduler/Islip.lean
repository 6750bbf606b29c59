import SschedSimulator.Foundation.RoundRobin
import SschedSimulator.Switch.Switching

namespace SschedSimulator

open Foundation

/-!
# `maximal_scheduler.cc` — `iSLIP`

In every iteration each unmatched output grants the first requesting input from its grant pointer
on, and each unmatched input accepts the first granting output from its accept pointer on.  The
pointers of a pair move behind their partners when the pair is matched in the first iteration.

* `iterate_eq_ok` — one iteration, without the loop over the inputs: `accepted st i` is the output
  that input `i` accepts, and the assertion of the accept step holds;
* `schedule_eq_ok` — a whole call: the matching is mutual, its pairs request each other and the
  pointers stay in range;
* `slotSafe_of_run` — the request bits and the queues of the switch agree over whole runs.
-/

namespace Islip

variable {n m iterations : ℕ} {Pointer : Type}

/-- The members of `iSLIP` that change.  Pointers in range are natural numbers; what the constructor is
    given are numbers of any sign. -/
structure State (n m : ℕ) (Pointer : Type := ℕ) where
  grantPointers : Fin m → Pointer
  acceptPointer : Fin n → Pointer
  queueStatus : Fin n → Fin m → Bool
  inMatch : Fin n → Option (Fin m)
  outMatch : Fin m → Option (Fin n)

/-- The constructor. -/
def initial (grantPointers : Fin m → Pointer) (acceptPointer : Fin n → Pointer) :
    State n m Pointer where
  grantPointers := grantPointers
  acceptPointer := acceptPointer
  queueStatus := fun _ _ => false
  inMatch := fun _ => none
  outMatch := fun _ => none

/-- `init`. -/
def init (sw : IQSwitch n m) (st : State n m Pointer) : State n m Pointer :=
  { st with queueStatus := fun s d => decide (sw.getQueueLength s d ≠ 0) }

/-- `reset`: the pointers become `0`, whatever they were constructed with. -/
def reset [Zero Pointer] (st : State n m Pointer) : State n m Pointer :=
  { st with
    grantPointers := fun _ => 0
    acceptPointer := fun _ => 0
    queueStatus := fun _ _ => false }

/-- `handleArrivals`. -/
def handleArrivals (arrivals : List (Fin n × Fin m)) (status : Fin n → Fin m → Bool) :
    Fin n → Fin m → Bool :=
  arrivals.foldl (fun status sd => update₂ status sd.1 sd.2 true) status

/-- `handleDepartures`: the bit of a matched queue is cleared if the switch is about to send the
    last packet of the queue. -/
def handleDepartures (len : Fin n → Fin m → ℕ) (inMatch : Fin n → Option (Fin m))
    (status : Fin n → Fin m → Bool) : Fin n → Fin m → Bool :=
  (List.finRange n).foldl (fun status s =>
    match inMatch s with
    | none => status
    | some d => if len s d = 1 then update₂ status s d false else status) status

/-- Steps 1 and 2 for one output: what `check[out]` holds after them. -/
def grantOutput (st : State n m) (out : Fin m) : Option (Fin n) :=
  if st.outMatch out ≠ none then none
  else RoundRobin.scan (st.grantPointers out)
    (fun input => (st.inMatch input).isNone && st.queueStatus input out)

/-- A pointer after its port was matched to `partner`; it moves in the first iteration only. -/
def nextPointer (first : Bool) {ports : ℕ} (partner : Fin ports) (ptr : ℕ) : ℕ :=
  if first then (partner + 1) % ports else ptr

/-- Step 3 for one input. -/
def acceptInput (first : Bool) (check : Fin m → Option (Fin n)) (st : State n m) (i : Fin n) :
    Except Fault (State n m) :=
  if st.inMatch i ≠ none then .ok st
  else
    match RoundRobin.scan (st.acceptPointer i) (fun output => decide (check output = some i)) with
    | none => .ok st
    | some output => do
      require (st.inMatch i = none ∧ st.outMatch output = none) .portTaken
      .ok
        { st with
          inMatch := Function.update st.inMatch i (some output)
          outMatch := Function.update st.outMatch output (some i)
          acceptPointer :=
            Function.update st.acceptPointer i (nextPointer first output (st.acceptPointer i))
          grantPointers :=
            Function.update st.grantPointers output
              (nextPointer first i (st.grantPointers output)) }

/-- Iteration `it`. -/
def iterate (st : State n m) (it : ℕ) : Except Fault (State n m) :=
  (List.finRange n).foldlM (acceptInput (it == 0) (grantOutput st)) st

/-- The state before the first iteration. -/
def enterSlot (sw : IQSwitch n m) (st : State n m Pointer) : State n m Pointer :=
  { st with
    queueStatus := handleArrivals sw.getArrivals st.queueStatus
    inMatch := fun _ => none
    outMatch := fun _ => none }

/-- `schedule`. -/
def schedule (iterations : ℕ) (sw : IQSwitch n m) (st : State n m) :
    Except Fault (State n m) := do
  let st' ← (List.range iterations).foldlM iterate (enterSlot sw st)
  .ok { st' with
    queueStatus := handleDepartures sw.getQueueLength st'.inMatch st'.queueStatus }

/-- The scheduler as a switch drives it; it makes no random choices. -/
abbrev model (n m iterations : ℕ) : SchedulerModel n m where
  State := State n m
  Input := Unit
  schedule := fun _ => schedule iterations
  inMatch := State.inMatch

/-! ### The request bits -/

/-- Every arrival sets its bit. -/
theorem handleArrivals_apply (arrivals : List (Fin n × Fin m)) (status : Fin n → Fin m → Bool)
    (s : Fin n) (d : Fin m) :
    handleArrivals arrivals status s d = (status s d || decide ((s, d) ∈ arrivals)) := by
  unfold handleArrivals
  induction arrivals generalizing status with
  | nil => simp
  | cons p rest ih =>
    rw [List.foldl_cons, ih, update₂_apply]
    by_cases hp : s = p.1 ∧ d = p.2
    · have hmem : (s, d) ∈ p :: rest := by rw [hp.1, hp.2]; exact List.mem_cons_self ..
      rw [if_pos hp, decide_eq_true hmem, Bool.true_or, Bool.or_true]
    · have hne : (s, d) ≠ p := fun he => hp ⟨congrArg Prod.fst he, congrArg Prod.snd he⟩
      rw [if_neg hp]
      simp [hne]

/-- What the loop does for one input: it clears the bit of its matched queue if that queue is left
    empty. -/
theorem departure_apply (len : Fin n → Fin m → ℕ) (inMatch : Fin n → Option (Fin m))
    (status : Fin n → Fin m → Bool) (s' s : Fin n) (d : Fin m) :
    (match inMatch s' with
      | none => status
      | some d => if len s' d = 1 then update₂ status s' d false else status) s d
      = (status s d && !decide (s = s' ∧ inMatch s = some d ∧ len s d = 1)) := by
  by_cases hs : s = s'
  · subst hs
    cases hm : inMatch s with
    | none => simp
    | some d' =>
      by_cases hd : d = d'
      · subst hd
        by_cases hone : len s d = 1 <;> simp [hone]
      · have hd' : ¬ d' = d := fun he => hd he.symm
        by_cases hone : len s d' = 1 <;> simp [hone, hd, hd', update₂_apply]
  · cases hm : inMatch s' with
    | none => simp [hs]
    | some d' =>
      by_cases hone : len s' d' = 1 <;> simp [hone, hs, update₂_apply]

/-- The bit of a matched queue with one packet is cleared, no other bit changes. -/
theorem handleDepartures_apply (len : Fin n → Fin m → ℕ) (inMatch : Fin n → Option (Fin m))
    (status : Fin n → Fin m → Bool) (s : Fin n) (d : Fin m) :
    handleDepartures len inMatch status s d
      = (status s d && !decide (inMatch s = some d ∧ len s d = 1)) := by
  have hloop : ∀ (l : List (Fin n)) (status : Fin n → Fin m → Bool),
      l.foldl (fun status s => match inMatch s with
        | none => status
        | some d => if len s d = 1 then update₂ status s d false else status) status s d
        = (status s d && !decide (s ∈ l ∧ inMatch s = some d ∧ len s d = 1)) := by
    intro l
    induction l with
    | nil => simp
    | cons s' rest ih =>
      intro status
      rw [List.foldl_cons, ih, departure_apply, Bool.and_assoc]
      simp only [List.mem_cons, or_and_right, Bool.decide_or, Bool.not_or]
  have h := hloop (List.finRange n) status
  simp only [List.mem_finRange, true_and] at h
  exact h

/-! ### One iteration -/

/-- A granted input is unmatched and requests the output, which is unmatched too. -/
theorem grantOutput_eq_some {st : State n m} {out : Fin m} {i : Fin n}
    (h : grantOutput st out = some i) :
    st.outMatch out = none ∧ st.inMatch i = none ∧ st.queueStatus i out = true := by
  unfold grantOutput at h
  split at h
  · exact nomatch h
  · rename_i hopen
    have htest := RoundRobin.test_of_scan _ h
    rw [Bool.and_eq_true, Option.isNone_iff_eq_none] at htest
    exact ⟨not_not.mp hopen, htest⟩

/-- The output that input `i` accepts in an iteration that starts in `st`. -/
def accepted (st : State n m) (i : Fin n) : Option (Fin m) :=
  if st.inMatch i ≠ none then none
  else RoundRobin.scan (st.acceptPointer i) (fun out => decide (grantOutput st out = some i))

/-- An accepted output has granted the input. -/
theorem accepted_eq_some {st : State n m} {i : Fin n} {o : Fin m}
    (h : accepted st i = some o) : grantOutput st o = some i := by
  unfold accepted at h
  split at h
  · exact nomatch h
  · exact of_decide_eq_true (RoundRobin.test_of_scan _ h)

/-- Two inputs do not accept the same output. -/
theorem accepted_injective {st : State n m} {i i' : Fin n} {o : Fin m}
    (h : accepted st i = some o) (h' : accepted st i' = some o) : i = i' := by
  have hgrant := accepted_eq_some h
  rw [accepted_eq_some h'] at hgrant
  exact (Option.some.inj hgrant).symm

/-- An output at the end of the accept step of an iteration that started in `st₀`: it was accepted
    by one of the inputs that `done` describes, or it is as it was. -/
def OutputDone (first : Bool) (st₀ st : State n m) (done : Fin n → Prop) (o : Fin m) : Prop :=
  (st.outMatch o = st₀.outMatch o ∧ st.grantPointers o = st₀.grantPointers o ∧
    ∀ i, done i → accepted st₀ i ≠ some o) ∨
  ∃ i, done i ∧ accepted st₀ i = some o ∧ st.outMatch o = some i ∧
    st.grantPointers o = nextPointer first i (st₀.grantPointers o)

/-- An input at the end of the accept step of an iteration that started in `st₀`. -/
def InputDone (first : Bool) (st₀ st : State n m) (i : Fin n) : Prop :=
  (accepted st₀ i = none ∧ st.inMatch i = st₀.inMatch i ∧
    st.acceptPointer i = st₀.acceptPointer i) ∨
  ∃ o, accepted st₀ i = some o ∧ st.inMatch i = some o ∧
    st.acceptPointer i = nextPointer first o (st₀.acceptPointer i)

/-- An input that accepts an output is matched to it and moves its pointer. -/
theorem InputDone.of_accepted {first : Bool} {st₀ st : State n m} {i : Fin n} {o : Fin m}
    (h : InputDone first st₀ st i) (hacc : accepted st₀ i = some o) :
    st.inMatch i = some o ∧ st.acceptPointer i = nextPointer first o (st₀.acceptPointer i) := by
  rcases h with ⟨hnone, -⟩ | ⟨o', ho', hin, hptr⟩
  · rw [hacc] at hnone
    cases hnone
  · obtain rfl : o' = o := Option.some.inj (ho'.symm.trans hacc)
    exact ⟨hin, hptr⟩

/-- The state in the middle of the accept step of an iteration that started in `st₀`: the inputs of
    `rest` are still to come. -/
structure Accepting (first : Bool) (st₀ : State n m) (rest : List (Fin n)) (st : State n m) :
    Prop where
  nodup : rest.Nodup
  queueStatus : st.queueStatus = st₀.queueStatus
  waiting : ∀ i ∈ rest, st.inMatch i = st₀.inMatch i ∧ st.acceptPointer i = st₀.acceptPointer i
  input : ∀ i, i ∉ rest → InputDone first st₀ st i
  output : ∀ o, OutputDone first st₀ st (· ∉ rest) o

section

variable {first : Bool} {st₀ st : State n m} {i : Fin n} {rest : List (Fin n)}

/-- An input that accepts nothing leaves the state as it is. -/
theorem Accepting.skip (h : Accepting first st₀ (i :: rest) st) (hnone : accepted st₀ i = none) :
    Accepting first st₀ rest st := by
  obtain ⟨hi, hrest⟩ := List.nodup_cons.mp h.nodup
  obtain ⟨hmatch, hptr⟩ := h.waiting i (List.mem_cons_self ..)
  refine ⟨hrest, h.queueStatus, fun j hj => h.waiting j (List.mem_cons_of_mem _ hj),
    fun j hj => ?_, fun o => ?_⟩
  · by_cases hji : j = i
    · subst hji
      exact .inl ⟨hnone, hmatch, hptr⟩
    · exact h.input j (by simp [hji, hj])
  · rcases h.output o with ⟨hout, hgp, hno⟩ | ⟨j, hj, hacc⟩
    · refine .inl ⟨hout, hgp, fun j hj => ?_⟩
      by_cases hji : j = i
      · subst hji
        simp [hnone]
      · exact hno j (by simp [hji, hj])
    · exact .inr ⟨j, fun hmem => hj (List.mem_cons_of_mem _ hmem), hacc⟩

/-- Only one input accepts an output, so nobody before it did. -/
theorem Accepting.output_of_accepted (h : Accepting first st₀ (i :: rest) st) {o : Fin m}
    (hacc : accepted st₀ i = some o) :
    st.outMatch o = st₀.outMatch o ∧ st.grantPointers o = st₀.grantPointers o := by
  rcases h.output o with ⟨hout, hgp, -⟩ | ⟨j, hj, hacc', -⟩
  · exact ⟨hout, hgp⟩
  · exact absurd (accepted_injective hacc hacc' ▸ List.mem_cons_self ..) hj

/-- An input that accepts `o` is matched to it, and both pointers move. -/
theorem Accepting.accept (h : Accepting first st₀ (i :: rest) st) {o : Fin m}
    (hacc : accepted st₀ i = some o) :
    Accepting first st₀ rest
      { st with
        inMatch := Function.update st.inMatch i (some o)
        outMatch := Function.update st.outMatch o (some i)
        grantPointers := Function.update st.grantPointers o
          (nextPointer first i (st.grantPointers o))
        acceptPointer := Function.update st.acceptPointer i
          (nextPointer first o (st.acceptPointer i)) } := by
  obtain ⟨hi, hrest⟩ := List.nodup_cons.mp h.nodup
  obtain ⟨-, hptr⟩ := h.waiting i (List.mem_cons_self ..)
  -- Input `i` and output `o` are done now; all others are as before.
  refine ⟨hrest, h.queueStatus, fun j hj => ?_, fun j hj => ?_, fun o' => ?_⟩
  · have hji : j ≠ i := fun he => hi (he ▸ hj)
    simp only [Function.update_of_ne hji]
    exact h.waiting j (List.mem_cons_of_mem _ hj)
  · by_cases hji : j = i
    · subst hji
      refine .inr ⟨o, hacc, Function.update_self .., ?_⟩
      show Function.update st.acceptPointer j _ j = _
      rw [Function.update_self, hptr]
    · have hj' := h.input j (by simp [hji, hj])
      simpa only [InputDone, Function.update_of_ne hji] using hj'
  · by_cases ho : o' = o
    · subst ho
      refine .inr ⟨i, hi, hacc, Function.update_self .., ?_⟩
      show Function.update st.grantPointers o' _ o' = _
      rw [Function.update_self, (h.output_of_accepted hacc).2]
    · simp only [OutputDone, Function.update_of_ne ho]
      rcases h.output o' with ⟨hout, hgp, hno⟩ | ⟨j, hj, hacc'⟩
      · refine .inl ⟨hout, hgp, fun j hj => ?_⟩
        by_cases hji : j = i
        · subst hji
          rw [hacc]
          exact fun he => ho (Option.some.inj he).symm
        · exact hno j (by simp [hji, hj])
      · exact .inr ⟨j, fun hmem => hj (List.mem_cons_of_mem _ hmem), hacc'⟩

theorem Accepting.step (h : Accepting first st₀ (i :: rest) st) :
    Post (acceptInput first (grantOutput st₀) st i) (fun _ => False)
      (Accepting first st₀ rest) := by
  obtain ⟨hmatch, hptr⟩ := h.waiting i (List.mem_cons_self ..)
  have hscan : accepted st₀ i = if st.inMatch i ≠ none then none else
      RoundRobin.scan (st.acceptPointer i)
        (fun out => decide (grantOutput st₀ out = some i)) := by
    rw [accepted, hmatch, hptr]
  unfold acceptInput
  split
  · rename_i htaken
    rw [if_pos htaken] at hscan
    exact h.skip hscan
  · rename_i hopen
    rw [if_neg hopen] at hscan
    split
    · rename_i hnone
      exact h.skip (hscan.trans hnone)
    · rename_i o hsome
      -- Both ports are free, so the assertion holds.
      have hacc : accepted st₀ i = some o := hscan.trans hsome
      have hgrant := grantOutput_eq_some (accepted_eq_some hacc)
      have hfree := (h.output_of_accepted hacc).1
      rw [require_pos ⟨not_not.mp hopen, hfree.trans hgrant.1⟩, ok_bind]
      exact h.accept hacc

end

/-- What an iteration that starts in `st₀` does. -/
structure Iterated (first : Bool) (st₀ st : State n m) : Prop where
  queueStatus : st.queueStatus = st₀.queueStatus
  input : ∀ i, InputDone first st₀ st i
  output : ∀ o, OutputDone first st₀ st (fun _ => True) o

/-- An iteration never fails its assertion. -/
theorem iterate_eq_ok (st : State n m) (it : ℕ) :
    ∃ st', iterate st it = .ok st' ∧ Iterated (it == 0) st st' := by
  have h0 : Accepting (it == 0) st (List.finRange n) st :=
    ⟨List.nodup_finRange n, rfl, fun _ _ => ⟨rfl, rfl⟩,
      fun i hi => absurd (List.mem_finRange i) hi,
      fun o => .inl ⟨rfl, rfl, fun i hi => absurd (List.mem_finRange i) hi⟩⟩
  obtain ⟨st', hrun, h⟩ := (Post.foldlM_rest (Accepting (it == 0) st) (List.finRange n) st h0
    (fun _ _ _ hst => hst.step)).exists_ok (fun _ _ he => he)
  exact ⟨st', hrun, h.queueStatus, fun i => h.input i List.not_mem_nil,
    fun o => by simpa using h.output o⟩

/-! ### The matching of a slot -/

/-- `_in_match` and `_out_match` are mutually inverse, every matched pair requests, and the pointers
    are in range. -/
structure Sound (st : State n m) : Prop where
  mutual_iff : ∀ i o, st.inMatch i = some o ↔ st.outMatch o = some i
  requested : ∀ i o, st.inMatch i = some o → st.queueStatus i o = true
  grantRange : ∀ o, st.grantPointers o < n
  acceptRange : ∀ i, st.acceptPointer i < m

theorem nextPointer_lt (first : Bool) {ports : ℕ} (partner : Fin ports) {ptr : ℕ}
    (h : ptr < ports) : nextPointer first partner ptr < ports := by
  unfold nextPointer
  split
  · exact Nat.mod_lt _ partner.pos
  · exact h

theorem Iterated.sound {first : Bool} {st₀ st : State n m} (h : Iterated first st₀ st)
    (h₀ : Sound st₀) : Sound st where
  mutual_iff := by
    intro i o
    constructor
    · intro hio
      rcases h.input i with ⟨hnone, hin, -⟩ | ⟨o', hacc, hin, -⟩
      · -- A pair matched before: its output was not granted again.
        have hout := (h₀.mutual_iff i o).mp (hin ▸ hio)
        rcases h.output o with ⟨hsame, -⟩ | ⟨j, -, hacc, -⟩
        · exact hsame.trans hout
        · rw [(grantOutput_eq_some (accepted_eq_some hacc)).1] at hout
          exact nomatch hout
      · obtain rfl : o' = o := Option.some.inj (hin.symm.trans hio)
        rcases h.output o' with ⟨-, -, hno⟩ | ⟨j, -, hacc', hout, -⟩
        · exact absurd hacc (hno i trivial)
        · rwa [accepted_injective hacc hacc']
    · intro hoi
      rcases h.output o with ⟨hsame, -⟩ | ⟨j, -, hacc, hout, -⟩
      · have hin := (h₀.mutual_iff i o).mpr (hsame ▸ hoi)
        rcases h.input i with ⟨-, hsame', -⟩ | ⟨o', hacc, -⟩
        · exact hsame'.trans hin
        · rw [(grantOutput_eq_some (accepted_eq_some hacc)).2.1] at hin
          exact nomatch hin
      · obtain rfl : j = i := Option.some.inj (hout.symm.trans hoi)
        exact ((h.input j).of_accepted hacc).1
  requested := by
    intro i o hio
    rw [h.queueStatus]
    rcases h.input i with ⟨-, hin, -⟩ | ⟨o', hacc, hin, -⟩
    · exact h₀.requested i o (hin ▸ hio)
    · obtain rfl : o' = o := Option.some.inj (hin.symm.trans hio)
      exact (grantOutput_eq_some (accepted_eq_some hacc)).2.2
  grantRange := by
    intro o
    rcases h.output o with ⟨-, hgp, -⟩ | ⟨j, -, -, -, hgp⟩
    · rw [hgp]
      exact h₀.grantRange o
    · rw [hgp]
      exact nextPointer_lt first j (h₀.grantRange o)
  acceptRange := by
    intro i
    rcases h.input i with ⟨-, -, hap⟩ | ⟨o, -, -, hap⟩
    · rw [hap]
      exact h₀.acceptRange i
    · rw [hap]
      exact nextPointer_lt first o (h₀.acceptRange i)

/-- The iterations from `it` on keep the state sound and the request bits as they are. -/
theorem iterations_eq_ok (its : List ℕ) {st : State n m} (h : Sound st) :
    ∃ st', its.foldlM iterate st = .ok st' ∧ Sound st' ∧ st'.queueStatus = st.queueStatus := by
  induction its generalizing st with
  | nil => exact ⟨st, rfl, h, rfl⟩
  | cons it rest ih =>
    obtain ⟨st₁, hrun₁, hit⟩ := iterate_eq_ok st it
    obtain ⟨st₂, hrun₂, hsound, hstatus⟩ := ih (hit.sound h)
    exact ⟨st₂, by rw [List.foldlM_cons, hrun₁, ok_bind, hrun₂], hsound,
      hstatus.trans hit.queueStatus⟩

theorem sound_enterSlot (sw : IQSwitch n m) {st : State n m}
    (hgrant : ∀ o, st.grantPointers o < n) (haccept : ∀ i, st.acceptPointer i < m) :
    Sound (enterSlot sw st) where
  mutual_iff := fun _ _ => iff_of_false (fun h => nomatch h) (fun h => nomatch h)
  requested := fun _ _ h => nomatch h
  grantRange := hgrant
  acceptRange := haccept

/-! ### Runs of a switch -/

/-- The pointers are in range and the request bits say which queues hold a packet. -/
structure Synchronised (sys : System (model n m iterations)) : Prop where
  grantRange : ∀ o, sys.scheduler.grantPointers o < n
  acceptRange : ∀ i, sys.scheduler.acceptPointer i < m
  status : ∀ s d, sys.scheduler.queueStatus s d = true ↔ 0 < sys.switch.getQueueLength s d

/-- A switch that starts empty, or whose scheduler was given its queue lengths by `init`. -/
inductive Start (gp : Fin m → ℕ) (ap : Fin n → ℕ) : System (model n m iterations) → Prop where
  | empty {sw : IQSwitch n m} : sw.Empty → Start gp ap ⟨sw, initial gp ap⟩
  | afterInit (sw : IQSwitch n m) : Start gp ap ⟨sw, init sw (initial gp ap)⟩

/-- What one slot leaves: `_in_match` and `_out_match` are mutually inverse partial matchings and
    every matched queue held a packet. -/
structure SlotSafe (sw : IQSwitch n m) (st : State n m) : Prop where
  inMatching : IsMatching st.inMatch
  outMatching : IsMatching st.outMatch
  mutual_iff : ∀ i o, st.inMatch i = some o ↔ st.outMatch o = some i
  backlogged : ∀ i o, st.inMatch i = some o → 0 < sw.getQueueLength i o

theorem Start.synchronised {gp : Fin m → ℕ} {ap : Fin n → ℕ} {iterations : ℕ}
    {sys : System (model n m iterations)} (h : Start gp ap sys) (hgp : ∀ o, gp o < n)
    (hap : ∀ i, ap i < m) : Synchronised sys := by
  cases h with
  | empty hsw =>
    refine ⟨hgp, hap, fun s d => ?_⟩
    show false = true ↔ _
    rw [hsw s d]
    simp
  | afterInit sw =>
    refine ⟨hgp, hap, fun s d => ?_⟩
    show decide _ = true ↔ _
    rw [decide_eq_true_eq, Nat.pos_iff_ne_zero]

/-- After reading the inputs, the bits of the scheduler say which queues hold a packet. -/
theorem Synchronised.enterSlot_status {sys : System (model n m iterations)}
    (h : Synchronised sys) (channels : Fin n → List (Packet n m)) (s : Fin n) (d : Fin m) :
    (enterSlot (sys.switch.readInputs channels) sys.scheduler).queueStatus s d = true ↔
      0 < (sys.switch.readInputs channels).getQueueLength s d := by
  show handleArrivals _ _ s d = true ↔ _
  rw [handleArrivals_apply, IQSwitch.readInputs_arrivals, IQSwitch.readInputs_queueLength,
    Bool.or_eq_true, h.status, decide_eq_true_eq, ← List.count_pos_iff]
  omega

/-- One slot. -/
theorem Synchronised.switching_eq_ok {sys : System (model n m iterations)}
    (h : Synchronised sys) (channels : Fin n → List (Packet n m)) :
    ∃ sys', switching (model n m iterations) () channels sys = .ok sys' ∧ Synchronised sys' ∧
      SlotSafe (sys.switch.readInputs channels) sys'.scheduler ∧
      ∀ i o, sys'.switch.getQueueLength i o
        = (sys.switch.readInputs channels).getQueueLength i o
          - if sys'.scheduler.inMatch i = some o then 1 else 0 := by
  obtain ⟨st, hrun, hsound, hstatus⟩ := iterations_eq_ok (List.range iterations)
    (sound_enterSlot (sys.switch.readInputs channels) h.grantRange h.acceptRange)
  have hpos : ∀ s d, st.queueStatus s d = true ↔
      0 < (sys.switch.readInputs channels).getQueueLength s d := by
    rw [hstatus]
    exact h.enterSlot_status channels
  have hmatch : IsMatching st.inMatch := fun i i' o hi hi' =>
    Option.some.inj (((hsound.mutual_iff i o).mp hi).symm.trans ((hsound.mutual_iff i' o).mp hi'))
  have hsched : schedule iterations (sys.switch.readInputs channels) sys.scheduler
      = .ok { st with
          queueStatus := handleDepartures (sys.switch.readInputs channels).getQueueLength
            st.inMatch st.queueStatus } := by
    rw [schedule, hrun, ok_bind]
  obtain ⟨sys', hok, hsched', hlen⟩ := SschedSimulator.switching_eq_ok
    (S := model n m iterations) () hsched hmatch
  refine ⟨sys', hok, ⟨?_, ?_, fun s d => ?_⟩, ?_, by rw [hsched']; exact hlen⟩
  · rw [hsched']
    exact hsound.grantRange
  · rw [hsched']
    exact hsound.acceptRange
  · -- The bit is cleared exactly when the packet about to leave is the last one.
    rw [hlen, hsched']
    show handleDepartures _ st.inMatch st.queueStatus s d = true ↔
      0 < _ - if st.inMatch s = some d then 1 else 0
    rw [handleDepartures_apply, Bool.and_eq_true, hpos, Bool.not_eq_true', decide_eq_false_iff_not]
    exact pos_of_departed_iff
  · rw [hsched']
    refine ⟨hmatch, fun o o' i ho ho' => ?_, hsound.mutual_iff, fun i o hio => ?_⟩
    · have hi := (hsound.mutual_iff i o).mpr ho
      exact Option.some.inj (hi.symm.trans ((hsound.mutual_iff i o').mpr ho'))
    · exact (hpos i o).mp (hsound.requested i o hio)

theorem Synchronised.run {sys sys' : System (model n m iterations)}
    (h : Synchronised sys) (hrun : Run (model n m iterations) sys sys') : Synchronised sys' := by
  refine hrun.preserved h (fun _ channels mid hmid _ => ?_)
  obtain ⟨next, hok, hnext, -⟩ := hmid.switching_eq_ok channels
  exact ⟨next, hok, hnext⟩

/-- Over whole runs from an empty switch, or from any queue lengths after `init`: the pointers stay
    in range and the request bits say which queues hold a packet; every slot returns, so that no
    assertion fails, its matching is mutual and every matched queue held a packet. -/
theorem slotSafe_of_run {gp : Fin m → ℕ} {ap : Fin n → ℕ} (hgp : ∀ o, gp o < n)
    (hap : ∀ i, ap i < m) {sys sys' : System (model n m iterations)} (hstart : Start gp ap sys)
    (hrun : Run (model n m iterations) sys sys') :
    ((∀ o, sys'.scheduler.grantPointers o < n) ∧ (∀ i, sys'.scheduler.acceptPointer i < m) ∧
      ∀ s d, sys'.scheduler.queueStatus s d = true ↔ 0 < sys'.switch.getQueueLength s d) ∧
    ∀ channels, ∃ next, switching (model n m iterations) () channels sys' = .ok next ∧
      SlotSafe (sys'.switch.readInputs channels) next.scheduler := by
  have hsync := (hstart.synchronised hgp hap).run hrun
  refine ⟨⟨hsync.grantRange, hsync.acceptRange, hsync.status⟩, fun channels => ?_⟩
  obtain ⟨next, hok, -, hsafe, -⟩ := hsync.switching_eq_ok channels
  exact ⟨next, hok, hsafe⟩

/-- Two inputs with a packet for the same output: input `0` is served, and the grant pointer of the
    output moves behind it. -/
theorem slotSafe_after_slot :
    ∃ sys : System (model 2 2 1),
      (sys.scheduler.inMatch 0 = some 0 ∧ sys.scheduler.grantPointers 0 = 1) ∧
      ∀ s d, sys.scheduler.queueStatus s d = true ↔ 0 < sys.switch.getQueueLength s d := by
  obtain ⟨sys, hrun, hsys⟩ := exists_of_returns
    (x := switching (model 2 2 1) () (packetsFor 0 (fun _ => 1))
      ⟨IQSwitch.empty 2 2, initial (fun _ => 0) (fun _ => 0)⟩)
    (p := fun sys => decide
      (sys.scheduler.inMatch 0 = some 0 ∧ sys.scheduler.grantPointers 0 = 1)) (by decide)
  exact ⟨sys, of_decide_eq_true hsys,
    (@slotSafe_of_run 2 2 1 (fun _ => 0) (fun _ => 0) (by decide) (by decide) _ _
      (.empty (IQSwitch.empty_empty 2 2)) (.step _ _ .refl hrun)).1.2.2⟩

end Islip

end SschedSimulator
