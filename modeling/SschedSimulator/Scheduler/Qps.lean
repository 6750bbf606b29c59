import SschedSimulator.Scheduler.TreeSampling
import SschedSimulator.Switch.Switching

namespace SschedSimulator

open Foundation

/-!
# `qps.cc` — queue-proportional sampling

QPS matches the ports of one slot in a number of iterations: every unmatched input samples an
output in its tree and proposes to it, every unmatched output accepts one proposal by the accept
policy.  Without replacement, a VOQ whose proposal was rejected is left out of the later
iterations of the slot.

* `proposeAll_post`, `acceptAll_eq` — what the two steps of an iteration do, without the loops;
* `handleArrivals_eq_ok`, `handleDepartures_eq_ok` — the trees mirror the queues of the switch
  before and after a slot;
* `schedule_qps1_eq_ok` — the whole slot with one iteration, longest first, with replacement.
-/

namespace Qps

variable {n m : ℕ}

/-- `_accept_policy`. -/
inductive AcceptPolicy where
  | longestFirst
  | earliestFirst
  | random
  | shortestFirst
  | smallestFirst
  deriving DecidableEq, Repr

/-- The parameters of the constructor. -/
structure Config where
  iterations : ℕ
  acceptPolicy : AcceptPolicy
  withoutReplacement : Bool

/-- The members `_bst`, `_in_match` and `_out_match`. -/
structure State (n m : ℕ) where
  bst : Fin n → Bst
  inMatch : Fin n → Option (Fin m)
  outMatch : Fin m → Option (Fin n)

/-- The constructor. -/
def initial : State n m where
  bst := fun _ _ => 0
  inMatch := fun _ => none
  outMatch := fun _ => none

/-- `reset`: everything but the matching. -/
def reset (st : State n m) : State n m := { st with bst := fun _ _ => 0 }

/-- `getQueueLength`: the root of the tree. -/
def getQueueLength (bst : Fin n → Bst) (source : Fin n) : ℤ := bst source 1

/-- `handleArrivals`. -/
def handleArrivals (arrivals : List (Fin n × Fin m)) (bst : Fin n → Bst) :
    Except Fault (Fin n → Bst) :=
  arrivals.foldlM (fun bst sd => updateLeaf bst sd.1 sd.2 1) bst

/-- `handleDepartures`. -/
def handleDepartures (len : Fin n → Fin m → ℕ) (inMatch : Fin n → Option (Fin m))
    (bst : Fin n → Bst) : Except Fault (Fin n → Bst) :=
  (List.finRange n).foldlM (fun bst s =>
    match inMatch s with
    | none => .ok bst
    | some d => if 0 < len s d then updateLeaf bst s d (-1) else .ok bst) bst

/-- `removeVOQ`: empty a leaf and return what it held. -/
def removeVOQ (bst : Fin n → Bst) (source : Fin n) (destination : Fin m) :
    Except Fault (ℤ × (Fin n → Bst)) := do
  let removed ← BST.remove (bst source) (destination + leftStart m)
  .ok (removed.1, Function.update bst source removed.2)

/-- `restoreVOQ`. -/
def restoreVOQ (restorePairs : List ((Fin n × Fin m) × ℤ)) (bst : Fin n → Bst) :
    Except Fault (Fin n → Bst) :=
  restorePairs.foldlM (fun bst sdq => do
    require (0 < sdq.2) .emptyRestore
    updateLeaf bst sdq.1.1 sdq.1.2 sdq.2) bst

/-! ### One iteration -/

/-- Whether `i` takes the place of `last`, who proposed to the same output before. -/
def AcceptPolicy.prefers (policy : AcceptPolicy) (len : Fin n → Fin m → ℕ) (out : Fin m)
    (i last : Fin n) : Bool :=
  match policy with
  | longestFirst => decide (len i out > len last out)
  | earliestFirst => false
  | random => false
  | shortestFirst => decide (len i out < len last out)
  | smallestFirst => decide (i < last)

/-- `requests` and `last_check`. -/
structure Proposing (n m : ℕ) where
  requests : Fin n → Option (Fin m)
  lastCheck : Fin m → Option (Fin n)

/-- One input of Step 1. -/
def proposeInput (policy : AcceptPolicy) (len : Fin n → Fin m → ℕ)
    (sample : Fin n → Bst → Option (Fin m)) (st : State n m) (acc : Proposing n m)
    (i : Fin n) : Except Fault (Proposing n m) :=
  -- inputs without packets and inputs matched by an earlier iteration do not take part
  if getQueueLength st.bst i = 0 ∨ st.inMatch i ≠ none then .ok acc
  else
    match sample i (st.bst i) with
    | none => .error .badSample
    | some out =>
      -- the request is remembered, but a matched output does not look at it
      if st.outMatch out ≠ none then
        .ok { acc with requests := Function.update acc.requests i (some out) }
      else
        .ok
          { requests := Function.update acc.requests i (some out)
            lastCheck := Function.update acc.lastCheck out
              (challenge (policy.prefers len out) (acc.lastCheck out) i) }

/-- Step 1. -/
def proposeAll (policy : AcceptPolicy) (len : Fin n → Fin m → ℕ) (draws : TreeDraws n m)
    (st : State n m) : Except Fault (Proposing n m) :=
  draws.shuffle.val.foldlM (proposeInput policy len draws.sample st)
    { requests := fun _ => none, lastCheck := fun _ => none }

/-- One output of Step 2. -/
def acceptOutput (lastCheck : Fin m → Option (Fin n)) (st : State n m) (out : Fin m) :
    State n m :=
  match lastCheck out with
  | none => st
  | some i =>
    if st.inMatch i = none then
      { st with
        inMatch := Function.update st.inMatch i (some out)
        outMatch := Function.update st.outMatch out (some i) }
    else st

/-- Step 2. -/
def acceptAll (lastCheck : Fin m → Option (Fin n)) (st : State n m) : State n m :=
  (List.finRange m).foldl (acceptOutput lastCheck) st

/-- The members in the middle of `schedule()`, with `restore_sd_pairs`. -/
structure Working (n m : ℕ) extends State n m where
  restoreSdPairs : List ((Fin n × Fin m) × ℤ)

/-- Leave the VOQ that a rejected input asked for out of its tree. -/
def rejectInput (len : Fin n → Fin m → ℕ) (requests : Fin n → Option (Fin m))
    (w : Working n m) (i : Fin n) : Except Fault (Working n m) :=
  if w.inMatch i = none then
    match requests i with
    | none => .ok w
    | some out => do
      let removed ← removeVOQ w.bst i out
      require (removed.1 = len i out) .staleQueueLength
      .ok
        { w with
          bst := removed.2
          restoreSdPairs := w.restoreSdPairs ++ [((i, out), removed.1)] }
  else .ok w

/-- One iteration. -/
def iterate (cfg : Config) (len : Fin n → Fin m → ℕ) (draws : TreeDraws n m) (w : Working n m) :
    Except Fault (Working n m) := do
  let acc ← proposeAll cfg.acceptPolicy len draws w.toState
  let w' : Working n m :=
    { toState := acceptAll acc.lastCheck w.toState, restoreSdPairs := w.restoreSdPairs }
  if cfg.withoutReplacement then (List.finRange n).foldlM (rejectInput len acc.requests) w'
  else .ok w'

/-- `schedule`; iteration `it` makes the random choices `draws it`. -/
def schedule (cfg : Config) (draws : ℕ → TreeDraws n m) (sw : IQSwitch n m) (st : State n m) :
    Except Fault (State n m) := do
  let bst ← handleArrivals sw.getArrivals st.bst
  let w ← (List.range cfg.iterations).foldlM
    (fun w it => iterate cfg sw.getQueueLength (draws it) w)
    { bst := bst, inMatch := fun _ => none, outMatch := fun _ => none, restoreSdPairs := [] }
  let bst' ← restoreVOQ w.restoreSdPairs w.bst
  let bst'' ← handleDepartures sw.getQueueLength w.inMatch bst'
  .ok { w.toState with bst := bst'' }

/-- `init`. -/
def init (sw : IQSwitch n m) (st : State n m) : Except Fault (State n m) := do
  let bst ← (portPairs n m).foldlM (fun bst p =>
    if 0 < sw.getQueueLength p.1 p.2 then updateLeaf bst p.1 p.2 (sw.getQueueLength p.1 p.2)
    else .ok bst) st.bst
  .ok { st with bst := bst }

/-- The scheduler as a switch drives it. -/
abbrev model (n m : ℕ) (cfg : Config) : SchedulerModel n m where
  State := State n m
  Input := ℕ → TreeDraws n m
  schedule := schedule cfg
  inMatch := State.inMatch

/-! ### The trees and the queues of the switch -/

/-- The trees hold the lengths `len`. -/
def Mirror (bst : Fin n → Bst) (len : Fin n → Fin m → ℕ) : Prop :=
  ∀ i, Mirrors (bst i) (fun o => (len i o : ℤ))

theorem Mirror.congr {bst : Fin n → Bst} {len len' : Fin n → Fin m → ℕ} (h : Mirror bst len)
    (heq : ∀ i o, len i o = len' i o) : Mirror bst len' := by
  rwa [← show len = len' from funext₂ heq]

/-- A change that turns one length into `k`. -/
theorem Mirror.updateLeaf_eq_ok {bst : Fin n → Bst} {len : Fin n → Fin m → ℕ} (h : Mirror bst len)
    (i : Fin n) (o : Fin m) (delta : ℤ) (k : ℕ) (hk : (len i o : ℤ) + delta = k) :
    ∃ bst', updateLeaf bst i o delta = .ok bst' ∧ Mirror bst' (update₂ len i o k) := by
  obtain ⟨bst', hrun, hmir⟩ := SschedSimulator.updateLeaf_eq_ok h i o
    (by omega : 0 ≤ (len i o : ℤ) + delta)
  refine ⟨bst', hrun, fun i' => ?_⟩
  refine cast (congrArg (Mirrors (bst' i')) ?_) (hmir i')
  ext o'
  rw [update₂_apply, update₂_apply]
  split
  · exact hk
  · rfl

/-- Every arrival is counted once. -/
theorem handleArrivals_eq_ok {bst : Fin n → Bst} {len : Fin n → Fin m → ℕ} (h : Mirror bst len)
    (arrivals : List (Fin n × Fin m)) :
    ∃ bst', handleArrivals arrivals bst = .ok bst' ∧
      Mirror bst' (fun i o => len i o + arrivals.count (i, o)) := by
  unfold handleArrivals
  induction arrivals generalizing bst len with
  | nil => exact ⟨bst, rfl, h.congr (fun i o => by simp)⟩
  | cons p rest ih =>
    obtain ⟨bst₁, hrun₁, hmir₁⟩ := h.updateLeaf_eq_ok p.1 p.2 1 (len p.1 p.2 + 1) rfl
    obtain ⟨bst₂, hrun₂, hmir₂⟩ := ih hmir₁
    refine ⟨bst₂, by rw [List.foldlM_cons, hrun₁, ok_bind, hrun₂], hmir₂.congr (fun i o => ?_)⟩
    rw [update₂_add, List.count_cons]
    simp only [beq_iff_eq, Prod.mk.eta]
    omega

/-- One input of the loop of `handleDepartures`. -/
def departInput (len : Fin n → Fin m → ℕ) (inMatch : Fin n → Option (Fin m)) (bst : Fin n → Bst)
    (s : Fin n) : Except Fault (Fin n → Bst) :=
  match inMatch s with
  | none => .ok bst
  | some d => if 0 < len s d then updateLeaf bst s d (-1) else .ok bst

/-- The trees in the middle of `handleDepartures`: the inputs of `rest`, still to come, have their
    old lengths, the others those they end with. -/
structure Departing (len : Fin n → Fin m → ℕ) (inMatch : Fin n → Option (Fin m))
    (rest : List (Fin n)) (bst : Fin n → Bst) (now : Fin n → Fin m → ℕ) : Prop where
  nodup : rest.Nodup
  mirror : Mirror bst now
  before : ∀ i ∈ rest, ∀ o, now i o = len i o
  after : ∀ i, i ∉ rest → ∀ o, now i o = len i o - if inMatch i = some o then 1 else 0

theorem Departing.step {bst : Fin n → Bst} {len now : Fin n → Fin m → ℕ}
    {inMatch : Fin n → Option (Fin m)} {s : Fin n} {rest : List (Fin n)}
    (h : Departing len inMatch (s :: rest) bst now) :
    Post (departInput len inMatch bst s) (fun _ => False)
      (fun bst' => ∃ now', Departing len inMatch rest bst' now') := by
  obtain ⟨hs, hrest⟩ := List.nodup_cons.mp h.nodup
  have hself : ∀ o, now s o = len s o := h.before s (List.mem_cons_self ..)
  -- If `s` sends nothing, its lengths are already those it ends with.
  have hkeep : (∀ d, inMatch s = some d → len s d = 0) →
      ∃ now', Departing len inMatch rest bst now' := by
    intro hzero
    refine ⟨now, hrest, h.mirror, fun i hi => h.before i (List.mem_cons_of_mem _ hi),
      fun i hi o => ?_⟩
    by_cases his : i = s
    · subst his
      rw [hself]
      split
      · rename_i hd
        rw [hzero o hd]
      · rfl
    · exact h.after i (by simp [his, hi]) o
  unfold departInput
  cases hm : inMatch s with
  | none => exact hkeep (fun d hd => by rw [hm] at hd; cases hd)
  | some d =>
    dsimp only
    split
    · rename_i hpos
      obtain ⟨bst', hrun, hmir'⟩ := h.mirror.updateLeaf_eq_ok s d (-1) (len s d - 1)
        (by rw [hself]; omega)
      rw [hrun]
      refine ⟨_, hrest, hmir', fun i hi o => ?_, fun i hi o => ?_⟩
      · have hne : ¬ (i = s ∧ o = d) := fun hc => hs (hc.1 ▸ hi)
        rw [update₂_apply, if_neg hne]
        exact h.before i (List.mem_cons_of_mem _ hi) o
      · rw [update₂_apply]
        by_cases his : i = s
        · subst his
          rw [hself]
          by_cases ho : o = d
          · rw [if_pos ⟨rfl, ho⟩, if_pos (ho ▸ hm), ho]
          · have hne : ¬ inMatch i = some o := by
              rw [hm, Option.some.injEq]
              exact Ne.symm ho
            rw [if_neg (fun hc => ho hc.2), if_neg hne, Nat.sub_zero]
        · rw [if_neg (fun hc => his hc.1)]
          exact h.after i (by simp [his, hi]) o
    · rename_i hzero
      refine hkeep (fun d' hd => ?_)
      rw [hm, Option.some.injEq] at hd
      rw [← hd]
      omega

/-- Every matched VOQ loses the packet that the switch is about to send, if it has one. -/
theorem handleDepartures_eq_ok {bst : Fin n → Bst} {len : Fin n → Fin m → ℕ} (h : Mirror bst len)
    (inMatch : Fin n → Option (Fin m)) :
    ∃ bst', handleDepartures len inMatch bst = .ok bst' ∧
      Mirror bst' (fun i o => len i o - if inMatch i = some o then 1 else 0) := by
  have h0 : Departing len inMatch (List.finRange n) bst len :=
    ⟨List.nodup_finRange n, h, fun _ _ _ => rfl, fun i hi => absurd (List.mem_finRange i) hi⟩
  have hloop : Post (handleDepartures len inMatch bst) (fun _ => False)
      (fun bst' => ∃ now, Departing len inMatch [] bst' now) :=
    Post.foldlM_rest (f := departInput len inMatch)
      (fun rest bst' => ∃ now, Departing len inMatch rest bst' now) _ _ ⟨len, h0⟩
      (fun _ _ _ hb => hb.elim (fun _ hnow => hnow.step))
  obtain ⟨bst', hrun, now, hnow⟩ := hloop.exists_ok (fun _ _ he => he)
  exact ⟨bst', hrun, hnow.mirror.congr (fun i o => hnow.after i List.not_mem_nil o)⟩

/-! ### The two steps -/

/-- The inputs that take part in an iteration count their packets, the others count none. -/
def openLength (st : State n m) (i : Fin n) : ℤ :=
  if st.inMatch i = none then getQueueLength st.bst i else 0

theorem openLength_eq_zero {st : State n m} {i : Fin n} :
    openLength st i = 0 ↔ getQueueLength st.bst i = 0 ∨ st.inMatch i ≠ none := by
  unfold openLength
  split <;> simp_all

/-- The proposal an unmatched output keeps. -/
def favourite (policy : AcceptPolicy) (len : Fin n → Fin m → ℕ) (draws : TreeDraws n m)
    (st : State n m) (out : Fin m) : Option (Fin n) :=
  (proposers (openLength st) (draws.outputs st.bst) draws.shuffle.val out).foldl
    (challenge (policy.prefers len out)) none

/-- The loop of Step 1 over any inputs: each unmatched output folds the policy over their
    proposals. -/
theorem proposeLoop_post (policy : AcceptPolicy) (len : Fin n → Fin m → ℕ) (draws : TreeDraws n m)
    (st : State n m) (inputs : List (Fin n)) (acc : Proposing n m) :
    Post (inputs.foldlM (proposeInput policy len draws.sample st) acc)
      (fun e => e = .badSample ∧ ∃ i, openLength st i ≠ 0 ∧ draws.outputs st.bst i = none)
      (fun acc' => ∀ out, acc'.lastCheck out = if st.outMatch out = none then
        (proposers (openLength st) (draws.outputs st.bst) inputs out).foldl
          (challenge (policy.prefers len out)) (acc.lastCheck out)
        else acc.lastCheck out) := by
  induction inputs generalizing acc with
  | nil =>
    intro out
    simp [proposers]
  | cons i rest ih =>
    rw [List.foldlM_cons]
    unfold proposeInput
    by_cases hskip : getQueueLength st.bst i = 0 ∨ st.inMatch i ≠ none
    · have hclosed := openLength_eq_zero.mpr hskip
      simp only [if_pos hskip, ok_bind, proposers_cons_of_zero hclosed]
      exact ih acc
    · have hopen : openLength st i ≠ 0 := fun h0 => hskip (openLength_eq_zero.mp h0)
      rw [if_neg hskip]
      cases hs : draws.sample i (st.bst i) with
      | none => exact ⟨rfl, i, hopen, hs⟩
      | some p =>
        have hsample : draws.outputs st.bst i = some p := hs
        dsimp only
        by_cases hmatched : st.outMatch p ≠ none
        · -- A matched output looks at no proposal.
          rw [if_pos hmatched, ok_bind]
          refine (ih _).imp (fun acc' hacc out => ?_)
          rw [hacc out]
          by_cases hout : out = p
          · subst hout
            rw [if_neg hmatched, if_neg hmatched]
          · rw [proposers_cons_of_ne hsample hout]
        · rw [if_neg hmatched, ok_bind]
          refine (ih _).imp (fun acc' hacc out => ?_)
          rw [hacc out]
          dsimp only
          by_cases hout : out = p
          · subst hout
            rw [not_not.mp hmatched, if_pos rfl, if_pos rfl, proposers_cons_self hopen hsample,
              List.foldl_cons, Function.update_self]
          · rw [proposers_cons_of_ne hsample hout, Function.update_of_ne hout]

/-- Step 1 fails only if an unmatched input with packets has no sample; otherwise each unmatched
    output has kept the proposal that the policy prefers. -/
theorem proposeAll_post (policy : AcceptPolicy) (len : Fin n → Fin m → ℕ) (draws : TreeDraws n m)
    (st : State n m) :
    Post (proposeAll policy len draws st)
      (fun e => e = .badSample ∧ ∃ i, openLength st i ≠ 0 ∧ draws.outputs st.bst i = none)
      (fun acc => ∀ out, acc.lastCheck out
        = if st.outMatch out = none then favourite policy len draws st out else none) := by
  refine (proposeLoop_post policy len draws st draws.shuffle.val _).imp (fun acc hacc out => ?_)
  rw [hacc out]
  rfl

/-- Serving one output whose favourite, if any, is unmatched adds that pair to the matching. -/
theorem acceptOutput_inMatch {lastCheck : Fin m → Option (Fin n)} {st : State n m} {out : Fin m}
    (hfree : ∀ i, lastCheck out = some i → st.inMatch i = none) (i : Fin n) (o : Fin m) :
    (acceptOutput lastCheck st out).inMatch i = some o ↔
      st.inMatch i = some o ∨ o = out ∧ lastCheck out = some i := by
  unfold acceptOutput
  cases hl : lastCheck out with
  | none => simp
  | some j =>
    have hj := hfree j hl
    dsimp only
    rw [if_pos hj]
    show Function.update st.inMatch j (some out) i = some o ↔ _
    by_cases hi : i = j
    · subst hi
      rw [Function.update_self, hj]
      simp [eq_comm]
    · rw [Function.update_of_ne hi]
      simp [Ne.symm hi]

theorem acceptOutput_bst (lastCheck : Fin m → Option (Fin n)) (st : State n m) (out : Fin m) :
    (acceptOutput lastCheck st out).bst = st.bst := by
  unfold acceptOutput
  split
  · rfl
  · split <;> rfl

/-- The loop of Step 2 over any outputs. -/
theorem acceptLoop_inMatch {lastCheck : Fin m → Option (Fin n)} {sample : Fin n → Option (Fin m)}
    (hlast : ∀ out i, lastCheck out = some i → sample i = some out) {outs : List (Fin m)}
    (houts : outs.Nodup) {st : State n m}
    (hfree : ∀ out ∈ outs, ∀ i, lastCheck out = some i → st.inMatch i = none) :
    (outs.foldl (acceptOutput lastCheck) st).bst = st.bst ∧
      ∀ i o, (outs.foldl (acceptOutput lastCheck) st).inMatch i = some o ↔
        st.inMatch i = some o ∨ o ∈ outs ∧ lastCheck o = some i := by
  induction outs generalizing st with
  | nil => simp
  | cons out rest ih =>
    obtain ⟨hout, hrest⟩ := List.nodup_cons.mp houts
    have hstep := acceptOutput_inMatch (hfree out (List.mem_cons_self ..))
    -- The favourite of an output still to come is not the one just matched, which sampled `out`.
    have hfree' : ∀ o ∈ rest, ∀ i, lastCheck o = some i →
        (acceptOutput lastCheck st out).inMatch i = none := by
      intro o ho i hi
      rw [Option.eq_none_iff_forall_ne_some]
      intro p hp
      rcases (hstep i p).mp hp with hp | ⟨rfl, hi'⟩
      · rw [hfree o (List.mem_cons_of_mem _ ho) i hi] at hp
        cases hp
      · have heq := (hlast o i hi).symm.trans (hlast p i hi')
        rw [Option.some.injEq] at heq
        exact hout (heq ▸ ho)
    obtain ⟨hbst, hmatch⟩ := ih hrest hfree'
    rw [List.foldl_cons]
    refine ⟨hbst.trans (acceptOutput_bst lastCheck st out), fun i o => ?_⟩
    rw [hmatch, hstep, List.mem_cons, or_assoc]
    refine or_congr_right ?_
    constructor
    · rintro (⟨rfl, hi⟩ | ⟨ho, hi⟩)
      · exact ⟨.inl rfl, hi⟩
      · exact ⟨.inr ho, hi⟩
    · rintro ⟨rfl | ho, hi⟩
      · exact .inl ⟨rfl, hi⟩
      · exact .inr ⟨ho, hi⟩

/-- Step 2 adds exactly the kept proposals to the matching, provided they come from unmatched
    inputs, each for the one output it sampled. -/
theorem acceptAll_eq {lastCheck : Fin m → Option (Fin n)} {st : State n m}
    {sample : Fin n → Option (Fin m)}
    (hlast : ∀ out i, lastCheck out = some i → st.inMatch i = none ∧ sample i = some out) :
    (acceptAll lastCheck st).bst = st.bst ∧
      ∀ i o, (acceptAll lastCheck st).inMatch i = some o ↔
        st.inMatch i = some o ∨ lastCheck o = some i := by
  obtain ⟨hbst, hmatch⟩ := acceptLoop_inMatch (fun out i hi => (hlast out i hi).2)
    (List.nodup_finRange m) (fun out _ i hi => (hlast out i hi).1)
  refine ⟨hbst, fun i o => ?_⟩
  rw [acceptAll, hmatch]
  simp

/-! ### One iteration, longest first, with replacement -/

/-- QPS-1. -/
def qps1 : Config where
  iterations := 1
  acceptPolicy := .longestFirst
  withoutReplacement := false

/-- With all ports unmatched the favourite is the longest proposer. -/
theorem favourite_unmatched (len : Fin n → Fin m → ℕ) (draws : TreeDraws n m) (bst : Fin n → Bst)
    (out : Fin m) :
    favourite .longestFirst len draws ⟨bst, fun _ => none, fun _ => none⟩ out
      = draws.longestProposer bst (fun i o => (len i o : ℤ)) out := by
  unfold favourite TreeDraws.longestProposer
  congr 1
  ext kept i
  simp only [challenge, AcceptPolicy.prefers, gt_iff_lt, Nat.cast_lt]

/-- A slot of QPS-1 with valid samples: each output serves its longest proposer, and the trees
    mirror what is left in the queues. -/
theorem schedule_qps1_eq_ok {sw : IQSwitch n m} {st : State n m} {len : Fin n → Fin m → ℕ}
    (h : Mirror st.bst len)
    (hsw : ∀ i o, sw.getQueueLength i o = len i o + sw.getArrivals.count (i, o))
    (draws : ℕ → TreeDraws n m) (hvalid : (draws 0).Valid) :
    ∃ st' bst, schedule qps1 draws sw st = .ok st' ∧ Mirror bst sw.getQueueLength ∧
      (∀ i o, st'.inMatch i = some o ↔
        (draws 0).longestProposer bst (fun i o => (sw.getQueueLength i o : ℤ)) o = some i) ∧
      Mirror st'.bst
        (fun i o => sw.getQueueLength i o - if st'.inMatch i = some o then 1 else 0) := by
  obtain ⟨bst, harrive, hmir⟩ := handleArrivals_eq_ok h sw.getArrivals
  have hbst : Mirror bst sw.getQueueLength := hmir.congr (fun i o => (hsw i o).symm)
  let open₀ : State n m := ⟨bst, fun _ => none, fun _ => none⟩
  -- The samples are valid, so Step 1 does not fail.
  obtain ⟨acc, hpropose, hlast⟩ := (proposeAll_post .longestFirst sw.getQueueLength (draws 0)
    open₀).exists_ok (by
      rintro e - ⟨-, i, hne, hnone⟩
      obtain ⟨o, ho, -⟩ := hvalid i (bst i) _ (hbst i) hne
      rw [TreeDraws.outputs, show open₀.bst = bst from rfl, ho] at hnone
      cases hnone)
  have hfav : ∀ out, acc.lastCheck out
      = (draws 0).longestProposer bst (fun i o => (sw.getQueueLength i o : ℤ)) out := by
    intro out
    rw [hlast out, if_pos rfl]
    exact favourite_unmatched sw.getQueueLength (draws 0) bst out
  have hlastCheck : ∀ out i, acc.lastCheck out = some i →
      open₀.inMatch i = none ∧ (draws 0).outputs bst i = some out := by
    intro out i hi
    rw [hfav out] at hi
    exact ⟨rfl, (TreeDraws.longestProposer_eq_some hi).2⟩
  obtain ⟨hsame, hmatch⟩ := acceptAll_eq hlastCheck
  obtain ⟨bst', hdepart, hmir'⟩ :=
    handleDepartures_eq_ok hbst (acceptAll acc.lastCheck open₀).inMatch
  have hiterate : iterate qps1 sw.getQueueLength (draws 0) ⟨open₀, []⟩
      = .ok ⟨acceptAll acc.lastCheck open₀, []⟩ := by
    unfold iterate
    rw [show qps1.acceptPolicy = .longestFirst from rfl, hpropose]
    rfl
  refine ⟨{ acceptAll acc.lastCheck open₀ with bst := bst' }, bst, ?_, hbst, fun i o => ?_, hmir'⟩
  · have hloop : (List.range qps1.iterations).foldlM
        (fun w it => iterate qps1 sw.getQueueLength (draws it) w) (⟨open₀, []⟩ : Working n m)
          = .ok ⟨acceptAll acc.lastCheck open₀, []⟩ := by
      show (iterate qps1 sw.getQueueLength (draws 0) ⟨open₀, []⟩ >>= fun w => .ok w) = _
      rw [hiterate, ok_bind]
    -- No VOQ was left out, so there is nothing to restore.
    have hrestore : restoreVOQ (m := m) [] (acceptAll acc.lastCheck open₀).bst = .ok bst := by
      rw [hsame]
      rfl
    unfold schedule
    rw [harrive, ok_bind, hloop, ok_bind, hrestore, ok_bind, hdepart, ok_bind]
  · rw [← hfav o]
    refine (hmatch i o).trans ⟨?_, .inr⟩
    rintro (hnone | hi)
    · cases hnone
    · exact hi

end Qps

end SschedSimulator
