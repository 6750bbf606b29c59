import SschedSimulator.Scheduler.SlidingWindow.Invariant

namespace SschedSimulator

open Foundation

/-!
# `Sliding_Window_QPS` — first fit without its shortcuts

The accept phase passes over an input whose counter is zero and leaves the proposals of an output
whose counter is zero, with the debug flag one by one.  Since the counters are exact whenever a
proposal is looked at, this makes no difference: the phase grants what a plain scan of the bitmaps
grants.

* `Accepting.scan` — the plain scan;
* `Accepting.acceptLoop_eq_scan` — one output;
* `accept_eq_scan`, `acceptUntil_eq_scan` — the phase, and any point of it;
* `firstFit_of_reachable` — who is granted a frame, and which.
-/

variable {n m B k : ℕ} {frames : List ℕ}

namespace Booking

/-- The frame is free for both ports. -/
def bothFree (b : Booking n m) (i : Fin n) (o : Fin m) (f : ℕ) : Bool :=
  !(b.inFlag i f || b.outFlag o f)

theorem bothFree_iff {b : Booking n m} {i : Fin n} {o : Fin m} {f : ℕ} :
    b.bothFree i o f = true ↔ b.inFlag i f = false ∧ b.outFlag o f = false := by
  rw [bothFree, Bool.not_eq_true', Bool.or_eq_false_iff]

end Booking

namespace Accepting

/-- One proposal, looked up in the bitmaps alone. -/
def scanProposal (frames : List ℕ) (acc : Accepting n m) (p : Fin n × Fin m) : Accepting n m :=
  match frames.find? (acc.toBooking.bothFree p.1 p.2) with
  | none => acc
  | some f => acc.grantAt f p.1 p.2

/-- All proposals in turn. -/
def scan (frames : List ℕ) (proposals : List (Fin n × Fin m)) (acc : Accepting n m) :
    Accepting n m := proposals.foldl (scanProposal frames) acc

theorem scan_append (proposals rest : List (Fin n × Fin m)) (acc : Accepting n m) :
    scan frames (proposals ++ rest) acc = scan frames rest (scan frames proposals acc) :=
  List.foldl_append

/-- Either no frame is free for both ports, or the first such frame is granted. -/
theorem scanProposal_cases (frames : List ℕ) (acc : Accepting n m) (i : Fin n) (out : Fin m) :
    ((∀ f ∈ frames, acc.toBooking.bothFree i out f = false) ∧
      scanProposal frames acc (i, out) = acc) ∨
    ∃ before f after, frames = before ++ f :: after ∧
      (∀ g ∈ before, acc.toBooking.bothFree i out g = false) ∧
      acc.toBooking.bothFree i out f = true ∧
      scanProposal frames acc (i, out) = acc.grantAt f i out := by
  unfold scanProposal
  cases hfind : frames.find? (acc.toBooking.bothFree i out) with
  | none =>
    refine .inl ⟨fun f hf => ?_, rfl⟩
    simpa using List.find?_eq_none.mp hfind f hf
  | some f =>
    obtain ⟨hfree, before, after, hsplit, hbefore⟩ := List.find?_eq_some_iff_append.mp hfind
    exact .inr ⟨before, f, after, hsplit, fun g hg => by simpa using hbefore g hg, hfree, rfl⟩

/-- With exact counters, a proposal is granted the frame that the scan finds. -/
theorem grant_eq_scan {acc : Accepting n m} (h : acc.toBooking.Consistent B k k)
    (hk : k ≤ bitmapWidth) (hframes : ∀ f ∈ frames, f < k) (out : Fin m) (i : Fin n) :
    acc.grant frames out i = .ok (scanProposal frames acc (i, out)) := by
  rw [grant_eq h.covers hk hframes, h.choose_eq hframes]
  rfl

/-- The scan keeps the counters exact. -/
theorem scanProposal_consistent {acc : Accepting n m} (h : acc.toBooking.Consistent B k k)
    (hk : k ≤ bitmapWidth) (hframes : ∀ f ∈ frames, f < k) (p : Fin n × Fin m) :
    (scanProposal frames acc p).toBooking.Consistent B k k := by
  obtain ⟨i, out⟩ := p
  rcases scanProposal_cases frames acc i out with ⟨-, heq⟩ | ⟨_, f, _, hsplit, -, hfree, heq⟩
  · rw [heq]
    exact h
  · rw [Booking.bothFree, Bool.not_eq_true', Bool.or_eq_false_iff] at hfree
    have hf : f < k := hframes f (by simp [hsplit])
    rw [heq]
    exact h.take hk hf hf hfree.1 hfree.2

theorem scan_consistent {acc : Accepting n m} (h : acc.toBooking.Consistent B k k)
    (hk : k ≤ bitmapWidth) (hframes : ∀ f ∈ frames, f < k) (proposals : List (Fin n × Fin m)) :
    (scan frames proposals acc).toBooking.Consistent B k k := by
  induction proposals generalizing acc with
  | nil => exact h
  | cons p rest ih => exact ih (scanProposal_consistent h hk hframes p)

/-- An output without a free frame grants nothing. -/
theorem scan_eq_self {acc : Accepting n m} {out : Fin m} (h : freeAt frames acc out = [])
    (ins : List (Fin n)) : scan frames (ins.map (·, out)) acc = acc := by
  induction ins with
  | nil => rfl
  | cons i rest ih =>
    have hnone : frames.find? (acc.toBooking.bothFree i out) = none := by
      refine List.find?_eq_none.mpr (fun f hf => ?_)
      have hout : acc.outFlag out f = true := by simpa using List.filter_eq_nil_iff.mp h f hf
      simp [Booking.bothFree, hout]
    have hstep : scanProposal frames acc (i, out) = acc := by simp [scanProposal, hnone]
    show scan frames (rest.map (·, out)) (scanProposal frames acc (i, out)) = acc
    rw [hstep, ih]

/-- With exact counters the shortcuts of the walk make no difference, whether it leaves the loop or
    goes on when the counter of the output is down to zero. -/
theorem acceptLoop_eq_scan {acc : Accepting n m} (h : acc.toBooking.Consistent B k k)
    (hk : k ≤ bitmapWidth) (hframes : ∀ f ∈ frames, f < k) (skip : Bool) (out : Fin m)
    (ins : List (Fin n)) :
    acc.acceptLoop (fun available => available != 0) skip frames out ins
      = .ok (scan frames (ins.map (·, out)) acc) := by
  induction ins generalizing acc with
  | nil => rfl
  | cons i rest ih =>
    unfold acceptLoop
    by_cases hzero : acc.outputAvailability out = 0
    · have hfull := freeAt_eq_nil h hframes (by omega : ¬ acc.outputAvailability out > 0)
      rw [if_neg (by simp [hzero]), scan_eq_self hfull]
      split
      · rw [ih h, scan_eq_self hfull]
      · rfl
    · rw [if_pos (by simpa using hzero), grant_eq_scan h hk hframes, ok_bind,
        ih (scanProposal_consistent h hk hframes (i, out))]
      rfl

/-- Some of the outputs in turn. -/
theorem acceptAll_eq_scan {acc : Accepting n m} (h : acc.toBooking.Consistent B k k)
    (hk : k ≤ bitmapWidth) (hframes : ∀ f ∈ frames, f < k) (skip : Bool)
    (ins : Fin m → List (Fin n)) (outs : List (Fin m)) :
    outs.foldlM (fun acc out =>
        acc.acceptLoop (fun available => available != 0) skip frames out (ins out)) acc
      = .ok (scan frames (proposalPairs ins outs) acc) := by
  induction outs generalizing acc with
  | nil => rfl
  | cons out rest ih =>
    rw [List.foldlM_cons, acceptLoop_eq_scan h hk hframes, ok_bind,
      ih (scan_consistent h hk hframes _), ← scan_append]
    rfl

end Accepting

namespace SlidingWindowQps

variable {cfg : Config} {sort : DescSort (Fin n)}

/-- Inside the accept phase: the first `k` outputs are done, and the next one has looked at `j` of
    its proposals. -/
def acceptUntil (cfg : Config) (sort : DescSort (Fin n)) (timeSlot : ℕ)
    (outAccepts : Fin m → List (Fin n)) (st : State n m) (k j : ℕ) :
    Except Fault (Accepting n m) := do
  let walk := fun (acc : Accepting n m) (out : Fin m) (ins : List (Fin n)) =>
    acc.acceptLoop (fun available => available != 0) cfg.debugMode
      (CircularGenerator.frames timeSlot cfg.batchSize cfg.batching) out ins
  let kept := fun out => sort.run (fun i => st.inputQueues i out) (outAccepts out)
  let acc ← ((List.finRange m).take k).foldlM (fun acc out => walk acc out (kept out))
    { toBooking := st.toBooking, virtualDepartures := [] }
  match (List.finRange m)[k]? with
  | none => .ok acc
  | some out => walk acc out ((kept out).take j)

/-- The proposals looked at by then. -/
def proposalsUntil (kept : Fin m → List (Fin n)) (k j : ℕ) : List (Fin n × Fin m) :=
  proposalPairs kept ((List.finRange m).take k) ++
    match (List.finRange m)[k]? with
    | none => []
    | some out => ((kept out).take j).map (·, out)

section

variable {timeSlot : ℕ} {st : State n m}

/-- The frames that the generator visits are counted and fit in the bitmaps. -/
theorem frames_lt {t : ℕ} (ht : t < cfg.batchSize) :
    ∀ f ∈ CircularGenerator.frames t cfg.batchSize cfg.batching, f < cfg.batchSize :=
  fun _ hf => ((CircularGenerator.mem_frames ht).mp hf).1

/-- The accept phase is the plain scan of the proposals. -/
theorem accept_eq_scan (hB : cfg.batchSize ≤ bitmapWidth) (ht : timeSlot < cfg.batchSize)
    (h : Sound cfg st) (outAccepts : Fin m → List (Fin n)) :
    accept cfg sort timeSlot outAccepts st
      = .ok (Accepting.scan (CircularGenerator.frames timeSlot cfg.batchSize cfg.batching)
        (proposalPairs (fun out => sort.run (fun i => st.inputQueues i out) (outAccepts out))
          (List.finRange m)) { toBooking := st.toBooking, virtualDepartures := [] }) :=
  Accepting.acceptAll_eq_scan h.tables hB (frames_lt ht) cfg.debugMode _ _

/-- So is every part of it. -/
theorem acceptUntil_eq_scan (hB : cfg.batchSize ≤ bitmapWidth) (ht : timeSlot < cfg.batchSize)
    (h : Sound cfg st) (outAccepts : Fin m → List (Fin n)) (k j : ℕ) :
    acceptUntil cfg sort timeSlot outAccepts st k j
      = .ok (Accepting.scan (CircularGenerator.frames timeSlot cfg.batchSize cfg.batching)
        (proposalsUntil (fun out => sort.run (fun i => st.inputQueues i out) (outAccepts out)) k j)
          { toBooking := st.toBooking, virtualDepartures := [] }) := by
  have hframes : ∀ f ∈ CircularGenerator.frames timeSlot cfg.batchSize cfg.batching,
      f < cfg.batchSize := frames_lt ht
  dsimp only [acceptUntil]
  rw [Accepting.acceptAll_eq_scan h.tables hB hframes, ok_bind, proposalsUntil,
    Accepting.scan_append]
  cases (List.finRange m)[k]? with
  | none => rfl
  | some out =>
    exact Accepting.acceptLoop_eq_scan (Accepting.scan_consistent h.tables hB hframes _) hB hframes
      cfg.debugMode out _

/-- The next proposal is looked at. -/
theorem proposalsUntil_succ {kept : Fin m → List (Fin n)} {k j : ℕ} {out : Fin m} {i : Fin n}
    (hout : (List.finRange m)[k]? = some out) (hi : (kept out)[j]? = some i) :
    proposalsUntil kept k (j + 1) = proposalsUntil kept k j ++ [(i, out)] := by
  simp [proposalsUntil, hout, List.take_add_one, hi]

end

/-- First fit is complete and its shortcuts are lossless.  At the states at which a round accepts
    (reachable, with the dispatch of a batching round or without it, and after any arrivals), for
    every frame `t` and whatever proposals were kept: the phase returns what the plain scan does,
    with and without the debug flag; and at any point of it the next proposal is granted the first
    frame of the generator that is free for both ports, or nothing if there is none. -/
theorem firstFit_of_reachable (hB1 : 1 ≤ cfg.batchSize) (hB : cfg.batchSize ≤ bitmapWidth)
    {st₀ : State n m} (h : Reachable cfg sort st₀) {now : Bool} {t₀ : ℕ} (ht₀ : t₀ < cfg.batchSize)
    {st₁ : State n m} (hst₁ : dispatchIf now t₀ st₀ = .ok st₁) (sw : IQSwitch n m) {t : ℕ}
    (ht : t < cfg.batchSize) (outAccepts : Fin m → List (Fin n)) (debugMode : Bool) :
    let run : Config := { cfg with debugMode := debugMode }
    let st := handlePacketArrivals sw st₁
    let kept := fun out => sort.run (fun i => st.inputQueues i out) (outAccepts out)
    let frames := CircularGenerator.frames t cfg.batchSize cfg.batching
    let scan := fun proposals =>
      Accepting.scan frames proposals { toBooking := st.toBooking, virtualDepartures := [] }
    accept run sort t outAccepts st = .ok (scan (proposalPairs kept (List.finRange m))) ∧
    ∀ k out, (List.finRange m)[k]? = some out → ∀ j i, (kept out)[j]? = some i →
      ∃ acc, acceptUntil run sort t outAccepts st k j = .ok acc ∧
        acc = scan (proposalsUntil kept k j) ∧
        ((∀ f ∈ frames, acc.toBooking.bothFree i out f = false) ∧
            acceptUntil run sort t outAccepts st k (j + 1) = .ok acc ∨
          ∃ before f after, frames = before ++ f :: after ∧
            (∀ g ∈ before, acc.toBooking.bothFree i out g = false) ∧
            acc.toBooking.bothFree i out f = true ∧
            acceptUntil run sort t outAccepts st k (j + 1) = .ok (acc.grantAt f i out)) := by
  intro run st kept frames scan
  have hsound₁ : Sound cfg st₁ := by
    obtain ⟨st', hrun, hsound, -⟩ := dispatchIf_eq_ok hB now ht₀ (sound_of_reachable hB1 hB h)
    rw [hst₁] at hrun
    cases hrun
    exact hsound
  have hsound : Sound run st := by
    refine ⟨hsound₁.tables, fun i o => ?_⟩
    have harr := handlePacketArrivals_inputQueues sw st₁ i o
    have := hsound₁.nonneg i o
    show 0 ≤ (handlePacketArrivals sw st₁).inputQueues i o
    omega
  have hrunB : run.batchSize ≤ bitmapWidth := hB
  have hrunt : t < run.batchSize := ht
  refine ⟨accept_eq_scan hrunB hrunt hsound outAccepts, fun k out hout j i hi => ?_⟩
  -- The program before and after the proposal is a scan of one list and of a longer one.
  have hnow : acceptUntil run sort t outAccepts st k j = _ :=
    acceptUntil_eq_scan hrunB hrunt hsound outAccepts k j
  have hnext : acceptUntil run sort t outAccepts st k (j + 1) = _ :=
    acceptUntil_eq_scan hrunB hrunt hsound outAccepts k (j + 1)
  rw [proposalsUntil_succ hout hi, Accepting.scan_append] at hnext
  refine ⟨_, hnow, rfl, ?_⟩
  rw [hnext]
  rcases Accepting.scanProposal_cases frames (scan (proposalsUntil kept k j)) i out with
    ⟨hnone, heq⟩ | ⟨before, f, after, hsplit, hbefore, hfree, heq⟩
  · exact .inl ⟨hnone, congrArg Except.ok heq⟩
  · exact .inr ⟨before, f, after, hsplit, hbefore, hfree, congrArg Except.ok heq⟩

/-- An output keeps the proposals of both inputs; they get the two frames of the window. -/
theorem firstFit_two :
    ∃ acc : Accepting 2 2,
      accept ⟨2, 3, false, true⟩ .insertion 0 (fun out => if out = 0 then [0, 1] else [])
        (handlePacketArrivals (IQSwitch.empty 2 2) (State.initial ⟨2, 3, false, true⟩)) = .ok acc ∧
      acc.schedules 0 0 = some 0 ∧ acc.schedules 1 1 = some 0 := by
  obtain ⟨hrun, -⟩ := firstFit_of_reachable (by decide) (by decide)
    (.initial : Reachable ⟨2, 3, false, true⟩ .insertion (State.initial _ : State 2 2))
    (show 0 < 2 by decide) (show dispatchIf false 0 _ = _ from rfl) (IQSwitch.empty 2 2)
    (show 0 < 2 by decide)
    (fun out => if out = 0 then [0, 1] else []) true
  exact ⟨_, hrun, by decide, by decide⟩

end SlidingWindowQps

end SschedSimulator
