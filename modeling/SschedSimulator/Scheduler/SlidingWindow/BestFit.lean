import SschedSimulator.Lemon.ListGraph
import SschedSimulator.Scheduler.SlidingWindow.Basic

namespace SschedSimulator

open Foundation

/-!
# `sliding_window_qps.cpp` — the scheduler `SW_QPS_Best_Fit`

A sliding window without batching in which an output keeps all its proposals.  First fit is only a
trial on copies of the tables: it gives an initial matching of proposals with frames, from which a
solver finds a matching of maximal size, and the frames of that matching are reserved.

* `trialLoop`, `buildGraph`, `acceptOutput`, `schedule` — the operations of the source;
* `Built` — which nodes of the graph are frames and which are proposals;
* `Built.nodeMap_lt` — the mate of a proposal is a frame of the window.
-/

namespace SwQpsBestFit

variable {n m : ℕ}

/-- The state is that of the base class. -/
abbrev State (n m : ℕ) := SlidingWindowQps.State n m

/-- The arguments that the constructor hands to the base class. -/
def window (B : ℕ) : SlidingWindowQps.Config := ⟨B, 0, false, false⟩

/-- A solver: the mates that `max_matching.run()` finds in a graph, started from the edges of an
    initial matching. -/
abbrev Solver := ListGraph → (ℕ → Bool) → ℕ → Option ℕ

/-! ### The trial -/

/-- The local copies that the trial changes, and `initial_match`. -/
structure Trial (n : ℕ) where
  inputAvail : Fin n → ℤ
  outAvail : ℤ
  inFlags : Fin n → Bitset bitmapWidth
  outFlags : Bitset bitmapWidth
  initialMatch : Fin n → Option ℕ

/-- The copies before the trial of `out`. -/
def Trial.start (tables : Booking n m) (out : Fin m) : Trial n where
  inputAvail := tables.inputAvailability
  outAvail := tables.outputAvailability out
  inFlags := tables.inputMatchBitmap
  outFlags := tables.outputMatchBitmap out
  initialMatch := fun _ => none

/-- Give frame `f` to input `i` in the trial. -/
def Trial.take (tr : Trial n) (f : ℕ) (i : Fin n) : Except Fault (Trial n) := do
  require (f < bitmapWidth) .bitOutOfRange
  .ok
    { inputAvail := Function.update tr.inputAvail i (tr.inputAvail i - 1)
      outAvail := tr.outAvail - 1
      inFlags := Function.update tr.inFlags i ((tr.inFlags i).set f)
      outFlags := tr.outFlags.set f
      initialMatch := Function.update tr.initialMatch i (some f) }

/-- The trial over the sorted proposals. -/
def trialLoop (frames : List ℕ) : List (Fin n) → Trial n → Except Fault (Trial n)
  | [], tr => .ok tr
  | i :: rest, tr =>
    if tr.outAvail = 0 then .ok tr
    else if tr.inputAvail i = 0 then trialLoop frames rest tr
    else do
      match ← firstFit (tr.inFlags i ||| tr.outFlags) frames with
      | none => trialLoop frames rest tr
      | some f => do
        let tr' ← tr.take f i
        trialLoop frames rest tr'

/-! ### The graph -/

/-- `avail_graph` with its maps, nodes and edges kept by their ids; a blue node stands beside the
    input that `node_map` gives for it. -/
structure AvailGraph (n : ℕ) where
  g : ListGraph
  nodeMap : ℕ → ℕ
  redNodes : ℕ → ℕ
  blueNodes : List (ℕ × Fin n)
  initialMatchingMap : ℕ → Bool

/-- The graph without nodes. -/
def AvailGraph.empty : AvailGraph n := ⟨ListGraph.empty, fun _ => 0, fun _ => 0, [], fun _ => false⟩

/-- A red node for frame `f`, if the output is free there. -/
def addRedNode (outFlags : Bitset bitmapWidth) (ag : AvailGraph n) (f : ℕ) :
    Except Fault (AvailGraph n) := do
  let used ← testBit outFlags f
  if used then .ok ag
  else
    .ok
      { ag with
        g := ag.g.addNode.2
        nodeMap := Function.update ag.nodeMap ag.g.addNode.1 f
        redNodes := Function.update ag.redNodes f ag.g.addNode.1 }

/-- A blue node for the proposal of `i`. -/
def addBlueNode (ag : AvailGraph n) (i : Fin n) : AvailGraph n :=
  { ag with
    g := ag.g.addNode.2
    nodeMap := Function.update ag.nodeMap ag.g.addNode.1 i
    blueNodes := ag.blueNodes ++ [(ag.g.addNode.1, i)] }

/-- An edge from a proposal to frame `f`, if both ports are free there. -/
def addEdge (inFlags outFlags : Bitset bitmapWidth) (initialMatch : Option ℕ) (bn : ℕ)
    (ag : AvailGraph n) (f : ℕ) : Except Fault (AvailGraph n) := do
  let inUsed ← testBit inFlags f
  if inUsed then .ok ag
  else do
    let outUsed ← testBit outFlags f
    if outUsed then .ok ag
    else
      .ok
        { ag with
          g := (ag.g.addEdge (ag.redNodes f) bn).2
          initialMatchingMap := Function.update ag.initialMatchingMap
            (ag.g.addEdge (ag.redNodes f) bn).1 (decide (initialMatch = some f)) }

/-- The edges of one proposal. -/
def addEdges (B : ℕ) (tables : Booking n m) (out : Fin m) (initialMatch : Fin n → Option ℕ)
    (ag : AvailGraph n) (bn : ℕ × Fin n) : Except Fault (AvailGraph n) :=
  (List.range B).foldlM (addEdge (tables.inputMatchBitmap bn.2) (tables.outputMatchBitmap out)
    (initialMatch bn.2) bn.1) ag

/-- The graph of `out` and the inputs that propose to it. -/
def buildGraph (B : ℕ) (tables : Booking n m) (out : Fin m) (ins : List (Fin n))
    (initialMatch : Fin n → Option ℕ) : Except Fault (AvailGraph n) := do
  let red ← (List.range B).foldlM (addRedNode (tables.outputMatchBitmap out)) .empty
  let blue := ins.foldl addBlueNode red
  blue.blueNodes.foldlM (addEdges B tables out initialMatch) blue

/-! ### `qps` and `schedule` -/

/-- Reserve the frame of a proposal that has a mate. -/
def install (out : Fin m) (mate : ℕ → Option ℕ) (nodeMap : ℕ → ℕ) (acc : Accepting n m)
    (bn : ℕ × Fin n) : Except Fault (Accepting n m) :=
  match mate bn.1 with
  | none => .ok acc
  | some v => do
    let b ← acc.toBooking.reserve (nodeMap v) bn.2 out
    .ok { toBooking := b, virtualDepartures := acc.virtualDepartures ++ [(bn.2, out)] }

/-- The body of the accept loop for one output. -/
def acceptOutput (B : ℕ) (sort : DescSort (Fin n)) (maxMatching : Solver)
    (queues : Fin n → QueueSampler m) (timeSlot : ℕ) (outAccepts : Fin m → List (Fin n))
    (acc : Accepting n m) (out : Fin m) : Except Fault (Accepting n m) :=
  if outAccepts out = [] then .ok acc
  else do
    let tr ← trialLoop (CircularGenerator.frames timeSlot B false)
      (sort.run (fun i => (queues i).getPacketNumber out) (outAccepts out))
      (.start acc.toBooking out)
    let ag ← buildGraph B acc.toBooking out (outAccepts out) tr.initialMatch
    ag.blueNodes.foldlM (install out (maxMatching ag.g ag.initialMatchingMap) ag.nodeMap) acc

/-- Step 2 of `qps`. -/
def accept (B : ℕ) (sort : DescSort (Fin n)) (maxMatching : Solver) (timeSlot : ℕ)
    (outAccepts : Fin m → List (Fin n)) (st : State n m) : Except Fault (Accepting n m) :=
  (List.finRange m).foldlM (acceptOutput B sort maxMatching st.inputQueues timeSlot outAccepts)
    { toBooking := st.toBooking, virtualDepartures := [] }

/-- `qps`. -/
def qps (B : ℕ) (sort : DescSort (Fin n)) (maxMatching : Solver) (draws : Draws n m)
    (sw : IQSwitch n m) (timeSlot : ℕ) (st : State n m) : Except Fault (State n m) := do
  let st := SlidingWindowQps.handlePacketArrivals sw st
  let outAccepts ← propose (SlidingWindowQps.getQueueLengthForInput st)
    (fun i out => (st.inputQueues i).getPacketNumber out) draws.sample
    (fun i _ ins => ins ++ [i]) draws.shuffle.val (fun _ => [])
  let acc ← accept B sort maxMatching timeSlot outAccepts st
  SlidingWindowQps.handlePacketDepartures acc.virtualDepartures
    { st with toBooking := acc.toBooking }

/-- `schedule` of the base class, which calls this `qps`. -/
def schedule (B : ℕ) (sort : DescSort (Fin n)) (maxMatching : Solver) (draws : Draws n m)
    (sw : IQSwitch n m) (st : State n m) : Except Fault (State n m) := do
  let timeSlot := st.cfRelTime % B
  let st₁ ← qps B sort maxMatching draws sw timeSlot st
  let st₂ ← SlidingWindowQps.dispatchSchedule timeSlot st₁
  .ok { st₂ with cfRelTime := st₂.cfRelTime + 1 }

/-- The scheduler as a switch drives it. -/
abbrev model (n m B : ℕ) (sort : DescSort (Fin n)) (maxMatching : Solver) : SchedulerModel n m where
  State := State n m
  Input := Draws n m
  schedule := schedule B sort maxMatching
  inMatch := SlidingWindowQps.State.inMatch

/-! ### The nodes of the graph -/

/-- The solver only matches nodes that an edge joins. -/
def Joined (maxMatching : Solver) : Prop :=
  ∀ g initial u v, maxMatching g initial u = some v → ∃ e, g.Joins e u v

/-- The nodes below `k` are red and stand for frames of the window, all others are blue; every frame
    at which the output is free has a node, and every edge joins a red node to a blue one. -/
structure Built (B k : ℕ) (outFlags : Bitset bitmapWidth) (ag : AvailGraph n) : Prop where
  red : ∀ f < B, outFlags.test f = false → ag.redNodes f < k
  frame : ∀ v < k, ag.nodeMap v < B
  blue : ∀ bn ∈ ag.blueNodes, k ≤ bn.1
  edge : ∀ e ∈ ag.g.edges, e.1 < k ∧ k ≤ e.2

/-- The mate of a proposal is a frame. -/
theorem Built.nodeMap_lt {B k : ℕ} {outFlags : Bitset bitmapWidth} {ag : AvailGraph n}
    (h : Built B k outFlags ag) {maxMatching : Solver} (hjoined : Joined maxMatching)
    {bn : ℕ × Fin n} (hbn : bn ∈ ag.blueNodes) {v : ℕ}
    (hmate : maxMatching ag.g ag.initialMatchingMap bn.1 = some v) : ag.nodeMap v < B := by
  have hblue := h.blue bn hbn
  obtain ⟨e, he | he⟩ := hjoined _ _ _ _ hmate
  · -- A blue node is not the red end of an edge.
    have hred : bn.1 < k := (h.edge _ (List.mem_of_getElem? he)).1
    omega
  · exact h.frame v (h.edge _ (List.mem_of_getElem? he)).1

/-- The red nodes in the middle: the frames of `rest` are still to come. -/
structure Reddening (B : ℕ) (outFlags : Bitset bitmapWidth) (rest : List ℕ) (ag : AvailGraph n) :
    Prop where
  below : ∀ f ∈ rest, f < B
  red : ∀ f < B, f ∉ rest → outFlags.test f = false → ag.redNodes f < ag.g.nodeNum
  frame : ∀ v < ag.g.nodeNum, ag.nodeMap v < B
  noBlue : ag.blueNodes = []
  noEdge : ag.g.edges = []

/-- One frame. -/
theorem Reddening.step {B : ℕ} {outFlags : Bitset bitmapWidth} {f : ℕ} {rest : List ℕ}
    {ag : AvailGraph n} (h : Reddening B outFlags (f :: rest) ag) (hB : B ≤ bitmapWidth) :
    Post (addRedNode outFlags ag f) (fun _ => False) (Reddening B outFlags rest) := by
  have hf : f < B := h.below f (by simp)
  have hbelow : ∀ g ∈ rest, g < B := fun g hg => h.below g (by simp [hg])
  unfold addRedNode testBit
  rw [require_pos (by omega : f < bitmapWidth), ok_bind, ok_bind]
  split
  · rename_i hused
    refine ⟨hbelow, fun g hg hrest hfree => h.red g hg ?_ hfree, h.frame, h.noBlue, h.noEdge⟩
    rw [List.mem_cons, not_or]
    refine ⟨fun he => ?_, hrest⟩
    rw [he, hused] at hfree
    cases hfree
  · refine ⟨hbelow, fun g hg hrest hfree => ?_, fun v hv => ?_, h.noBlue, h.noEdge⟩
    · show Function.update ag.redNodes f ag.g.nodeNum g < ag.g.nodeNum + 1
      by_cases hgf : g = f
      · rw [hgf, Function.update_self]
        exact Nat.lt_succ_self _
      · rw [Function.update_of_ne hgf]
        exact Nat.lt_succ_of_lt (h.red g hg (by simp [hgf, hrest]) hfree)
    · -- The new node stands for `f`.
      show Function.update ag.nodeMap ag.g.nodeNum f v < B
      by_cases hnew : v = ag.g.nodeNum
      · rw [hnew, Function.update_self]
        exact hf
      · rw [Function.update_of_ne hnew]
        exact h.frame v (lt_of_le_of_ne (Nat.lt_succ_iff.mp hv) hnew)

/-- After the red nodes, all new nodes are blue. -/
theorem Built.addBlueNodes {B k : ℕ} {outFlags : Bitset bitmapWidth} {ag : AvailGraph n}
    (h : Built B k outFlags ag) (hk : k ≤ ag.g.nodeNum) (ins : List (Fin n)) :
    Built B k outFlags (ins.foldl addBlueNode ag) := by
  induction ins generalizing ag with
  | nil => exact h
  | cons i rest ih =>
    have hadd : Built B k outFlags (addBlueNode ag i) := by
      refine ⟨h.red, fun v hv => ?_, fun bn hbn => ?_, h.edge⟩
      · show Function.update ag.nodeMap ag.g.nodeNum _ v < B
        rw [Function.update_of_ne (by omega)]
        exact h.frame v hv
      · rcases List.mem_append.mp hbn with hold | hnew
        · exact h.blue bn hold
        · rw [List.mem_singleton.mp hnew]
          exact hk
    exact ih hadd (Nat.le_succ_of_le hk)

/-- An edge joins a frame to a proposal. -/
theorem Built.addEdge_post {B k : ℕ} {inFlags outFlags : Bitset bitmapWidth} {ag : AvailGraph n}
    (h : Built B k outFlags ag) (hB : B ≤ bitmapWidth) (initialMatch : Option ℕ) {bn : ℕ}
    (hbn : k ≤ bn) {f : ℕ} (hf : f < B) :
    Post (addEdge inFlags outFlags initialMatch bn ag f) (fun _ => False)
      (fun ag' => Built B k outFlags ag' ∧ ag'.blueNodes = ag.blueNodes) := by
  unfold addEdge testBit
  rw [require_pos (by omega : f < bitmapWidth)]
  simp only [ok_bind]
  split
  · exact ⟨h, rfl⟩
  · split
    · exact ⟨h, rfl⟩
    · rename_i hfree
      refine ⟨⟨h.red, h.frame, h.blue, fun e he => ?_⟩, rfl⟩
      rcases List.mem_append.mp he with hold | hnew
      · exact h.edge e hold
      · rw [List.mem_singleton.mp hnew]
        exact ⟨h.red f hf (by simpa using hfree), hbn⟩

/-- The graph is built, within the bitmaps. -/
theorem buildGraph_post {B : ℕ} (hB : B ≤ bitmapWidth) (tables : Booking n m) (out : Fin m)
    (ins : List (Fin n)) (initialMatch : Fin n → Option ℕ) :
    Post (buildGraph B tables out ins initialMatch) (fun _ => False)
      (fun ag => ∃ k, Built B k (tables.outputMatchBitmap out) ag) := by
  have hstart : Reddening B (tables.outputMatchBitmap out) (List.range B)
      (.empty : AvailGraph n) :=
    ⟨fun f hf => List.mem_range.mp hf, fun f hf hrest => absurd (List.mem_range.mpr hf) hrest,
      fun v hv => absurd hv (Nat.not_lt_zero v), rfl, rfl⟩
  unfold buildGraph
  refine (Post.foldlM_rest (Reddening B (tables.outputMatchBitmap out)) _ _ hstart
    (fun f rest ag h => h.step hB)).bind (fun red hred => ?_)
  have hred' : Built B red.g.nodeNum (tables.outputMatchBitmap out) red := by
    refine ⟨fun f hf hfree => hred.red f hf List.not_mem_nil hfree, hred.frame, ?_, ?_⟩
    · rw [hred.noBlue]
      exact fun bn hbn => absurd hbn List.not_mem_nil
    · rw [hred.noEdge]
      exact fun e he => absurd he List.not_mem_nil
  have hblue := hred'.addBlueNodes (le_refl _) ins
  dsimp only
  generalize ins.foldl addBlueNode red = blue at hblue ⊢
  refine (Post.foldlM ⟨hblue, rfl⟩ (I := fun ag => Built B red.g.nodeNum
    (tables.outputMatchBitmap out) ag ∧ ag.blueNodes = blue.blueNodes)
    (fun bn hbn ag h => ?_)).imp (fun ag h => ⟨_, h.1⟩)
  refine Post.foldlM h (fun f hf ag' h' => ?_)
  refine (h'.1.addEdge_post hB _ (hblue.blue bn hbn) (List.mem_range.mp hf)).imp
    (fun ag'' h'' => ⟨h''.1, h''.2.trans h'.2⟩)

end SwQpsBestFit

end SschedSimulator
