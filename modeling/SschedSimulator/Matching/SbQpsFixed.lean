import SschedSimulator.Foundation.Ranking
import SschedSimulator.Matching.AvailabilityTemplate

namespace SschedSimulator

open Foundation Alternation

/-!
# `SB_QPS_Fixed` of the matching program — a perfect matching from sampled rounds

In every round each input samples an output in proportion to its weights, and an output accepts some
of its proposals: with availability maps each at the first frame that both ports have free, in the
`rqps_serena` mode one at the frame of the round.  The frames are then completed and one of them,
or a combination, is returned.

Weights are added in `int`: those of a row when it arrives, those of a matching when it is weighed, and
their differences on the cycles of a merge.

* `handleArrivals_post` — the sums of the rows have to fit;
* `Rounding` — what holds between any two matches of a round;
* `runRounds_post`, `insideRound_post` — the frames are partial matchings at any point of any round;
* `fixMatchings_post` — every frame is completed to a permutation;
* `weightComputation_rowOf`, `mergeInto_post` — permutations are weighed and merged if what they weigh
  fits.
-/

/-- The maps of the scheduler. -/
abbrev AvailabilityMap := AvailabilityTemplate 16

/-- What the words of a map hold before they are set; it is not read. -/
def AvailabilityMap.memory : Fin 16 → Bitset 64 := fun _ => 0

/-- `SelectionMethod`. -/
inductive SelectionMethod where
  | max
  | merge
  | first
  | mixed
  | twoLayer
  deriving DecidableEq, Repr

/-- `SB_QPS_Configuration`: what the scheduler reads of it. -/
structure MatchingConfiguration where
  frameSize : ℕ
  groupSize : ℕ
  numRounds : ℤ
  cutoff : ℕ
  slm : SelectionMethod
  rqpsSerena : Bool
  useAvailmap : Bool

/-- `_num_rounds`: the number of rounds is locked in the `rqps_serena` mode. -/
def MatchingConfiguration.rounds (cfg : MatchingConfiguration) : ℕ :=
  if cfg.rqpsSerena then cfg.frameSize else cfg.numRounds.toNat

namespace Matching.SbQpsFixed

variable {n : ℕ}

/-- The fields of the scheduler; frame `f` of `schedules` exists for `f < frameSize`. -/
structure State (n : ℕ) where
  /-- `is_good()` of each input -/
  good : Fin n → Bool
  schedules : ℕ → MatchingRow n
  matchAvailIn : Fin n → AvailabilityMap
  matchAvailOut : Fin n → AvailabilityMap
  inputAvailability : Fin n → ℤ
  outputAvailability : Fin n → ℤ

/-- The constructor. -/
def construct (n : ℕ) (cfg : MatchingConfiguration) : Except MatchingFault (State n) := do
  let m ← AvailabilityTemplate.ofFrames AvailabilityMap.memory cfg.frameSize
  .ok { good := fun _ => false
        schedules := fun _ _ => none
        matchAvailIn := fun _ => m
        matchAvailOut := fun _ => m
        inputAvailability := fun _ => cfg.frameSize
        outputAvailability := fun _ => cfg.frameSize }

/-! ### The rounds -/

/-- `reset`. -/
def reset (cfg : MatchingConfiguration) (st : State n) : State n :=
  { st with
    schedules := fun _ _ => none
    matchAvailIn := fun i => (st.matchAvailIn i).reset
    matchAvailOut := fun o => (st.matchAvailOut o).reset
    inputAvailability := fun _ => cfg.frameSize
    outputAvailability := fun _ => cfg.frameSize }

/-- `_input_queues[i] = weights[i]`: an input without weight has nothing to sample. -/
def arrive (weights : Weights n) (st : State n) (i : Fin n) : Except MatchingFault (State n) := do
  let sum ← accumulate .signedOverflow ((List.finRange n).map (weights i))
  .ok { st with good := Function.update st.good i (decide (sum ≠ 0)) }

/-- `handle_arrivals`. -/
def handleArrivals (cfg : MatchingConfiguration) (weights : Weights n) (st : State n) :
    Except MatchingFault (State n) :=
  (List.finRange n).foldlM (arrive weights) (reset cfg st)

/-- `out_accepts`: the proposals that each output keeps, at most `cutoff` of them. -/
def outAccepts (cutoff : ℕ) (good : Fin n → Bool) (sample : Fin n → Fin n) :
    Fin n → List (Fin n) :=
  (List.finRange n).foldl (fun acc i =>
    if good i = false then acc
    else if (acc (sample i)).length < cutoff then
      Function.update acc (sample i) (acc (sample i) ++ [i])
    else acc) (fun _ => [])

/-- The flags that `match_element` sets. -/
def setFlags (frame : ℕ) (i o : Fin n) (st : State n) : Except MatchingFault (State n) := do
  let mi ← (st.matchAvailIn i).set frame
  let mo ← (st.matchAvailOut o).set frame
  .ok { st with
        matchAvailIn := Function.update st.matchAvailIn i mi
        matchAvailOut := Function.update st.matchAvailOut o mo }

/-- `match_element`. -/
def matchElement (cfg : MatchingConfiguration) (frame : ℕ) (i o : Fin n) (st : State n) :
    Except MatchingFault (State n) := do
  let st ← (if cfg.useAvailmap then setFlags frame i o st else .ok st)
  require (frame < cfg.frameSize) .indexOutOfRange
  require (st.schedules frame i = none) .cellOccupied
  .ok { st with
        schedules := update₂ st.schedules frame i (some o)
        inputAvailability := Function.update st.inputAvailability i (st.inputAvailability i - 1)
        outputAvailability :=
          Function.update st.outputAvailability o (st.outputAvailability o - 1) }

/-- Step 2 of `qps` for one output. -/
def acceptFrom (cfg : MatchingConfiguration) (round : ℕ) (out : Fin n) :
    List (Fin n) → State n → Except MatchingFault (State n)
  | [], st => .ok st
  | i :: rest, st =>
    if st.outputAvailability out = 0 then .ok st
    else if st.inputAvailability i = 0 then acceptFrom cfg round out rest st
    else if cfg.rqpsSerena then
      -- at most one match of the output in a round
      if round < cfg.frameSize then matchElement cfg round i out st else .ok st
    else if cfg.useAvailmap then do
      let amap ← AvailabilityTemplate.inter AvailabilityMap.memory (st.matchAvailIn i)
        (st.matchAvailOut out)
      if 0 ≤ amap.ffs ∧ amap.ffs < cfg.frameSize then do
        let st ← matchElement cfg amap.ffs.toNat i out st
        acceptFrom cfg round out rest st
      else acceptFrom cfg round out rest st
    else acceptFrom cfg round out rest st

/-- Step 2 of `qps` for the outputs `outs`, given the proposals. -/
def acceptAll (cfg : MatchingConfiguration) (round : ℕ) (accepts : Fin n → List (Fin n))
    (outs : List (Fin n)) (st : State n) : Except MatchingFault (State n) :=
  outs.foldlM (fun st out => acceptFrom cfg round out (accepts out) st) st

/-- `qps`; `sample i` is the output that the input `i` samples, if it is good. -/
def qps (cfg : MatchingConfiguration) (round : ℕ) (sample : Fin n → Fin n) (st : State n) :
    Except MatchingFault (State n) :=
  acceptAll cfg round (outAccepts cfg.cutoff st.good sample) (List.finRange n) st

/-- The first rounds of `schedule`. -/
def runRounds (cfg : MatchingConfiguration) (weights : Weights n) (draws : ℕ → Fin n → Fin n)
    (st : State n) (rounds : ℕ) : Except MatchingFault (State n) := do
  let st ← handleArrivals cfg weights st
  (List.range rounds).foldlM (fun st round => qps cfg round (draws round) st) st

/-- Inside a round: `k` outputs have accepted, and the next one has looked at `j` proposals. -/
def insideRound (cfg : MatchingConfiguration) (weights : Weights n) (draws : ℕ → Fin n → Fin n)
    (st : State n) (round k j : ℕ) : Except MatchingFault (State n) := do
  let st ← runRounds cfg weights draws st round
  let accepts := outAccepts cfg.cutoff st.good (draws round)
  let st ← acceptAll cfg round accepts ((List.finRange n).take k) st
  match (List.finRange n)[k]? with
  | none => .ok st
  | some out => acceptFrom cfg round out ((accepts out).take j) st

/-! ### The selection -/

/-- `_schedules[f]`. -/
def frameAt (cfg : MatchingConfiguration) (schedules : ℕ → MatchingRow n) (f : ℕ) :
    Except MatchingFault (MatchingRow n) := do
  require (f < cfg.frameSize) .indexOutOfRange
  .ok (schedules f)

/-- `fix_matching` on every frame. -/
def fixMatchings (cfg : MatchingConfiguration) (schedules : ℕ → MatchingRow n) :
    Except MatchingFault (ℕ → MatchingRow n) :=
  (List.range cfg.frameSize).foldlM (fun schedules f => do
    let row ← Serena.fixMatching (schedules f)
    .ok (Function.update schedules f row)) schedules

/-- `weight_computation`: the weights of the matched inputs, in the order of the inputs. -/
def weightComputation (matching : MatchingRow n) (weights : Weights n) : Except MatchingFault ℤ :=
  accumulate .signedOverflow
    ((List.finRange n).filterMap (fun i => (matching i).map (weights i)))

/-- `merge(merged, S, merged, weights)`. -/
def mergeInto (weights : Weights n) (merged S : MatchingRow n) :
    Except MatchingFault (MatchingRow n) := do
  let mem ← Serena.mergeWith IsInt weights false true false (fun v => if v then S else merged)
  .ok (mem false)

/-- The frames from `i` on and below `j`, merged. -/
def mergeFrames (cfg : MatchingConfiguration) (weights : Weights n) (schedules : ℕ → MatchingRow n)
    (i j : ℕ) : Except MatchingFault (MatchingRow n) := do
  let first ← frameAt cfg schedules i
  (List.range' (i + 1) (j - (i + 1))).foldlM (fun merged f => do
    let S ← frameAt cfg schedules f
    mergeInto weights merged S) first

/-- `group_num`. -/
def groupNum (cfg : MatchingConfiguration) : ℕ :=
  cfg.frameSize / cfg.groupSize + if cfg.frameSize % cfg.groupSize ≠ 0 then 1 else 0

/-- The frames of a group, merged. -/
def mergeGroup (cfg : MatchingConfiguration) (weights : Weights n) (schedules : ℕ → MatchingRow n)
    (g : ℕ) : Except MatchingFault (MatchingRow n) :=
  mergeFrames cfg weights schedules (g * cfg.groupSize)
    (min cfg.frameSize ((g + 1) * cfg.groupSize))

/-- A matching and `_weight`; `none` is the empty vector. -/
abbrev Selected (n : ℕ) := Option (MatchingRow n) × ℤ

/-- `select_first`. -/
def selectFirst (cfg : MatchingConfiguration) (weights : Weights n)
    (schedules : ℕ → MatchingRow n) : Except MatchingFault (Selected n) := do
  let first ← frameAt cfg schedules 0
  let weight ← weightComputation first weights
  .ok (some first, weight)

/-- `std::max_element`: the first of the heaviest frames. -/
def heaviestFrame (cfg : MatchingConfiguration) (matchingWeights : List ℤ) : ℕ :=
  (List.range cfg.frameSize).foldl (fun best f =>
    if matchingWeights.getD best 0 < matchingWeights.getD f 0 then f else best) 0

/-- `select_heaviest`. -/
def selectHeaviest (cfg : MatchingConfiguration) (weights : Weights n)
    (schedules : ℕ → MatchingRow n) : Except MatchingFault (Selected n) := do
  let matchingWeights ← (List.range cfg.frameSize).mapM (fun f => do
    let schedule ← frameAt cfg schedules f
    weightComputation schedule weights)
  let f := heaviestFrame cfg matchingWeights
  let heaviest ← frameAt cfg schedules f
  .ok (some heaviest, matchingWeights.getD f 0)

/-- `serena_merge`. -/
def serenaMerge (cfg : MatchingConfiguration) (weights : Weights n)
    (schedules : ℕ → MatchingRow n) : Except MatchingFault (Selected n) := do
  let merged ← mergeFrames cfg weights schedules 0 cfg.frameSize
  let weight ← weightComputation merged weights
  .ok (some merged, weight)

/-- `mixed_max_merge`. -/
def mixedMaxMerge (cfg : MatchingConfiguration) (weights : Weights n)
    (schedules : ℕ → MatchingRow n) : Except MatchingFault (Selected n) :=
  (List.range (groupNum cfg)).foldlM (fun best g => do
    let merged ← mergeGroup cfg weights schedules g
    let weight ← weightComputation merged weights
    if best.2 < weight then .ok (some merged, weight) else .ok best) (none, -1)

/-- The loop of `mixed_merge_merge`. -/
def mergeGroups (cfg : MatchingConfiguration) (weights : Weights n)
    (schedules : ℕ → MatchingRow n) : Except MatchingFault (Option (MatchingRow n)) :=
  (List.range (groupNum cfg)).foldlM (fun result g => do
    let merged ← mergeGroup cfg weights schedules g
    if g = 0 then .ok (some merged)
    else
      match result with
      | none => .error .unevenSizes
      | some r => do
        let r ← mergeInto weights r merged
        .ok (some r)) none

/-- `mixed_merge_merge`. -/
def mixedMergeMerge (cfg : MatchingConfiguration) (weights : Weights n)
    (schedules : ℕ → MatchingRow n) : Except MatchingFault (Selected n) := do
  let result ← mergeGroups cfg weights schedules
  let weight ← weightComputation (result.getD (fun _ => none)) weights
  .ok (result, weight)

/-- The selection method of the configuration. -/
def select (cfg : MatchingConfiguration) :
    Weights n → (ℕ → MatchingRow n) → Except MatchingFault (Selected n) :=
  match cfg.slm with
  | .first => selectFirst cfg
  | .max => selectHeaviest cfg
  | .merge => serenaMerge cfg
  | .mixed => mixedMaxMerge cfg
  | .twoLayer => mixedMergeMerge cfg

/-- `schedule`. -/
def schedule (cfg : MatchingConfiguration) (weights : Weights n) (draws : ℕ → Fin n → Fin n)
    (st : State n) : Except MatchingFault (State n × Selected n) := do
  let st ← runRounds cfg weights draws st cfg.rounds
  let schedules ← fixMatchings cfg st.schedules
  let selected ← select cfg weights schedules
  .ok ({ st with schedules := schedules }, selected)

/-! ### One match -/

/-- The frames in which an input is taken. -/
def inFlag (cfg : MatchingConfiguration) (st : State n) (i : Fin n) (f : ℕ) : Bool :=
  decide (f < cfg.frameSize) && !(st.matchAvailIn i).avail f

/-- The frames in which an output is taken. -/
def outFlag (cfg : MatchingConfiguration) (st : State n) (o : Fin n) (f : ℕ) : Bool :=
  decide (f < cfg.frameSize) && !(st.matchAvailOut o).avail f

section

variable {cfg : MatchingConfiguration} {frame : ℕ} {i o : Fin n} {st : State n}

/-- A frame that is set in one map is one more flag. -/
theorem flag_update {avail : Fin n → AvailabilityMap} {p : Fin n} {m : AvailabilityMap}
    (hframe : frame < cfg.frameSize)
    (hm : ∀ q, m.avail q = ((avail p).avail q && !decide (q = frame))) (p' : Fin n) (f : ℕ) :
    (decide (f < cfg.frameSize) && !(Function.update avail p m p').avail f)
      = (decide (p' = p ∧ f = frame) || decide (f < cfg.frameSize) && !(avail p').avail f) := by
  by_cases hp : p' = p
  · subst hp
    rw [Function.update_self, hm]
    by_cases hf : f = frame
    · subst hf
      simp [hframe]
    · simp [hf]
  · rw [Function.update_of_ne hp]
    simp [hp]

theorem setFlags_eq_ok (hframe : frame < cfg.frameSize) (hsize : cfg.frameSize ≤ 1024) :
    ∃ st', setFlags frame i o st = .ok st' ∧ st'.schedules = st.schedules ∧
      (∀ i' f, inFlag cfg st' i' f = (decide (i' = i ∧ f = frame) || inFlag cfg st i' f)) ∧
      ∀ o' f, outFlag cfg st' o' f = (decide (o' = o ∧ f = frame) || outFlag cfg st o' f) := by
  obtain ⟨mi, hmi, -, hin⟩ := (st.matchAvailIn i).avail_set (hframe.trans_le hsize)
  obtain ⟨mo, hmo, -, hout⟩ := (st.matchAvailOut o).avail_set (hframe.trans_le hsize)
  refine ⟨{ st with
    matchAvailIn := Function.update st.matchAvailIn i mi
    matchAvailOut := Function.update st.matchAvailOut o mo }, ?_, rfl, fun i' f => ?_,
    fun o' f => ?_⟩
  · rw [setFlags, hmi, ok_bind, hmo, ok_bind]
  · exact flag_update hframe hin i' f
  · exact flag_update hframe hout o' f

/-- A match at a free cell of a frame. -/
theorem matchElement_eq_ok (hframe : frame < cfg.frameSize) (hsize : cfg.frameSize ≤ 1024)
    (hfree : st.schedules frame i = none) :
    ∃ st', matchElement cfg frame i o st = .ok st' ∧
      st'.schedules = update₂ st.schedules frame i (some o) ∧
      (cfg.useAvailmap = true →
        (∀ i' f, inFlag cfg st' i' f = (decide (i' = i ∧ f = frame) || inFlag cfg st i' f)) ∧
        ∀ o' f, outFlag cfg st' o' f = (decide (o' = o ∧ f = frame) || outFlag cfg st o' f)) := by
  unfold matchElement
  by_cases hmap : cfg.useAvailmap = true
  · obtain ⟨st₁, hset, hsched, hin, hout⟩ := @setFlags_eq_ok _ cfg _ i o st hframe hsize
    rw [← hsched] at hfree ⊢
    simp only [if_pos hmap, hset, ok_bind, require_pos hframe, require_pos hfree]
    exact ⟨_, rfl, rfl, fun _ => ⟨hin, hout⟩⟩
  · simp only [if_neg hmap, ok_bind, require_pos hframe, require_pos hfree]
    exact ⟨_, rfl, rfl, fun h => absurd h hmap⟩

end

/-! ### The arrivals -/

/-- The sums of the rows have to fit; then an input is good if its row is not zero. -/
theorem handleArrivals_post (cfg : MatchingConfiguration) {weights : Weights n}
    (hweights : ∀ i o, 0 ≤ weights i o) (st : State n) :
    Post (handleArrivals cfg weights st) (fun _ => ∃ i, largestInt < ∑ o, weights i o) (fun st' =>
      (∀ i, ∑ o, weights i o ≤ largestInt) ∧
        st' = { reset cfg st with good := fun i => decide (∑ o, weights i o ≠ 0) }) := by
  -- The inputs that have arrived are good or not, the others are as before.
  have hloop : ∀ (l : List (Fin n)) (st : State n),
      Post (l.foldlM (arrive weights) st) (fun _ => ∃ i, largestInt < ∑ o, weights i o) (fun st' =>
        (∀ i ∈ l, ∑ o, weights i o ≤ largestInt) ∧
          st' = { st with
            good := fun i => if i ∈ l then decide (∑ o, weights i o ≠ 0) else st.good i }) := by
    intro l
    induction l with
    | nil =>
      intro st
      exact ⟨fun i hi => absurd hi List.not_mem_nil, rfl⟩
    | cons a rest ih =>
      intro st
      rw [List.foldlM_cons, arrive, accumulate_finRange (hweights a)]
      split
      · rename_i hfits
        rw [ok_bind, ok_bind]
        refine (ih _).imp (fun st' h => ⟨fun i hi => ?_, ?_⟩)
        · rcases List.mem_cons.mp hi with rfl | hi
          · exact hfits
          · exact h.1 i hi
        · rw [h.2]
          congr 1
          funext i
          by_cases hi : i ∈ rest
          · rw [if_pos hi, if_pos (List.mem_cons_of_mem _ hi)]
          · rw [if_neg hi]
            dsimp only
            by_cases hia : i = a
            · subst hia
              rw [Function.update_self, if_pos List.mem_cons_self]
            · rw [Function.update_of_ne hia, if_neg (by simp [hi, hia])]
      · rename_i hfits
        exact ⟨a, not_le.mp hfits⟩
  refine (hloop _ _).imp (fun st' h => ⟨fun i => h.1 i (List.mem_finRange i), ?_⟩)
  rw [h.2]
  simp only [List.mem_finRange, if_true]

/-! ### Inside a round -/

/-- Between two matches of a round, with the outputs `later` still to accept. -/
structure Rounding (cfg : MatchingConfiguration) (sample : Fin n → Fin n) (round : ℕ)
    (later : List (Fin n)) (st : State n) : Prop where
  matching : ∀ f, IsMatching (st.schedules f)
  covers : cfg.rqpsSerena = false → cfg.useAvailmap = true →
    Covers (· < cfg.frameSize) st.schedules (inFlag cfg st) (outFlag cfg st)
  ahead : cfg.rqpsSerena = true → ∀ f, round < f → ∀ i, st.schedules f i = none
  current : cfg.rqpsSerena = true → ∀ i o, st.schedules round i = some o → sample i = o ∧ o ∉ later

section

variable {cfg : MatchingConfiguration} {sample : Fin n → Fin n} {round : ℕ} {out : Fin n}
  {later : List (Fin n)} {st : State n}

/-- The output accepts nothing more. -/
theorem Rounding.done (h : Rounding cfg sample round (out :: later) st) :
    Rounding cfg sample round later st where
  matching := h.matching
  covers := h.covers
  ahead := h.ahead
  current := by
    intro hr i o hio
    obtain ⟨hsample, hlater⟩ := h.current hr i o hio
    exact ⟨hsample, fun ho => hlater (List.mem_cons_of_mem out ho)⟩

/-- First fit: the frame found is free at both ports. -/
theorem Rounding.fit (h : Rounding cfg sample round later st) (hr : cfg.rqpsSerena = false)
    (hmap : cfg.useAvailmap = true) (hsize : cfg.frameSize ≤ 1024) {i : Fin n} {f : ℕ}
    (hf : f < cfg.frameSize)
    (havail : (st.matchAvailIn i).avail f = true ∧ (st.matchAvailOut out).avail f = true) :
    Post (matchElement cfg f i out st) (fun _ => False) (Rounding cfg sample round later) := by
  have hcovers := h.covers hr hmap
  have hin : inFlag cfg st i f = false := by simp [inFlag, havail.1]
  have hout : outFlag cfg st out f = false := by simp [outFlag, havail.2]
  obtain ⟨st', hrun, hsched, hflags⟩ :=
    matchElement_eq_ok hf hsize (hcovers.cell_eq_none hf hin) (o := out)
  rw [hrun, Post_ok]
  refine ⟨fun g => ?_, fun _ _ => ?_, fun hr' => ?_, fun hr' => ?_⟩
  · rw [hsched]
    by_cases hg : g = f
    · subst hg
      rw [update₂, Function.update_self]
      exact (h.matching g).update (hcovers.row_ne_some hf hout)
    · rw [update₂_row_of_ne _ hg]
      exact h.matching g
  · rw [hsched]
    exact hcovers.book hf (hflags hmap).1 (hflags hmap).2
  · rw [hr] at hr'
    cases hr'
  · rw [hr] at hr'
    cases hr'

/-- One match of the output in this round: an input samples one output in a round, so that neither
    port is used in the frame. -/
theorem Rounding.single (h : Rounding cfg sample round (out :: later) st)
    (hr : cfg.rqpsSerena = true) (hout : out ∉ later) (hsize : cfg.frameSize ≤ 1024)
    (hround : round < cfg.frameSize) {i : Fin n} (hi : sample i = out) :
    Post (matchElement cfg round i out st) (fun _ => False) (Rounding cfg sample round later) := by
  -- In the frame of this round nobody has `out` yet, and `i` has nothing else.
  have hnew : ∀ i', st.schedules round i' ≠ some out :=
    fun i' hi' => (h.current hr i' out hi').2 (List.mem_cons_self ..)
  have hfree : st.schedules round i = none := by
    cases hc : st.schedules round i with
    | none => rfl
    | some o =>
      have ho : out = o := hi.symm.trans (h.current hr i o hc).1
      exact absurd (ho ▸ hc) (hnew i)
  obtain ⟨st', hrun, hsched, -⟩ := matchElement_eq_ok hround hsize hfree (o := out)
  rw [hrun, Post_ok]
  refine ⟨fun g => ?_, fun hr' => ?_, fun _ f hf i' => ?_, fun _ i' o hio => ?_⟩
  · rw [hsched]
    by_cases hg : g = round
    · subst hg
      rw [update₂, Function.update_self]
      exact (h.matching g).update hnew
    · rw [update₂_row_of_ne _ hg]
      exact h.matching g
  · rw [hr] at hr'
    cases hr'
  · rw [hsched, update₂_row_of_ne _ (Nat.ne_of_gt hf)]
    exact h.ahead hr f hf i'
  · rw [hsched, update₂_apply] at hio
    split at hio
    · rename_i hii
      rw [Option.some.injEq] at hio
      rw [hii.2, ← hio]
      exact ⟨hi, hout⟩
    · exact h.done.current hr i' o hio

/-- Step 2 for one output, or for the first of its proposals. -/
theorem acceptFrom_post (h : Rounding cfg sample round (out :: later) st) (hout : out ∉ later)
    (hsize : cfg.frameSize ≤ 1024) {ins : List (Fin n)} (hins : ∀ i ∈ ins, sample i = out) :
    Post (acceptFrom cfg round out ins st) (fun _ => False) (Rounding cfg sample round later) := by
  induction ins generalizing st with
  | nil => exact h.done
  | cons i rest ih =>
    have hrest : ∀ i ∈ rest, sample i = out := fun i hi => hins i (List.mem_cons_of_mem _ hi)
    -- the branches in the order of the source
    unfold acceptFrom
    split
    · exact h.done
    split
    · exact ih h hrest
    split
    · rename_i hr
      split
      · rename_i hround
        exact h.single hr hout hsize hround (hins i (List.mem_cons_self ..))
      · exact h.done
    rename_i hr
    split
    · rename_i hmap
      obtain ⟨amap, hinter, -, havail⟩ := AvailabilityTemplate.exists_inter AvailabilityMap.memory
        (st.matchAvailIn i) (st.matchAvailOut out)
      rw [hinter, ok_bind]
      split
      · rename_i hf
        obtain ⟨f, hlt, hffs, hfree⟩ := amap.of_ffs_nonneg hf.1
        rw [havail f hlt, Bool.and_eq_true] at hfree
        rw [hffs, Int.toNat_natCast]
        rw [hffs] at hf
        exact (h.fit (Bool.eq_false_iff.mpr hr) hmap hsize (Int.ofNat_lt.mp hf.2) hfree).bind
          (fun st' h' => ih h' hrest)
      · exact ih h hrest
    · exact ih h hrest

/-- Step 2 for some of the outputs. -/
theorem acceptAll_post {outs : List (Fin n)} (h : Rounding cfg sample round (outs ++ later) st)
    (hnodup : (outs ++ later).Nodup) (hsize : cfg.frameSize ≤ 1024)
    {accepts : Fin n → List (Fin n)} (haccepts : ∀ o, ∀ i ∈ accepts o, sample i = o) :
    Post (acceptAll cfg round accepts outs st) (fun _ => False)
      (Rounding cfg sample round later) := by
  induction outs generalizing st with
  | nil => exact h
  | cons out rest ih =>
    rw [List.cons_append, List.nodup_cons] at hnodup
    unfold acceptAll
    rw [List.foldlM_cons]
    exact (acceptFrom_post h hnodup.1 hsize (haccepts out)).bind (fun st' h' => ih h' hnodup.2)

/-- The inputs that propose to an output have sampled it. -/
theorem sample_of_mem_outAccepts {cutoff : ℕ} {good : Fin n → Bool} {i o : Fin n}
    (h : i ∈ outAccepts cutoff good sample o) : sample i = o := by
  -- An output only ever keeps inputs that sampled it.
  have hloop : ∀ (l : List (Fin n)) (acc : Fin n → List (Fin n)),
      (∀ o, ∀ i ∈ acc o, sample i = o) → ∀ o, ∀ i ∈ l.foldl (fun acc i =>
        if good i = false then acc
        else if (acc (sample i)).length < cutoff then
          Function.update acc (sample i) (acc (sample i) ++ [i])
        else acc) acc o, sample i = o := by
    intro l
    induction l with
    | nil => exact fun acc hacc => hacc
    | cons a rest ih =>
      intro acc hacc
      rw [List.foldl_cons]
      apply ih
      split
      · exact hacc
      split
      · intro o i hi
        by_cases ho : o = sample a
        · subst ho
          rw [Function.update_self, List.mem_append, List.mem_singleton] at hi
          rcases hi with hi | rfl
          · exact hacc _ i hi
          · rfl
        · rw [Function.update_of_ne ho] at hi
          exact hacc o i hi
      · exact hacc
  exact hloop _ _ (fun _ _ hi => absurd hi List.not_mem_nil) o i h

/-- After a round the next one may begin, whatever is sampled in it. -/
theorem Rounding.next (h : Rounding cfg sample round later st) (sample' : Fin n → Fin n) :
    Rounding cfg sample' (round + 1) (List.finRange n) st where
  matching := h.matching
  covers := h.covers
  ahead := fun hr f hf i => h.ahead hr f (by omega) i
  current := by
    intro hr i o hio
    rw [h.ahead hr (round + 1) (by omega) i] at hio
    cases hio

/-- No frame is used when the rounds begin. -/
theorem rounding_start (cfg : MatchingConfiguration) (sample : Fin n → Fin n) (good : Fin n → Bool)
    (st : State n) : Rounding cfg sample 0 (List.finRange n) { reset cfg st with good := good } where
  matching := fun _ => isMatching_none
  covers := fun _ _ =>
    { input := fun _ _ _ _ hc => by cases hc
      output := fun _ _ _ _ hc => by cases hc
      inputLive := fun _ _ hb => of_decide_eq_true (Bool.and_eq_true_iff.mp hb).1
      outputLive := fun _ _ hb => of_decide_eq_true (Bool.and_eq_true_iff.mp hb).1 }
  ahead := fun _ _ _ _ => rfl
  current := fun _ _ _ hc => by cases hc

theorem qps_post (h : Rounding cfg sample round (List.finRange n) st)
    (hsize : cfg.frameSize ≤ 1024) :
    Post (qps cfg round sample st) (fun _ => False) (Rounding cfg sample round []) := by
  rw [← List.append_nil (List.finRange n)] at h
  exact acceptAll_post h (by rw [List.append_nil]; exact List.nodup_finRange n) hsize
    (fun _ _ => sample_of_mem_outAccepts)

/-- One more round. -/
theorem runRounds_succ (weights : Weights n) (draws : ℕ → Fin n → Fin n) (st : State n)
    (rounds : ℕ) : runRounds cfg weights draws st (rounds + 1) = (do
      let st ← runRounds cfg weights draws st rounds
      qps cfg rounds (draws rounds) st) := by
  unfold runRounds
  cases handleArrivals cfg weights st with
  | error e => rfl
  | ok st' =>
    simp only [ok_bind, List.range_succ, List.foldlM_append, List.foldlM_cons, List.foldlM_nil,
      bind_pure]

/-- The rounds run without a fault; the next one may begin. -/
theorem runRounds_post (hsize : cfg.frameSize ≤ 1024) {weights : Weights n}
    (hweights : ∀ i o, 0 ≤ weights i o) (draws : ℕ → Fin n → Fin n) (st : State n) (rounds : ℕ) :
    Post (runRounds cfg weights draws st rounds) (fun _ => ∃ i, largestInt < ∑ o, weights i o)
      (Rounding cfg (draws rounds) rounds (List.finRange n)) := by
  induction rounds with
  | zero =>
    refine (handleArrivals_post cfg hweights st).bind (fun st' h => ?_)
    rw [h.2]
    exact rounding_start cfg (draws 0) _ st
  | succ rounds ih =>
    rw [runRounds_succ]
    exact ih.bind (fun st' h => ((qps_post h hsize).mono (fun _ => False.elim)
      (fun st'' h' => h'.next (draws (rounds + 1)))))

theorem insideRound_post (hsize : cfg.frameSize ≤ 1024) {weights : Weights n}
    (hweights : ∀ i o, 0 ≤ weights i o) (draws : ℕ → Fin n → Fin n) (st : State n)
    (round k j : ℕ) :
    Post (insideRound cfg weights draws st round k j) (fun _ => ∃ i, largestInt < ∑ o, weights i o)
      (fun st' => ∀ f, IsMatching (st'.schedules f)) := by
  refine (runRounds_post hsize hweights draws st round).bind (fun st₁ h₁ => ?_)
  refine Post.mono (E := fun _ => False) ?_ (fun _ => False.elim) (fun _ h => h)
  have hsplit := List.take_append_drop k (List.finRange n)
  have hnodup : ((List.finRange n).take k ++ (List.finRange n).drop k).Nodup := by
    rw [hsplit]
    exact List.nodup_finRange n
  rw [← hsplit] at h₁
  refine (acceptAll_post h₁ hnodup hsize (fun _ _ => sample_of_mem_outAccepts)).bind
    (fun st₂ h₂ => ?_)
  cases hnext : (List.finRange n)[k]? with
  | none => exact h₂.matching
  | some out =>
    obtain ⟨hk, hget⟩ := List.getElem?_eq_some_iff.mp hnext
    -- The outputs still to accept are this one and those after it.
    rw [List.drop_eq_getElem_cons hk, hget] at h₂ hnodup
    have hout := (List.nodup_cons.mp (List.nodup_append.mp hnodup).2.1).1
    exact (acceptFrom_post h₂ hout hsize
      (fun i hi => sample_of_mem_outAccepts (List.mem_of_mem_take hi))).imp
      (fun st₃ h₃ => h₃.matching)

end

/-! ### Completing the frames -/

theorem fixMatchings_post {cfg : MatchingConfiguration} {schedules : ℕ → MatchingRow n}
    (h : ∀ f, IsMatching (schedules f)) :
    Post (fixMatchings cfg schedules) (fun _ => False) (fun schedules' =>
      ∀ f < cfg.frameSize, ∃ p, schedules' f = Serena.rowOf p ∧
        (∀ i o, schedules f i = some o → p i = o) ∧ ((∀ i, schedules f i = none) → p = 1)) := by
  have hloop := Post.foldlM_parts (fun (s : ℕ → MatchingRow n) (f : ℕ) => s f)
    (f := fun schedules f => do
      let row ← Serena.fixMatching (schedules f)
      .ok (Function.update schedules f row)) (E := fun _ => False)
    (P := fun f row => row = schedules f)
    (Q := fun f row => ∃ p, row = Serena.rowOf p ∧ (∀ i o, schedules f i = some o → p i = o) ∧
      ((∀ i, schedules f i = none) → p = 1))
    (@List.nodup_range cfg.frameSize) (s := schedules) (fun _ _ => rfl) ?_
  · exact hloop.imp (fun s hs f hf => hs.1 f (List.mem_range.mpr hf))
  · intro f _ s hs
    obtain ⟨p, hfix, hkeep⟩ := Serena.fixMatching_eq_ok (h f)
    rw [hs, hfix, ok_bind]
    refine ⟨⟨p, Function.update_self .., hkeep, fun hnone => ?_⟩,
      fun g hg => Function.update_of_ne hg ..⟩
    rw [show schedules f = fun _ => none from funext hnone, Serena.fixMatching_none] at hfix
    exact (Serena.rowOf_injective (Except.ok.inj hfix)).symm

/-! ### Selecting -/

section

variable {cfg : MatchingConfiguration} {weights : Weights n} {schedules : ℕ → MatchingRow n}

/-- What a matching weighs, added exactly. -/
def exactWeight (matching : MatchingRow n) (weights : Weights n) : ℤ :=
  ∑ i, match matching i with
    | some o => weights i o
    | none => 0

/-- The weight of a matching is computed if it fits. -/
theorem weightComputation_eq (hweights : ∀ i o, 0 ≤ weights i o) (matching : MatchingRow n) :
    weightComputation matching weights
      = if exactWeight matching weights ≤ largestInt then .ok (exactWeight matching weights)
        else .error .signedOverflow := by
  -- an input without an output adds nothing
  have hsum : ∀ l : List (Fin n), (l.filterMap (fun i => (matching i).map (weights i))).sum
      = (l.map (fun i => match matching i with
        | some o => weights i o
        | none => 0)).sum := by
    intro l
    induction l with
    | nil => rfl
    | cons i rest ih =>
      rw [List.filterMap_cons, List.map_cons, List.sum_cons]
      cases matching i with
      | none => exact ih.trans (zero_add _).symm
      | some o => exact (List.sum_cons ..).trans (congrArg _ ih)
  have hexact : exactWeight matching weights
      = ((List.finRange n).filterMap (fun i => (matching i).map (weights i))).sum := by
    rw [hsum, ← Fin.sum_univ_def]
    rfl
  rw [hexact]
  apply accumulate_of_nonneg
  intro x hx
  obtain ⟨i, -, hi⟩ := List.mem_filterMap.mp hx
  obtain ⟨o, -, rfl⟩ := Option.map_eq_some_iff.mp hi
  exact hweights i o

theorem exactWeight_rowOf (weights : Weights n) (p : Equiv.Perm (Fin n)) :
    exactWeight (Serena.rowOf p) weights = weight weights p := rfl

/-- A permutation is weighed if its weight fits. -/
theorem weightComputation_rowOf (hweights : ∀ i o, 0 ≤ weights i o) (p : Equiv.Perm (Fin n)) :
    weightComputation (Serena.rowOf p) weights
      = if weight weights p ≤ largestInt then .ok (weight weights p)
        else .error .signedOverflow := by
  rw [weightComputation_eq hweights, exactWeight_rowOf]

/-- Some of the permutations in `P` weighs more than fits. -/
def Heavy (P : Equiv.Perm (Fin n) → Prop) (weights : Weights n) : Prop :=
  ∃ p, P p ∧ largestInt < weight weights p

variable {P : Equiv.Perm (Fin n) → Prop}

theorem weightComputation_post (hweights : ∀ i o, 0 ≤ weights i o) {p : Equiv.Perm (Fin n)}
    (hp : P p) : Post (weightComputation (Serena.rowOf p) weights) (fun _ => Heavy P weights)
      (fun w => w = weight weights p ∧ weight weights p ≤ largestInt) := by
  rw [weightComputation_rowOf hweights]
  split
  · rename_i hfits
    exact ⟨rfl, hfits⟩
  · rename_i hfits
    exact ⟨p, hp, not_le.mp hfits⟩

theorem mergeInto_rowOf {p q : Equiv.Perm (Fin n)} (hfit : WalksFit IsInt weights p q) :
    mergeInto weights (Serena.rowOf p) (Serena.rowOf q)
      = .ok (Serena.rowOf (heavier weights p q)) := by
  let mem : Bool → MatchingRow n := fun v => if v then Serena.rowOf q else Serena.rowOf p
  have hp : mem false = Serena.rowOf p := rfl
  have hq : mem true = Serena.rowOf q := rfl
  rw [mergeInto, Serena.mergeWith_eq_ok false hp hq hfit, ok_bind, Function.update_self]

theorem mergeInto_eq_error {p q : Equiv.Perm (Fin n)} (hfit : ¬ WalksFit IsInt weights p q) :
    mergeInto weights (Serena.rowOf p) (Serena.rowOf q) = .error .signedOverflow := by
  let mem : Bool → MatchingRow n := fun v => if v then Serena.rowOf q else Serena.rowOf p
  have hp : mem false = Serena.rowOf p := rfl
  have hq : mem true = Serena.rowOf q := rfl
  rw [mergeInto, Serena.mergeWith_eq_error false hp hq hfit, error_bind]

/-- Permutations whose weights fit are merged. -/
theorem mergeInto_post (hweights : ∀ i o, 0 ≤ weights i o) {p q : Equiv.Perm (Fin n)} (hp : P p)
    (hq : P q) : Post (mergeInto weights (Serena.rowOf p) (Serena.rowOf q))
      (fun _ => Heavy P weights) (fun row => row = Serena.rowOf (heavier weights p q)) := by
  by_cases hfit : WalksFit IsInt weights p q
  · rw [mergeInto_rowOf hfit]
    rfl
  · rw [mergeInto_eq_error hfit, Post_error]
    -- One of the two is too heavy, since otherwise the walks stay within bounds.
    by_contra hlight
    have hle : ∀ r, P r → weight weights r ≤ largestInt := by
      intro r hr
      by_contra hlt
      exact hlight ⟨r, hr, not_le.mp hlt⟩
    exact hfit (walksFit_of_weight_le hweights (fun _ hx => isInt_of_abs_le hx) (hle p hp)
      (hle q hq))

/-- The groups begin below the frame size, the last one too: it is not empty. -/
theorem groupBegin_lt (hgroup : 0 < cfg.groupSize) {g : ℕ} (hg : g < groupNum cfg) :
    g * cfg.groupSize < cfg.frameSize := by
  have hdiv := Nat.div_add_mod cfg.frameSize cfg.groupSize
  rw [mul_comm] at hdiv
  unfold groupNum at hg
  split at hg
  · have hle : g * cfg.groupSize ≤ cfg.frameSize / cfg.groupSize * cfg.groupSize :=
      Nat.mul_le_mul_right _ (by omega)
    omega
  · have hle : (g + 1) * cfg.groupSize ≤ cfg.frameSize / cfg.groupSize * cfg.groupSize :=
      Nat.mul_le_mul_right _ (by omega)
    rw [Nat.add_mul] at hle
    omega

theorem groupNum_pos (hframe : 0 < cfg.frameSize) (hgroup : 0 < cfg.groupSize) :
    0 < groupNum cfg := by
  unfold groupNum
  rcases Nat.lt_or_ge cfg.frameSize cfg.groupSize with hlt | hge
  · rw [Nat.mod_eq_of_lt hlt, if_pos (by omega)]
    exact Nat.succ_pos _
  · have := Nat.div_pos hge hgroup
    omega

theorem frameAt_eq_ok {f : ℕ} (hf : f < cfg.frameSize) :
    frameAt cfg schedules f = .ok (schedules f) := by
  rw [frameAt, require_pos hf, ok_bind]

theorem heaviestFrame_lt (hframe : 0 < cfg.frameSize) (matchingWeights : List ℤ) :
    heaviestFrame cfg matchingWeights < cfg.frameSize := by
  rcases List.mem_cons.mp (Ranking.foldl_highest_mem (fun f => matchingWeights.getD f 0)
    (List.range cfg.frameSize) 0) with heq | hmem
  · exact lt_of_eq_of_lt heq hframe
  · exact List.mem_range.mp hmem

end

end Matching.SbQpsFixed

end SschedSimulator
