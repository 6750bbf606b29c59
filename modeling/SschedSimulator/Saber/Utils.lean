import Mathlib.Data.Nat.Log
import SschedSimulator.Foundation.Outcome
import SschedSimulator.Foundation.SumTree

namespace SschedSimulator

open Foundation

/-!
# `utils.hpp` — the sampling trees

`BST` keeps the queue lengths of one input in an array: leaf `o + leftStart` holds the length
for output `o`, every inner node the sum of its children.  `update` adds to a leaf and climbs
to the root, checking at each node that it stays non-negative; `upperBound` descends to the
leaf that contains a drawn offset.

The simulator is built with its assertions enabled, so a failed one ends the run.  `Fault`
names the assertions (and the range check of `std::bitset`) that the modelled functions make.
-/

/-- The assertions and range checks at which a run can stop. -/
inductive Fault where
  /-- the output sampled for an input is out of range or its VOQ is empty -/
  | badSample
  /-- `assert(schedules[f][in] == NULL_SCHEDULE)` -/
  | cellOccupied
  /-- `assert(VOQLength[s][d] > 0)` when a virtual departure is applied -/
  | departureFromEmptyVoq
  /-- `assert(bst[i] + delta >= 0)` in `BST::update` -/
  | negativeNode
  /-- `assert(_queue[_leaf_num + dst] >= 0)` in `Queue_Sampler::remove_item` -/
  | negativeCount
  /-- `assert(old == sw->get_queue_length(in, out))` in `QPS::schedule` -/
  | staleQueueLength
  /-- `assert(sdq.second > 0 && "queue length")` in `QPS::restoreVOQ` -/
  | emptyRestore
  /-- `assert(approvalPorts.size() >= freeTimeSlots.size())` -/
  | tooFewApprovals
  /-- `assert(!output_occupancy[dst])` in the generic switch -/
  | outputOccupied
  /-- a bit position outside `std::bitset<128>` -/
  | bitOutOfRange
  /-- `assert(_in_match[in] == -1 && _out_match[output] == -1)` in `iSLIP::schedule` -/
  | portTaken
  /-- an element past the end of a `std::vector` -/
  | indexOutOfRange
  /-- `assert(_edge_num <= _edges.size())` in `RandomizedMaximalScheduler::schedule` -/
  | tooManyEdges
  /-- `assert(last >= 0)` in `RandomizedMaximalScheduler::erase` -/
  | noLastEdge
  /-- `assert(_weight[e] == sw->get_queue_length(s, d))` in `MaxWeightScheduler` -/
  | staleWeight
  /-- `assert(_g.id(v) >= _num_inputs)` or `assert(_g.id(v) < _num_inputs)` on the mate of a port in
      `MaxWeightScheduler` -/
  | wrongSide
  /-- one of the assertions on `_pf_rel_time` in `RandomizedEdgeColoringCAggarwal::schedule` -/
  | frameTime
  /-- `assert(gc < MAX_BATCH_SIZE)` in `RandomizedEdgeColoringCAggarwal::schedule` -/
  | outOfColours
  /-- `assert(cell == NULL_SCHEDULE)` at the end of a batch of `SB_QPS_Fixed` in debug mode -/
  | cellLeftOver
  /-- `OutOfBoundaryException` thrown by `get_queue_length` of a switch -/
  | outOfBoundary
  deriving DecidableEq, Repr

/-- The nodes of a sampling tree; node `1` is the root. -/
abbrev Bst := ℕ → ℤ

namespace BST

/-- `nearest_power_of_two`: the least power of two that is at least `n`. -/
def nearestPowerOfTwo (n : ℕ) : ℕ := 2 ^ (if n ≤ 1 then 0 else Nat.log2 (n - 1) + 1)

theorem le_nearestPowerOfTwo (n : ℕ) : n ≤ nearestPowerOfTwo n := by
  unfold nearestPowerOfTwo
  split
  · simpa using ‹n ≤ 1›
  · have := (Nat.log2_lt (by omega : n - 1 ≠ 0)).mp (Nat.lt_succ_self (n - 1).log2)
    simp only [Nat.succ_eq_add_one] at this
    omega

theorem one_le_nearestPowerOfTwo (n : ℕ) : 1 ≤ nearestPowerOfTwo n :=
  Nat.one_le_two_pow

/-! ### Updating a leaf -/

/-- The recursion of `update`, from node `i` up to the root; the fuel bounds the levels. -/
def updateFrom : ℕ → Bst → ℕ → ℤ → Except Fault Bst
  | 0, bst, _, _ => .ok bst
  | fuel + 1, bst, i, delta => do
    require (0 ≤ bst i + delta) .negativeNode
    let bst' : Bst := Function.update bst i (bst i + delta)
    if i = 1 then .ok bst' else updateFrom fuel bst' (i / 2) delta

/-- `update`: add `delta` to node `i` and to its ancestors. -/
def update (bst : Bst) (i : ℕ) (delta : ℤ) : Except Fault Bst := updateFrom i bst i delta

/-- A climb that starts above the leaves changes no leaf. -/
theorem updateFrom_leaf {L : ℕ} {δ : ℤ} {fuel : ℕ} {bst bst' : Bst} {j : ℕ}
    (h : updateFrom fuel bst j δ = .ok bst') (hj : j < L) {l : ℕ} (hl : L ≤ l) :
    bst' l = bst l := by
  induction fuel generalizing bst j with
  | zero => cases h; rfl
  | succ fuel ih =>
    unfold updateFrom at h
    obtain ⟨-, -, h⟩ := bind_eq_ok.mp h
    have hne : l ≠ j := by omega
    split at h
    · cases h
      exact Function.update_of_ne hne ..
    · rw [ih h (by omega), Function.update_of_ne hne]

/-- A climb from a node that may take the missing amount ends in a sum tree; the nodes after the
    one where it starts are unchanged. -/
theorem updateFrom_eq_ok {L fuel : ℕ} {bst : Bst} {i : ℕ} {δ : ℤ} (h : Deficit L bst i δ)
    (h1 : 1 ≤ i) (hi : i < 2 * L) (hfuel : i ≤ fuel) :
    ∃ bst', updateFrom fuel bst i δ = .ok bst' ∧ IsSumTree L bst' ∧ bst' i = bst i + δ ∧
      ∀ l, i < l → bst' l = bst l := by
  -- The missing amount stays `δ` all the way up; each level halves `i`, so the fuel lasts.
  induction fuel generalizing bst i with
  | zero => omega
  | succ fuel ih =>
    unfold updateFrom
    rw [require_pos h.grown]
    by_cases hroot : i = 1
    · subst hroot
      refine ⟨Function.update bst 1 (bst 1 + δ), rfl, h.finish (by omega),
        Function.update_self .., ?_⟩
      intro l hl
      exact Function.update_of_ne (by omega) ..
    · obtain ⟨bst', hrun, htree, hself, hbelow⟩ :=
        ih (h.climb (by omega) hi) (by omega) (by omega) (by omega)
      refine ⟨bst', ?_, htree, ?_, fun l hl => ?_⟩
      · simpa [hroot] using hrun
      · rw [hbelow i (by omega), Function.update_self]
      · rw [hbelow l (by omega), Function.update_of_ne (by omega)]

/-- Updating a leaf that stays non-negative succeeds, changes no other leaf and leaves a sum
    tree. -/
theorem update_eq_ok {L : ℕ} {bst : Bst} (h : IsSumTree L bst) {i : ℕ} {δ : ℤ} (h1 : 1 ≤ i)
    (hi : L ≤ i) (hi' : i < 2 * L) (hδ : 0 ≤ bst i + δ) :
    ∃ bst', update bst i δ = .ok bst' ∧ IsSumTree L bst' ∧
      ∀ l, L ≤ l → bst' l = if l = i then bst i + δ else bst l := by
  obtain ⟨bst', hrun, htree, hself, hbelow⟩ :=
    updateFrom_eq_ok (h.deficit hi hδ) h1 hi' (le_refl i)
  refine ⟨bst', hrun, htree, fun l hl => ?_⟩
  split
  · rename_i hli
    rw [hli, hself]
  · -- Another leaf: the first step writes `i`, the rest of the climb runs above the leaves.
    rename_i hli
    unfold updateFrom at hrun
    cases hi0 : i with
    | zero => omega
    | succ k =>
      rw [hi0] at hrun
      obtain ⟨-, -, hrun⟩ := bind_eq_ok.mp hrun
      rw [hi0] at hli
      split at hrun
      · cases hrun
        exact Function.update_of_ne hli ..
      · rename_i hroot
        rw [updateFrom_leaf hrun (by omega) hl, Function.update_of_ne hli]

/-- Updating a node that would become negative stops at once. -/
theorem update_eq_error {bst : Bst} {i : ℕ} {δ : ℤ} (hi : 1 ≤ i) (hδ : bst i + δ < 0) :
    update bst i δ = .error .negativeNode := by
  unfold update
  cases i with
  | zero => omega
  | succ k =>
    unfold updateFrom Foundation.require
    rw [if_neg (not_le.mpr hδ)]
    rfl

/-- `remove`: empty the leaf `i` and return what it held. -/
def remove (bst : Bst) (i : ℕ) : Except Fault (ℤ × Bst) := do
  let bst' ← update bst i (-bst i)
  .ok (bst i, bst')

/-! ### Sampling -/

/-- `upper_bound`: the leaf that contains `bound`; none if the tree is empty or `bound` is out
    of its range. -/
def upperBound (L : ℕ) (bst : Bst) (bound : ℚ) : Option ℕ :=
  if bst 1 = 0 then none
  else if 0 ≤ bound ∧ bound ≤ bst 1 then some (descend L bst (2 * L) 1 bound)
  else none

/-- An offset below the total leads to a leaf of positive weight. -/
theorem upperBound_eq_some {L : ℕ} {bst : Bst} (h : IsSumTree L bst) (hL : 1 ≤ L) {bound : ℚ}
    (h0 : 0 ≤ bound) (hlt : bound < bst 1) :
    ∃ i, upperBound L bst bound = some i ∧ L ≤ i ∧ i < 2 * L ∧ 0 < bst i := by
  obtain ⟨hl, hr, hpos⟩ := descend_spec h (2 * L) 1 bound (le_refl 1) (by omega) (by omega) h0 hlt
  have hroot : bst 1 ≠ 0 := by
    intro hz
    rw [hz] at hlt
    exact absurd h0 (not_le.mpr (by exact_mod_cast hlt))
  exact ⟨_, by rw [upperBound, if_neg hroot, if_pos ⟨h0, hlt.le⟩], hl, hr, hpos⟩

end BST

end SschedSimulator
