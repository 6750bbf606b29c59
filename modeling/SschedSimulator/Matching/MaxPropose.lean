import Mathlib.Algebra.BigOperators.Fin
import Mathlib.Algebra.Order.BigOperators.Group.Finset
import SschedSimulator.Foundation.MaxTree
import SschedSimulator.Foundation.Outcome
import SschedSimulator.Saber.Utils

namespace SschedSimulator

open Foundation

/-!
# `qp_sampler.cpp` of the matching program — the class `Max_Propose`

An input proposes to the output of its longest queue.  The queue lengths are the leaves of a maximum
tree, which is built when a weight vector is assigned and repaired on the way to the root when one
of them changes.

* `Spare` — the positions of the array that hold no queue are zero, whatever happens;
* `Valid` — the array is a maximum tree of queue lengths;
* `assign_valid`, `increment_valid` — the two ways to change it;
* `sample_eq_ok`, `of_sample` — the sample is a longest queue, and the first of these;
* `Run` — what any sequence of changes does to the queues.
-/

/-- What goes wrong in `Max_Propose` and `EdgeColorDoubleMax`. -/
inductive DoubleMaxFault where
  /-- `assert(out >= 0 && out < _num_outputs)` in `sample` -/
  | sampleOutOfRange
  /-- `assert(dst >= 0 && dst < _num_outputs)` in `get_packet_number`, for the sample `-1` -/
  | noSample
  /-- `assert(_input_queues[in].get_packet_number(out) > 0)` in `qps` -/
  | emptyQueue
  /-- `assert(schedule_size > 0)` in `schedule` -/
  | emptySchedule
  /-- `assert(iq.is_empty())` in `schedule` -/
  | packetsLeft
  /-- a sum that does not fit in `int` -/
  | signedOverflow
  /-- the `while` loop of `schedule` is still running -/
  | unfinished
  deriving DecidableEq, Repr

/-- `_queue`, for `m` outputs. -/
structure MaxPropose (m : ℕ) where
  queue : Bst

namespace MaxPropose

variable {m : ℕ}

/-- `compute_leaf_num`. -/
def leafNum (m : ℕ) : ℕ := BST.nearestPowerOfTwo m

/-- The constructor. -/
def construct (m : ℕ) : MaxPropose m := ⟨fun _ => 0⟩

/-- The leaves after `std::copy`. -/
def copyWeights (weights : Fin m → ℤ) (queue : Bst) : Bst := fun j =>
  if h : leafNum m ≤ j ∧ j - leafNum m < m then weights ⟨j - leafNum m, h.2⟩ else queue j

/-- `operator=`. -/
def assign (weights : Fin m → ℤ) (q : MaxPropose m) : MaxPropose m :=
  ⟨(build (leafNum m) (leafNum m) 1 (copyWeights weights q.queue)).2⟩

/-- The constructor from a weight vector. -/
def fromWeights (weights : Fin m → ℤ) : MaxPropose m := (construct m).assign weights

/-- `update`. -/
def update (pos : ℕ) (queue : Bst) : Bst := climb pos pos queue

/-- `increment`. -/
def increment (dst : Fin m) (delta : ℤ) (q : MaxPropose m) : MaxPropose m :=
  ⟨update ((leafNum m + dst) / 2)
    (Function.update q.queue (leafNum m + dst) (q.queue (leafNum m + dst) + delta))⟩

/-- `get_packet_number`. -/
def getPacketNumber (q : MaxPropose m) (dst : Fin m) : ℤ := q.queue (leafNum m + dst)

/-- `get_queue_length`. -/
def getQueueLength (q : MaxPropose m) : ℤ := ∑ d ∈ Finset.range (leafNum m), q.queue (leafNum m + d)

/-- `search`, from the root. -/
def search (q : MaxPropose m) : ℕ := descendMax (leafNum m) q.queue (leafNum m) 1

/-- `sample`; `none` is `-1`. -/
def sample (q : MaxPropose m) : Except DoubleMaxFault (Option (Fin m)) :=
  if q.queue 1 = 0 then .ok none
  else if h : leafNum m ≤ q.search ∧ q.search - leafNum m < m then
    .ok (some ⟨q.search - leafNum m, h.2⟩)
  else .error .sampleOutOfRange

/-- `reset`. -/
def reset (_ : MaxPropose m) : MaxPropose m := ⟨fun _ => 0⟩

/-- `is_empty`. -/
def isEmpty (q : MaxPropose m) : Prop := ∀ j < 2 * leafNum m, q.queue j = 0

instance (q : MaxPropose m) : Decidable q.isEmpty :=
  inferInstanceAs (Decidable (∀ j < 2 * leafNum m, q.queue j = 0))

/-! ### The positions without a queue -/

theorem lt_leafNum (dst : Fin m) : (dst : ℕ) < leafNum m :=
  lt_of_lt_of_le dst.isLt (BST.le_nearestPowerOfTwo m)

/-- Position `0` and the leaves beyond the last output are zero. -/
structure Spare (q : MaxPropose m) : Prop where
  zero : q.queue 0 = 0
  padding : ∀ d, m ≤ d → q.queue (leafNum m + d) = 0

theorem spare_construct (m : ℕ) : (construct m).Spare := ⟨rfl, fun _ _ => rfl⟩

theorem assign_leaf (weights : Fin m → ℤ) (q : MaxPropose m) (d : ℕ) :
    (q.assign weights).queue (leafNum m + d)
      = if h : d < m then weights ⟨d, h⟩ else q.queue (leafNum m + d) := by
  obtain ⟨-, hleaf, -⟩ := build_isMaxTree (leafNum m) (copyWeights weights q.queue)
  show (build (leafNum m) (leafNum m) 1 (copyWeights weights q.queue)).2 (leafNum m + d) = _
  rw [hleaf _ (Nat.le_add_right _ _), copyWeights]
  by_cases hd : d < m
  · rw [dif_pos hd, dif_pos ⟨Nat.le_add_right _ _, by omega⟩]
    exact congrArg weights (Fin.ext (Nat.add_sub_cancel_left _ _))
  · rw [dif_neg hd, dif_neg (by omega)]

theorem Spare.assign {q : MaxPropose m} (h : q.Spare) (weights : Fin m → ℤ) :
    (q.assign weights).Spare := by
  obtain ⟨-, -, hzero⟩ := build_isMaxTree (leafNum m) (copyWeights weights q.queue)
  refine ⟨?_, fun d hd => ?_⟩
  · show (build (leafNum m) (leafNum m) 1 (copyWeights weights q.queue)).2 0 = 0
    have hL : 1 ≤ leafNum m := BST.one_le_nearestPowerOfTwo m
    rw [hzero, copyWeights, dif_neg (by omega), h.zero]
  · rw [assign_leaf, dif_neg (by omega), h.padding d hd]

theorem increment_leaf (q : MaxPropose m) (dst : Fin m) (delta : ℤ) (d : ℕ) :
    (q.increment dst delta).queue (leafNum m + d)
      = if d = dst then q.queue (leafNum m + d) + delta else q.queue (leafNum m + d) := by
  have hdst := lt_leafNum dst
  show climb _ _ _ (leafNum m + d) = _
  rw [climb_leaf _ (by omega : (leafNum m + (dst : ℕ)) / 2 < leafNum m) _ (Nat.le_add_right _ _),
    Function.update_apply]
  by_cases hd : d = dst
  · rw [if_pos hd, if_pos (by omega), hd]
  · rw [if_neg hd, if_neg (by omega)]

theorem Spare.increment {q : MaxPropose m} (h : q.Spare) (dst : Fin m) (delta : ℤ) :
    (q.increment dst delta).Spare := by
  have hL : 1 ≤ leafNum m := BST.one_le_nearestPowerOfTwo m
  refine ⟨?_, fun d hd => ?_⟩
  · show climb _ _ _ 0 = 0
    rw [climb_zero, Function.update_of_ne (by omega), h.zero]
  · have hdst := dst.isLt
    rw [increment_leaf, if_neg (by omega), h.padding d hd]

/-! ### The tree of the queue lengths -/

/-- The array is a maximum tree, and no queue length is negative. -/
structure Valid (q : MaxPropose m) : Prop extends Spare q where
  tree : IsMaxTree (leafNum m) q.queue
  nonneg : ∀ dst, 0 ≤ q.getPacketNumber dst

/-- A weight vector takes the place of the queue lengths. -/
theorem assign_valid {q : MaxPropose m} (h : q.Spare) {weights : Fin m → ℤ}
    (hweights : ∀ dst, 0 ≤ weights dst) :
    (q.assign weights).Valid ∧ ∀ dst, (q.assign weights).getPacketNumber dst = weights dst := by
  obtain ⟨htree, -, -⟩ := build_isMaxTree (leafNum m) (copyWeights weights q.queue)
  have hcount : ∀ dst, (q.assign weights).getPacketNumber dst = weights dst := by
    intro dst
    rw [getPacketNumber, assign_leaf, dif_pos dst.isLt]
  exact ⟨⟨h.assign weights, htree, fun dst => (hcount dst).symm ▸ hweights dst⟩, hcount⟩

theorem increment_getPacketNumber (q : MaxPropose m) (dst : Fin m) (delta : ℤ) (o : Fin m) :
    (q.increment dst delta).getPacketNumber o
      = q.getPacketNumber o + if o = dst then delta else 0 := by
  rw [getPacketNumber, increment_leaf, getPacketNumber]
  by_cases ho : o = dst
  · simp [ho]
  · rw [if_neg ho, if_neg (fun he => ho (Fin.ext he)), add_zero]

/-- One queue length changes. -/
theorem increment_valid {q : MaxPropose m} (h : q.Valid) {dst : Fin m} {delta : ℤ}
    (hdelta : 0 ≤ q.getPacketNumber dst + delta) : (q.increment dst delta).Valid := by
  refine ⟨h.toSpare.increment dst delta, ?_, fun o => ?_⟩
  · exact climb_isMaxTree (le_refl _) (h.tree.staleAt (Nat.le_add_right _ _) _)
  · have ho := h.nonneg o
    rw [increment_getPacketNumber]
    split
    · rename_i heq
      rw [heq]
      exact hdelta
    · omega

/-- The queue length of the input is the sum of all. -/
theorem Valid.getQueueLength_eq {q : MaxPropose m} (h : q.Valid) :
    q.getQueueLength = ∑ dst, q.getPacketNumber dst := by
  have hsub : Finset.range m ⊆ Finset.range (leafNum m) :=
    Finset.range_subset_range.mpr (BST.le_nearestPowerOfTwo m)
  rw [getQueueLength, ← Finset.sum_subset hsub (fun d _ hd =>
    h.padding d (not_lt.mp (fun hlt => hd (Finset.mem_range.mpr hlt)))), Finset.sum_range]
  rfl

/-- The root is the length of a longest queue. -/
theorem Valid.le_root {q : MaxPropose m} (h : q.Valid) (dst : Fin m) :
    q.getPacketNumber dst ≤ q.queue 1 := by
  have hdst := lt_leafNum dst
  exact h.tree.le_root _ (by omega) (by omega)

/-- An input with packets samples a longest of its queues. -/
theorem Valid.sample_eq_ok {q : MaxPropose m} (h : q.Valid) (hq : q.getQueueLength ≠ 0) :
    ∃ dst, q.sample = .ok (some dst) ∧ 0 < q.getPacketNumber dst ∧
      ∀ o, q.getPacketNumber o ≤ q.getPacketNumber dst := by
  have hL : 1 ≤ leafNum m := BST.one_le_nearestPowerOfTwo m
  obtain ⟨o, -, ho⟩ := Finset.exists_ne_zero_of_sum_ne_zero (h.getQueueLength_eq ▸ hq)
  have hroot : 0 < q.queue 1 := by
    have hle := h.le_root o
    have hpos := h.nonneg o
    omega
  obtain ⟨hlo, -, hvalue⟩ : leafNum m ≤ q.search ∧ q.search < 2 * leafNum m ∧
      q.queue q.search = q.queue 1 :=
    descendMax_spec h.tree (leafNum m) 1 (le_refl 1) (by omega) (by omega)
  -- The leaf has the value of the root, so it is not one beyond the last output.
  have hlt : q.search - leafNum m < m := by
    by_contra hge
    have hpad := h.padding (q.search - leafNum m) (not_lt.mp hge)
    rw [Nat.add_sub_cancel' hlo] at hpad
    omega
  have hcount : q.getPacketNumber ⟨q.search - leafNum m, hlt⟩ = q.queue 1 := by
    rw [← hvalue, getPacketNumber]
    exact congrArg q.queue (Nat.add_sub_cancel' hlo)
  refine ⟨⟨q.search - leafNum m, hlt⟩, ?_, hcount ▸ hroot, fun o' => hcount ▸ h.le_root o'⟩
  rw [sample, if_neg (by omega), dif_pos ⟨hlo, hlt⟩]

/-- The array is zero when all queues are empty. -/
theorem Valid.isEmpty {q : MaxPropose m} (h : q.Valid) (hq : ∀ dst, q.getPacketNumber dst = 0) :
    q.isEmpty := by
  intro j hj
  rcases Nat.eq_zero_or_pos j with rfl | hpos
  · exact h.zero
  · -- Every node has the value of a leaf.
    obtain ⟨hlo, -, hvalue⟩ := descendMax_spec h.tree (leafNum m) j hpos hj (by omega)
    rw [← hvalue, ← Nat.add_sub_cancel' hlo]
    by_cases hd : descendMax (leafNum m) q.queue (leafNum m) j - leafNum m < m
    · exact hq ⟨_, hd⟩
    · exact h.padding _ (not_lt.mp hd)

/-- The array is zero only when all queues are empty. -/
theorem Valid.isEmpty_iff {q : MaxPropose m} (h : q.Valid) :
    q.isEmpty ↔ ∀ dst, q.getPacketNumber dst = 0 := by
  constructor
  · intro hzero dst
    have hdst := lt_leafNum dst
    exact hzero _ (by omega)
  · exact h.isEmpty

/-- The sample has the value of the root, and no output before it does. -/
theorem Valid.of_sample {q : MaxPropose m} (h : q.Valid) {dst : Fin m}
    (hs : q.sample = .ok (some dst)) :
    q.getPacketNumber dst = q.queue 1 ∧ ∀ o < dst, q.getPacketNumber o < q.queue 1 := by
  have hL : 1 ≤ leafNum m := BST.one_le_nearestPowerOfTwo m
  unfold sample at hs
  split at hs
  · cases hs
  · split at hs
    · rename_i hleaf
      obtain rfl := Option.some.inj (Except.ok.inj hs)
      obtain ⟨-, -, hvalue⟩ := descendMax_spec h.tree (leafNum m) 1 (le_refl 1) (by omega)
        (by omega)
      refine ⟨?_, fun o ho => ?_⟩
      · rw [← hvalue, getPacketNumber]
        exact congrArg q.queue (Nat.add_sub_cancel' hleaf.1)
      · -- The search goes down a tree of full levels and stops at the first leaf of this value.
        have ho' : (o : ℕ) < q.search - leafNum m := ho
        have hlt : leafNum m + (o : ℕ) < descendMax (leafNum m) q.queue (leafNum m) 1 := by
          show leafNum m + (o : ℕ) < q.search
          omega
        have hpow : leafNum m = 2 ^ (if m ≤ 1 then 0 else Nat.log2 (m - 1) + 1) := rfl
        exact lt_root_of_lt_descendMax h.tree hpow (Nat.lt_two_pow_self).le
          (Nat.le_add_right _ _) hlt
    · cases hs

theorem Valid.getQueueLength_eq_zero_iff {q : MaxPropose m} (h : q.Valid) :
    q.getQueueLength = 0 ↔ ∀ dst, q.getPacketNumber dst = 0 := by
  rw [h.getQueueLength_eq, Finset.sum_eq_zero_iff_of_nonneg (fun d _ => h.nonneg d)]
  simp

/-- There is no sample only when all queues are empty. -/
theorem Valid.sample_eq_none_iff {q : MaxPropose m} (h : q.Valid) :
    q.sample = .ok none ↔ ∀ dst, q.getPacketNumber dst = 0 := by
  rw [← h.getQueueLength_eq_zero_iff]
  constructor
  · intro hs
    by_contra hne
    obtain ⟨d, hd, -⟩ := h.sample_eq_ok hne
    rw [hs] at hd
    cases hd
  · intro hzero
    have hL : 1 ≤ leafNum m := BST.one_le_nearestPowerOfTwo m
    rw [sample, if_pos (h.isEmpty (h.getQueueLength_eq_zero_iff.mp hzero) 1 (by omega))]

/-! ### Runs -/

/-- `q` is the result of a sequence of assignments, increments and resets, and `weights` what they
    make of the queue lengths.  Assigned weights are not negative, and increments keep them so. -/
inductive Run : MaxPropose m → (Fin m → ℤ) → Prop where
  | construct : Run (construct m) (fun _ => 0)
  | fromWeights {w : Fin m → ℤ} (hw : ∀ dst, 0 ≤ w dst) : Run (fromWeights w) w
  | assign {q : MaxPropose m} {weights w : Fin m → ℤ} (run : Run q weights)
      (hw : ∀ dst, 0 ≤ w dst) : Run (q.assign w) w
  | increment {q : MaxPropose m} {weights : Fin m → ℤ} (run : Run q weights) (dst : Fin m)
      {delta : ℤ} (hdelta : 0 ≤ weights dst + delta) :
      Run (q.increment dst delta) (Function.update weights dst (weights dst + delta))
  | reset {q : MaxPropose m} {weights : Fin m → ℤ} (run : Run q weights) :
      Run q.reset (fun _ => 0)

theorem valid_construct (m : ℕ) : (construct m).Valid where
  toSpare := spare_construct m
  tree := fun _ _ _ => rfl
  nonneg := fun _ => le_refl _

/-- Every sequence of changes keeps the tree, and its leaves are the queue lengths. -/
theorem Run.valid {q : MaxPropose m} {weights : Fin m → ℤ} (run : Run q weights) :
    q.Valid ∧ ∀ dst, q.getPacketNumber dst = weights dst := by
  induction run with
  | construct => exact ⟨valid_construct m, fun _ => rfl⟩
  | fromWeights hw => exact assign_valid (spare_construct m) hw
  | assign run hw ih => exact assign_valid ih.1.toSpare hw
  | increment run dst hdelta ih =>
    obtain ⟨hvalid, hcount⟩ := ih
    refine ⟨increment_valid hvalid (by rw [hcount]; exact hdelta), fun o => ?_⟩
    rw [increment_getPacketNumber, hcount, Function.update_apply]
    split
    · rename_i ho
      rw [ho]
    · rw [add_zero]
  | reset run ih => exact ⟨valid_construct m, fun _ => rfl⟩

/-- After every sequence of changes every inner node is the larger of its children, the sample is
    the first output of maximal weight unless all weights are zero, and the array is empty exactly
    in that case. -/
theorem run_sample {q : MaxPropose m} {weights : Fin m → ℤ} (run : Run q weights) :
    (∀ j, 1 ≤ j → j < leafNum m →
      q.queue j = max (q.queue (2 * j)) (q.queue (2 * j + 1))) ∧
    (∀ dst, q.getPacketNumber dst = weights dst) ∧
    (q.sample = .ok none ↔ ∀ dst, weights dst = 0) ∧
    ((¬ ∀ dst, weights dst = 0) → ∃ dst, q.sample = .ok (some dst) ∧
      (∀ o, weights o ≤ weights dst) ∧ ∀ o < dst, weights o < weights dst) ∧
    (q.isEmpty ↔ ∀ dst, weights dst = 0) := by
  obtain ⟨hvalid, hcount⟩ := run.valid
  obtain rfl : q.getPacketNumber = weights := funext hcount
  refine ⟨hvalid.tree, hcount, hvalid.sample_eq_none_iff, fun hne => ?_, hvalid.isEmpty_iff⟩
  obtain ⟨dst, hs, -, hmax⟩ := hvalid.sample_eq_ok
    (fun hzero => hne (hvalid.getQueueLength_eq_zero_iff.mp hzero))
  obtain ⟨hroot, hfirst⟩ := hvalid.of_sample hs
  exact ⟨dst, hs, hmax, fun o ho => (hfirst o ho).trans_eq hroot.symm⟩

/-- Three outputs: the last two tie after a weight vector and an increment. -/
theorem run_sample_tie :
    ∃ q : MaxPropose 3, q.sample = .ok (some 1) ∧ ∃ dst, q.sample = .ok (some dst) ∧
      (∀ o, ![(0 : ℤ), 2, 2] o ≤ ![0, 2, 2] dst) ∧
      ∀ o < dst, ![(0 : ℤ), 2, 2] o < ![0, 2, 2] dst := by
  let q : MaxPropose 3 := (fromWeights ![0, 5, 2]).increment 1 (-3)
  have run : Run q ![0, 2, 2] := by
    have hdelta : 0 ≤ ![(0 : ℤ), 5, 2] 1 + -3 := by decide
    have h := (Run.fromWeights (w := ![0, 5, 2]) (by decide)).increment 1 hdelta
    have hw : Function.update ![(0 : ℤ), 5, 2] 1 (![(0 : ℤ), 5, 2] 1 + -3) = ![0, 2, 2] := by decide
    rwa [hw] at h
  exact ⟨q, by decide, (run_sample run).2.2.2.1 (by decide)⟩

end MaxPropose

end SschedSimulator
