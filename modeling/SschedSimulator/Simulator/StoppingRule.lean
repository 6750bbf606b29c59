import Mathlib.Data.Int.Order.Basic
import Mathlib.Tactic.NormNum

namespace SschedSimulator

/-!
# `simulator.cc` — how long `simulate_on` runs

The number of iterations is a `size_t`, the two efforts are of type `int`, so every comparison and
the remainder by the print interval first turn an effort into a `size_t`.  What the estimates in
floating point and the queue sizes say is left open: each iteration is given the outcomes of the
comparisons with them.

* `Efforts.loop` — the loop of `simulate_on`, for a number of iterations at most;
* `Efforts.loop_of_le` — with fewer least than most efforts it stops at the most;
* `Efforts.stopNow_of_loop` — without help from the estimates it stops nowhere else;
* `leavesLoop_construct_iff` — when it is well defined and bounded.
-/

/-- The values of an `int`. -/
structure IntValue where
  val : ℤ
  lower : -2 ^ 31 ≤ val
  upper : val < 2 ^ 31

/-- An `int` as a `size_t`. -/
def IntValue.toSize (x : IntValue) : ℕ := (x.val % 2 ^ 64).toNat

/-- `INT_MAX`. -/
def intMax : IntValue := ⟨2 ^ 31 - 1, by norm_num, by norm_num⟩

/-- `MIN_EFFORT_C`. -/
def minEffortC : ℕ := 100

/-- `MAX_EFFORT_C`. -/
def maxEffortC : ℕ := 5000

/-- The default effort, `c` for each pair of ports. -/
def defaultEffort (nSq c : ℕ) : IntValue :=
  if h : (2 ^ 31 - 1) / nSq < c then intMax
  else
    { val := (nSq * c : ℕ)
      lower := by omega
      upper := by
        have hle : c * nSq ≤ 2 ^ 31 - 1 := Nat.mul_le_of_le_div _ _ _ (not_lt.mp h)
        rw [mul_comm]
        omega }

/-- `_least_simulation_effort` and `_most_simulation_effort`. -/
structure Efforts where
  least : IntValue
  most : IntValue

namespace Efforts

/-- The constructor; either effort may be missing in the configuration. -/
def construct (numInputs numOutputs : ℕ) (least most : Option IntValue) : Efforts where
  least := least.getD (defaultEffort (numInputs * numOutputs) minEffortC)
  most := most.getD (defaultEffort (numInputs * numOutputs) maxEffortC)

/-- What an iteration finds out about the estimates and the queues. -/
structure Estimates where
  /-- the error estimate of `fix_stopping_rule` is below the bound -/
  fixed : Bool
  /-- that of `rel_stopping_rule` is -/
  relative : Bool
  /-- `num_stall_packets > max_num_pkts` -/
  outOfMemory : Bool
  /-- the average delay is above `DELAY_THRES_QPS` -/
  unstable : Bool

/-- The two stopping rules, after their estimate. -/
def stoppingRule (e : Efforts) (n : ℕ) (estimate : Bool) : Bool :=
  if n ≤ e.least.toSize then false
  else if n = e.most.toSize then true
  else estimate

/-- `fix_stopping_rule`. -/
def fixStoppingRule (e : Efforts) (n : ℕ) (est : Estimates) : Bool := e.stoppingRule n est.fixed

/-- `rel_stopping_rule`. -/
def relStoppingRule (e : Efforts) (n : ℕ) (est : Estimates) : Bool :=
  e.stoppingRule n est.relative

/-- `stop_now`. -/
def stopNow (e : Efforts) (stoppingRule : String) (n : ℕ) (est : Estimates) : Bool :=
  if stoppingRule = "fixed" then e.fixStoppingRule n est else e.relStoppingRule n est

/-- `print_interval`; the division of two values of type `int` rounds towards zero. -/
def printInterval (e : Efforts) : ℤ := e.least.val.tdiv 4

/-- A division by zero. -/
inductive LoopFault where
  | divisionByZero
  deriving DecidableEq, Repr

/-- The `while` loop of `simulate_on` from `n` on, for `iterations` iterations at most: the value of
    `n` when it is left, or none if it goes on.  `est n` are the estimates that the test before
    iteration `n` and the breaks at its end look at. -/
def loop (e : Efforts) (stoppingRule : String) (est : ℕ → Estimates) :
    ℕ → ℕ → Except LoopFault (Option ℕ)
  | iterations, n =>
    if e.stopNow stoppingRule n (est n) then .ok (some n)
    else
      match iterations with
      | 0 => .ok none
      | iterations + 1 =>
        -- `++n`, then `n % print_interval`
        let n' := (n + 1) % 2 ^ 64
        if e.printInterval % 2 ^ 64 = 0 then .error .divisionByZero
        else if e.least.toSize < n' ∧ (est n').outOfMemory then .ok (some n')
        else if (est n').unstable then .ok (some n')
        else loop e stoppingRule est iterations n'

/-- `simulate_on` divides by no zero, and leaves the loop after as many iterations as claimed,
    whatever the estimates are. -/
def LeavesLoop (e : Efforts) : Prop :=
  ∀ (stoppingRule : String) (est : ℕ → Estimates), ∃ iterations k : ℕ,
    (iterations : ℤ) ≤ max (e.least.val + 1) e.most.val ∧
    e.loop stoppingRule est iterations 0 = .ok (some k)

/-! ### The bound -/

theorem toSize_of_nonneg {x : IntValue} (h : 0 ≤ x.val) : (x.toSize : ℤ) = x.val := by
  have hlt := x.upper
  rw [IntValue.toSize, Int.emod_eq_of_lt h (by omega)]
  omega

/-- A negative value becomes one that no `int` reaches. -/
theorem toSize_of_neg {x : IntValue} (h : x.val < 0) : 2 ^ 63 ≤ x.toSize := by
  have hlt := x.lower
  rw [IntValue.toSize]
  omega

theorem stopNow_iff (e : Efforts) (stoppingRule : String) (n : ℕ) (est : Estimates) :
    ∃ estimate, e.stopNow stoppingRule n est = e.stoppingRule n estimate := by
  unfold stopNow
  split
  · exact ⟨est.fixed, rfl⟩
  · exact ⟨est.relative, rfl⟩

/-- At the most efforts the loop stops, if these are more than the least. -/
theorem stopNow_most {e : Efforts} (h : e.least.toSize < e.most.toSize) (stoppingRule : String)
    (est : Estimates) : e.stopNow stoppingRule e.most.toSize est = true := by
  obtain ⟨estimate, heq⟩ := e.stopNow_iff stoppingRule e.most.toSize est
  rw [heq, Efforts.stoppingRule, if_neg (not_le.mpr h), if_pos rfl]

/-- The loop goes on from `n` for as many iterations as are left up to the most efforts. -/
theorem loop_of_le {e : Efforts} (hinterval : e.printInterval % 2 ^ 64 ≠ 0)
    (h : e.least.toSize < e.most.toSize) (hmost : e.most.toSize < 2 ^ 64) (stoppingRule : String)
    (est : ℕ → Estimates) {iterations n : ℕ} (hn : n + iterations = e.most.toSize) :
    ∃ k, e.loop stoppingRule est iterations n = .ok (some k) := by
  induction iterations generalizing n with
  | zero =>
    obtain rfl : n = e.most.toSize := hn
    exact ⟨e.most.toSize, by rw [loop, if_pos (stopNow_most h stoppingRule _)]⟩
  | succ iterations ih =>
    have hnext : (n + 1) % 2 ^ 64 = n + 1 := Nat.mod_eq_of_lt (by omega)
    unfold loop
    by_cases hstop : e.stopNow stoppingRule n (est n) = true
    · exact ⟨n, if_pos hstop⟩
    · rw [if_neg hstop]
      dsimp only
      rw [if_neg hinterval, hnext]
      split
      · exact ⟨n + 1, rfl⟩
      · split
        · exact ⟨n + 1, rfl⟩
        · exact ih (by omega)

/-- Estimates that never end the loop. -/
def neverEnds : Estimates := ⟨false, false, false, false⟩

/-- With these the loop is left by the test only, after at most as many iterations as it is given,
    and only if the print interval is not zero. -/
theorem stopNow_of_loop {e : Efforts} {stoppingRule : String} {iterations n k : ℕ}
    (hrun : e.loop stoppingRule (fun _ => neverEnds) iterations n = .ok (some k)) :
    e.stopNow stoppingRule k neverEnds = true ∧ k ≤ n + iterations ∧
      (k = n ∨ e.printInterval % 2 ^ 64 ≠ 0) := by
  induction iterations generalizing n with
  | zero =>
    unfold loop at hrun
    split at hrun
    · rename_i hstop
      cases hrun
      exact ⟨hstop, by omega, .inl rfl⟩
    · cases hrun
  | succ iterations ih =>
    unfold loop at hrun
    split at hrun
    · rename_i hstop
      cases hrun
      exact ⟨hstop, by omega, .inl rfl⟩
    · dsimp only at hrun
      split at hrun
      · cases hrun
      · rename_i hinterval
        rw [if_neg (fun hc => nomatch hc.2), if_neg nofun] at hrun
        obtain ⟨hstop, hk, -⟩ := ih hrun
        have hle := Nat.mod_le (n + 1) (2 ^ 64)
        exact ⟨hstop, by omega, .inr hinterval⟩

/-- The print interval is zero, also as a `size_t`, for fewer than four least efforts. -/
theorem printInterval_eq_zero_iff (e : Efforts) :
    e.printInterval % 2 ^ 64 = 0 ↔ -4 < e.least.val ∧ e.least.val < 4 := by
  have hlower := e.least.lower
  have hupper := e.least.upper
  unfold printInterval
  by_cases hnonneg : 0 ≤ e.least.val
  · rw [Int.tdiv_eq_ediv_of_nonneg hnonneg]
    omega
  · obtain ⟨x, hx⟩ : ∃ x, e.least.val = -x := ⟨-e.least.val, by omega⟩
    rw [hx, Int.neg_tdiv, Int.tdiv_eq_ediv_of_nonneg (by omega)]
    omega

/-- The loop is well defined and bounded exactly if the least efforts are at least four and fewer
    than the most. -/
theorem leavesLoop_iff (e : Efforts) :
    e.LeavesLoop ↔ 4 ≤ e.least.val ∧ e.least.val < e.most.val := by
  have hleast := e.least.upper
  have hmost := e.most.upper
  constructor
  · intro h
    obtain ⟨iterations, k, hbound, hrun⟩ := h "relative" (fun _ => neverEnds)
    obtain ⟨hstop, hk, hinterval⟩ := stopNow_of_loop hrun
    -- Only the test for the most efforts can have stopped the loop.
    have htest : e.least.toSize < k ∧ k = e.most.toSize := by
      unfold stopNow relStoppingRule stoppingRule neverEnds at hstop
      rw [if_neg (by decide)] at hstop
      split at hstop
      · cases hstop
      · split at hstop
        · rename_i hlt heq
          exact ⟨not_le.mp hlt, heq⟩
        · cases hstop
    have hk' : (k : ℤ) ≤ 2 ^ 31 := by omega
    -- A negative effort, as a `size_t`, is beyond that.
    have hnonneg : 0 ≤ e.least.val := by
      by_contra hneg
      have := toSize_of_neg (not_le.mp hneg)
      omega
    have hnonneg' : 0 ≤ e.most.val := by
      by_contra hneg
      have := toSize_of_neg (not_le.mp hneg)
      omega
    have hsize := toSize_of_nonneg hnonneg
    have hsize' := toSize_of_nonneg hnonneg'
    refine ⟨?_, by omega⟩
    by_contra hsmall
    exact hinterval.elim (by omega) (fun hne => hne (e.printInterval_eq_zero_iff.mpr (by omega)))
  · rintro ⟨hfour, hlt⟩ stoppingRule est
    have hsize := toSize_of_nonneg (by omega : 0 ≤ e.least.val)
    have hsize' := toSize_of_nonneg (by omega : 0 ≤ e.most.val)
    have hinterval : e.printInterval % 2 ^ 64 ≠ 0 := by
      rw [Ne, printInterval_eq_zero_iff]
      omega
    obtain ⟨k, hrun⟩ := loop_of_le hinterval (by omega) (by omega) stoppingRule est
      (Nat.zero_add e.most.toSize)
    exact ⟨e.most.toSize, k, by omega, hrun⟩

end Efforts

/-! ### The configured efforts -/

open Efforts

/-- Whichever efforts are configured and whichever are left to the default: the loop of
    `simulate_on` divides by no zero and is left in time exactly if the least efforts are at least
    four and fewer than the most. -/
theorem leavesLoop_construct_iff (numInputs numOutputs : ℕ) (least most : Option IntValue) :
    (construct numInputs numOutputs least most).LeavesLoop ↔
      4 ≤ (construct numInputs numOutputs least most).least.val ∧
        (construct numInputs numOutputs least most).least.val
          < (construct numInputs numOutputs least most).most.val :=
  leavesLoop_iff _

/-- A switch of 64 inputs and 64 outputs, with the most efforts left to their default: the loop goes
    on beyond it.  A least effort of three divides by zero. -/
theorem not_leavesLoop :
    ¬ (construct 64 64 (some ⟨500000000, by decide, by decide⟩) none).LeavesLoop ∧
      ¬ (construct 2 2 (some ⟨3, by decide, by decide⟩) none).LeavesLoop := by
  rw [leavesLoop_iff, leavesLoop_iff]
  decide

end SschedSimulator
