import Mathlib.Data.List.FinRange
import Mathlib.Data.List.Find

namespace SschedSimulator.Foundation.RoundRobin

/-!
# Round-robin choice

A pointer into `n` ports starts a scan that goes once around the ports and stops at the first one
that passes a test.

* `distance n ptr i` — how many steps after `ptr` the scan visits `i`, that is `i - ptr` modulo `n`;
* `scan_eq_some` — the port chosen is the one that passes at the least distance, and
  `scan_eq_none` — none is chosen when no port passes;
* `distance_next_lt` — a pointer that moves behind a port chosen before `i` comes closer to `i`.
-/

variable {n : ℕ}

/-- The port that a scan from `ptr` visits at step `k`. -/
def visit (ptr : ℕ) (k : Fin n) : Fin n := ⟨(k + ptr) % n, Nat.mod_lt _ k.pos⟩

/-- The first port from `ptr` on, in circular order, that passes the test. -/
def scan (ptr : ℕ) (test : Fin n → Bool) : Option (Fin n) :=
  ((List.finRange n).map (visit ptr)).find? test

/-- `i - ptr` modulo `n`, for a pointer into `n` ports. -/
def distance (n ptr i : ℕ) : ℕ := (i + (n - ptr)) % n

/-- Reducing a number below `2 * n` modulo `n` takes off `n` at most once. -/
theorem mod_eq_ite {a n : ℕ} (h : a < 2 * n) : a % n = if a < n then a else a - n := by
  split
  · rename_i hlt
    exact Nat.mod_eq_of_lt hlt
  · rename_i hge
    rw [Nat.mod_eq_sub_mod (by omega), Nat.mod_eq_of_lt (by omega)]

theorem distance_eq {ptr i : ℕ} (hptr : ptr < n) (hi : i < n) :
    distance n ptr i = if ptr ≤ i then i - ptr else i + n - ptr := by
  unfold distance
  by_cases h : ptr ≤ i
  · rw [if_pos h, show i + (n - ptr) = (i - ptr) + n by omega, Nat.add_mod_right,
      Nat.mod_eq_of_lt (by omega)]
  · rw [if_neg h, Nat.mod_eq_of_lt (by omega)]
    omega

theorem distance_lt {ptr i : ℕ} (hptr : ptr < n) : distance n ptr i < n :=
  Nat.mod_lt _ (by omega)

/-- Step `k` visits the port at distance `k`. -/
theorem distance_visit {ptr : ℕ} (hptr : ptr < n) (k : Fin n) :
    distance n ptr (visit ptr k) = k := by
  have hk := k.isLt
  have hvisit : (visit ptr k : ℕ) = if (k : ℕ) + ptr < n then (k : ℕ) + ptr else k + ptr - n :=
    mod_eq_ite (by omega)
  rw [distance_eq hptr (visit ptr k).isLt, hvisit]
  split <;> split <;> omega

/-- Ports at the same distance are equal. -/
theorem distance_injective {ptr : ℕ} (hptr : ptr < n) {x y : Fin n}
    (h : distance n ptr x = distance n ptr y) : x = y := by
  rw [distance_eq hptr x.isLt, distance_eq hptr y.isLt] at h
  apply Fin.ext
  split at h <;> split at h <;> omega

/-- Every port is visited, at the step given by its distance. -/
theorem visit_distance {ptr : ℕ} (hptr : ptr < n) (x : Fin n) :
    visit ptr ⟨distance n ptr x, distance_lt hptr⟩ = x :=
  distance_injective hptr (distance_visit hptr _)

/-- Behind a port at a distance not greater than that of `i`, and different from `i`, there are
    fewer steps to `i`. -/
theorem distance_next_lt {ptr : ℕ} (hptr : ptr < n) {x i : Fin n} (hne : x ≠ i)
    (h : distance n ptr x ≤ distance n ptr i) :
    distance n ((x + 1) % n) i < distance n ptr i := by
  have hxi : (x : ℕ) ≠ i := fun he => hne (Fin.ext he)
  have hnext : ((x : ℕ) + 1) % n = if (x : ℕ) + 1 < n then (x : ℕ) + 1 else x + 1 - n :=
    mod_eq_ite (by omega)
  rw [distance_eq hptr x.isLt, distance_eq hptr i.isLt] at h
  rw [distance_eq (Nat.mod_lt _ (by omega)) i.isLt, distance_eq hptr i.isLt, hnext]
  have hx := x.isLt
  have hi := i.isLt
  split at h <;> split at h <;> split <;> split <;> omega

/-! ### The choice -/

/-- The port chosen passes the test, and no port at a smaller distance does. -/
theorem scan_eq_some {ptr : ℕ} (hptr : ptr < n) {test : Fin n → Bool} {x : Fin n} :
    scan ptr test = some x ↔
      test x = true ∧ ∀ y : Fin n, distance n ptr y < distance n ptr x → test y = false := by
  unfold scan
  rw [List.find?_eq_some_iff_getElem]
  simp only [List.length_map, List.length_finRange, List.getElem_map, List.getElem_finRange,
    Fin.cast_mk, Bool.not_eq_true']
  refine and_congr_right (fun _ => ⟨?_, fun h => ?_⟩)
  · rintro ⟨k, hk, rfl, hbefore⟩ y hy
    -- A port at a smaller distance was visited at an earlier step.
    rw [distance_visit hptr] at hy
    rw [← visit_distance hptr y]
    exact hbefore _ hy
  · refine ⟨distance n ptr x, distance_lt hptr, visit_distance hptr x, fun j hj => h _ ?_⟩
    rwa [distance_visit hptr]

/-- No port is chosen exactly when none passes the test. -/
theorem scan_eq_none {ptr : ℕ} (hptr : ptr < n) {test : Fin n → Bool} :
    scan ptr test = none ↔ ∀ y, test y = false := by
  unfold scan
  rw [List.find?_eq_none]
  constructor
  · intro h y
    rw [← visit_distance hptr y]
    simpa using h _ (List.mem_map_of_mem (List.mem_finRange _))
  · intro h y _
    simp [h y]

/-- The port chosen is at most as far as any that passes. -/
theorem distance_scan_le {ptr : ℕ} (hptr : ptr < n) {test : Fin n → Bool} {x y : Fin n}
    (h : scan ptr test = some x) (hy : test y = true) : distance n ptr x ≤ distance n ptr y := by
  by_contra hlt
  rw [((scan_eq_some hptr).mp h).2 y (by omega)] at hy
  exact nomatch hy

/-- When some port passes, one is chosen. -/
theorem exists_scan {ptr : ℕ} (hptr : ptr < n) (test : Fin n → Bool) {y : Fin n}
    (hy : test y = true) : ∃ x, scan ptr test = some x := by
  cases hscan : scan ptr test with
  | some x => exact ⟨x, rfl⟩
  | none =>
    rw [(scan_eq_none hptr).mp hscan y] at hy
    exact nomatch hy

/-- The port chosen passes the test. -/
theorem test_of_scan {ptr : ℕ} (test : Fin n → Bool) {x : Fin n} (h : scan ptr test = some x) :
    test x = true := List.find?_some h

end SschedSimulator.Foundation.RoundRobin
