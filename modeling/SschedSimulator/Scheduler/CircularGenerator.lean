import Mathlib.Data.List.Range
import Mathlib.Tactic.Linarith

namespace SschedSimulator

/-!
# `circular_generator.h` — the frames a slot may fill

The generator walks over the frames of a window from `begin()` to `end()`.  Without batching it
starts at the current slot and wraps around; with batching it goes from frame `0` up to the
current slot.  `CircularGenerator.toList_eq` gives the list of frames in closed form, `mem_frames`
the set, and `collect_enumerates` the two windows with every frame in them once.
-/

/-- `Circular_Generator_Iterator`; the position `-1` is `NULL_POS`. -/
structure CircularGeneratorIterator where
  x : ℤ
  start : ℤ
  modular : ℤ
  batching : Bool

namespace CircularGeneratorIterator

/-- The constructor. -/
def make (start modular : ℤ) (batching : Bool) : CircularGeneratorIterator where
  -- an invalid range gives an iterator that is already at its end
  x := if modular ≤ 0 ∨ start < 0 ∨ modular ≤ start then -1
    else if batching then 0 else start
  start := start
  modular := modular
  batching := batching

/-- `operator++`. -/
def next (it : CircularGeneratorIterator) : CircularGeneratorIterator :=
  { it with
    x :=
      if it.batching then
        if it.start < it.x + 1 then -1 else it.x + 1
      else
        if (it.x + 1) % it.modular = it.start then -1 else (it.x + 1) % it.modular }

/-- The positions from `it` up to `last`; none if the fuel does not reach it. -/
def collect (last : CircularGeneratorIterator) :
    ℕ → CircularGeneratorIterator → Option (List ℤ)
  | 0, _ => none
  | fuel + 1, it =>
    if it.x ≠ last.x then (collect last fuel it.next).map (it.x :: ·) else some []

end CircularGeneratorIterator

/-- `Circular_Generator`. -/
structure CircularGenerator where
  startPos : ℤ
  modular : ℤ
  batching : Bool

namespace CircularGenerator

/-- `begin()`. -/
def first (g : CircularGenerator) : CircularGeneratorIterator :=
  .make g.startPos g.modular g.batching

/-- `end()`. -/
def last (g : CircularGenerator) : CircularGeneratorIterator :=
  .make g.modular g.modular g.batching

/-- The positions a range-based `for` loop visits, in order. -/
def toList (g : CircularGenerator) : Option (List ℤ) :=
  CircularGeneratorIterator.collect g.last (g.modular.toNat + 1) g.first

@[simp] theorem last_x (g : CircularGenerator) : g.last.x = -1 := by
  simp [last, CircularGeneratorIterator.make]

open CircularGeneratorIterator in
/-- With batching the iterator counts up to its start position. -/
theorem collect_batching (last : CircularGeneratorIterator) (hlast : last.x = -1) (t : ℕ)
    (modular : ℤ) (fuel k : ℕ) (hk : k ≤ t) (hfuel : t - k + 1 < fuel) :
    collect last fuel ⟨k, t, modular, true⟩
      = some ((List.range' k (t + 1 - k)).map Int.ofNat) := by
  induction fuel generalizing k with
  | zero => omega
  | succ fuel ih =>
    have hx : (k : ℤ) ≠ -1 := by omega
    simp only [collect, hlast, ne_eq, hx, not_false_eq_true, if_true, next]
    rw [show t + 1 - k = (t - k) + 1 by omega, List.range'_succ, List.map_cons]
    -- The walk ends one step after the start position.
    rcases Nat.lt_or_ge k t with hlt | hge
    · rw [if_neg (by omega), show (k : ℤ) + 1 = ((k + 1 : ℕ) : ℤ) by push_cast; rfl,
        ih (k + 1) hlt (by omega), show t + 1 - (k + 1) = t - k by omega]
      rfl
    · obtain rfl : k = t := by omega
      rw [if_pos (by omega)]
      cases fuel with
      | zero => omega
      | succ fuel => simp [collect, hlast]

open CircularGeneratorIterator in
/-- Without batching the iterator goes once around the window. -/
theorem collect_circular (last : CircularGeneratorIterator) (hlast : last.x = -1) (t B : ℕ)
    (ht : t < B) (fuel k : ℕ) (hk : k < B) (hfuel : B - k < fuel) :
    collect last fuel ⟨((t + k) % B : ℕ), t, B, false⟩
      = some ((List.range' k (B - k)).map (fun j => (((t + j) % B : ℕ) : ℤ))) := by
  induction fuel generalizing k with
  | zero => omega
  | succ fuel ih =>
    have hx : (((t + k) % B : ℕ) : ℤ) ≠ -1 := by omega
    have hstep : ((((t + k) % B : ℕ) : ℤ) + 1) % (B : ℤ) = ((t + (k + 1)) % B : ℕ) := by
      push_cast
      rw [Int.emod_add_emod, add_assoc]
    simp only [collect, hlast, ne_eq, hx, not_false_eq_true, if_true, next,
      Bool.false_eq_true, if_false, hstep]
    rw [show B - k = (B - (k + 1)) + 1 by omega, List.range'_succ, List.map_cons]
    rcases Nat.lt_or_ge (k + 1) B with hlt | hge
    · -- The walk is back at the start only after `B` steps.
      have hne : (((t + (k + 1)) % B : ℕ) : ℤ) ≠ t := by
        rcases Nat.lt_or_ge (t + (k + 1)) B with h | h
        · rw [Nat.mod_eq_of_lt h]
          omega
        · rw [Nat.mod_eq_sub_mod h, Nat.mod_eq_of_lt (by omega)]
          omega
      rw [if_neg hne, ih (k + 1) hlt (by omega)]
      rfl
    · obtain rfl : B = k + 1 := by omega
      have hback : (((t + (k + 1)) % (k + 1) : ℕ) : ℤ) = t := by
        rw [Nat.add_mod_right, Nat.mod_eq_of_lt ht]
      rw [if_pos hback]
      cases fuel with
      | zero => omega
      | succ fuel => simp [collect, hlast]

/-- The frames of the window of slot `t`, in the order in which they are tried. -/
def window (t B : ℕ) (batching : Bool) : List ℕ :=
  if batching then List.range (t + 1) else (List.range B).map (fun k => (t + k) % B)

/-- With fuel for the whole window the loop over the generator ends and visits the window. -/
theorem collect_first_eq {t B : ℕ} (ht : t < B) {fuel : ℕ} (hfuel : B < fuel) (batching : Bool) :
    CircularGeneratorIterator.collect (CircularGenerator.mk t B batching).last fuel
        (CircularGenerator.mk t B batching).first
      = some ((window t B batching).map Int.ofNat) := by
  have hvalid : ¬ ((B : ℤ) ≤ 0 ∨ (t : ℤ) < 0 ∨ (B : ℤ) ≤ t) := by omega
  unfold first CircularGeneratorIterator.make
  rw [if_neg hvalid]
  cases batching with
  | true =>
    have h := collect_batching (CircularGenerator.mk t B true).last (last_x _) t B fuel 0
      (Nat.zero_le _) (by omega)
    simpa [window, List.range_eq_range'] using h
  | false =>
    have h := collect_circular (CircularGenerator.mk t B false).last (last_x _) t B ht fuel 0
      (by omega) (by omega)
    simp only [add_zero, Nat.mod_eq_of_lt ht] at h
    simpa [window, List.range_eq_range', Function.comp_def] using h

theorem toList_eq {t B : ℕ} (ht : t < B) (batching : Bool) :
    (CircularGenerator.mk t B batching).toList
      = some ((window t B batching).map Int.ofNat) :=
  collect_first_eq ht (Nat.lt_succ_self B) batching

/-- A range is cut at any of its elements. -/
theorem range_eq_append {a b : ℕ} (h : a ≤ b) :
    List.range b = List.range a ++ List.range' a (b - a) := by
  have happ := List.range'_append_1 (s := 0) (m := a) (n := b - a)
  rw [Nat.zero_add, Nat.add_sub_cancel' h] at happ
  rw [List.range_eq_range', List.range_eq_range', happ]

/-- Without batching the window goes from the start to the last frame and on from frame `0`. -/
theorem window_false_eq {t B : ℕ} (ht : t < B) :
    window t B false = List.range' t (B - t) ++ List.range t := by
  have hsplit := range_eq_append (Nat.sub_le B t)
  rw [Nat.sub_sub_self ht.le] at hsplit
  simp only [window, Bool.false_eq_true, if_false, hsplit, List.map_append]
  congr 1
  · -- Before the wrap around nothing is reduced.
    rw [List.range'_eq_map_range]
    apply List.map_congr_left
    intro k hk
    rw [List.mem_range] at hk
    rw [Nat.mod_eq_of_lt (by omega)]
  · rw [List.range'_eq_map_range, List.map_map]
    apply List.ext_getElem (by simp)
    intro k hk hk'
    simp only [List.length_range] at hk'
    have hwrap : t + (B - t + k) = k + B := by omega
    simp only [List.getElem_map, List.getElem_range, Function.comp_apply, hwrap,
      Nat.add_mod_right, Nat.mod_eq_of_lt (hk'.trans ht)]

/-- Without batching the window is a rotation of all frames. -/
theorem perm_window_false {t B : ℕ} (ht : t < B) : (window t B false).Perm (List.range B) := by
  rw [window_false_eq ht, range_eq_append ht.le]
  exact List.perm_append_comm

/-- The loop over the generator ends after at most `modular` steps.  Without batching it visits
    `start, …, modular - 1, 0, …, start - 1`, each residue once; with batching `0, …, start`. -/
theorem collect_enumerates {start modular : ℕ} (h : start < modular) {fuel : ℕ}
    (hfuel : modular < fuel) :
    (∃ visited : List ℕ,
      CircularGeneratorIterator.collect (CircularGenerator.mk start modular false).last fuel
          (CircularGenerator.mk start modular false).first = some (visited.map Int.ofNat) ∧
      visited = List.range' start (modular - start) ++ List.range start ∧
      (∀ r, r ∈ visited ↔ r < modular) ∧ visited.Nodup) ∧
    CircularGeneratorIterator.collect (CircularGenerator.mk start modular true).last fuel
        (CircularGenerator.mk start modular true).first
      = some ((List.range (start + 1)).map Int.ofNat) := by
  constructor
  · have hperm := perm_window_false h
    refine ⟨window start modular false, collect_first_eq h hfuel false, window_false_eq h, ?_, ?_⟩
    · intro r
      rw [hperm.mem_iff, List.mem_range]
    · exact hperm.nodup_iff.mpr List.nodup_range
  · rw [collect_first_eq h hfuel true]
    simp [window]

/-- A window of five frames, entered at the third. -/
theorem collect_enumerates_five :
    (∃ visited : List ℕ,
      CircularGeneratorIterator.collect (CircularGenerator.mk 2 5 false).last 6
          (CircularGenerator.mk 2 5 false).first = some (visited.map Int.ofNat) ∧
      visited = [2, 3, 4, 0, 1] ∧ (∀ r, r ∈ visited ↔ r < 5) ∧ visited.Nodup) ∧
    CircularGeneratorIterator.collect (CircularGenerator.mk 2 5 true).last 6
        (CircularGenerator.mk 2 5 true).first = some [0, 1, 2] :=
  @collect_enumerates 2 5 (by decide) 6 (by decide)

/-- The frames a loop over the generator visits. -/
def frames (t B : ℕ) (batching : Bool) : List ℕ :=
  ((CircularGenerator.mk t B batching).toList.getD []).map Int.toNat

theorem frames_eq {t B : ℕ} (ht : t < B) (batching : Bool) :
    frames t B batching = window t B batching := by
  simp [frames, toList_eq ht, Function.comp_def]

/-- Without batching every frame is visited, with batching those up to the current slot. -/
theorem mem_frames {t B : ℕ} (ht : t < B) {batching : Bool} {f : ℕ} :
    f ∈ frames t B batching ↔ f < B ∧ (batching = true → f ≤ t) := by
  rw [frames_eq ht]
  cases batching with
  | true =>
    simp only [window, if_true, List.mem_range, forall_const]
    omega
  | false =>
    simp only [window, Bool.false_eq_true, if_false, List.mem_map, List.mem_range,
      false_implies, and_true]
    constructor
    · rintro ⟨k, -, rfl⟩
      exact Nat.mod_lt _ (by omega)
    · -- A frame before the current slot is reached after the wrap around.
      intro hf
      rcases Nat.lt_or_ge f t with hlt | hge
      · refine ⟨f + B - t, by omega, ?_⟩
        rw [show t + (f + B - t) = f + B by omega, Nat.add_mod_right, Nat.mod_eq_of_lt hf]
      · exact ⟨f - t, by omega, by rw [Nat.add_sub_cancel' hge, Nat.mod_eq_of_lt hf]⟩

end CircularGenerator

end SschedSimulator
