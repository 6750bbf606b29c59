import Mathlib.Data.List.Basic
import Mathlib.Logic.Function.Basic

namespace SschedSimulator.Foundation.IndexedSet

/-!
# Sets kept in an array with an index

The first `count` items of an array are the elements of a set; what stands behind them is left over
from earlier elements.  An index gives the position of every element, so that an element is removed
by moving the last one into its place.

* `Inverse items count index` — the index is the inverse of the array on its first `count` items;
* `Inverse.insert`, `Inverse.erase_last` and `Inverse.erase_swap` — it stays so.
-/

variable {K : Type*} {items items' : List K} {count : ℕ} {index : K → Option ℕ} {k l : K} {i : ℕ}

/-- The index says at which of the first `count` positions an element stands. -/
structure Inverse (items : List K) (count : ℕ) (index : K → Option ℕ) : Prop where
  bounded : count ≤ items.length
  located : ∀ k i, index k = some i ↔ i < count ∧ items[i]? = some k

theorem inverse_nil : Inverse ([] : List K) 0 (fun _ => none) :=
  ⟨Nat.le_refl 0, fun _ _ => by simp⟩

/-- The elements are the keys with a position. -/
theorem Inverse.mem_iff (h : Inverse items count index) :
    k ∈ items.take count ↔ ∃ i, index k = some i := by
  simp only [h.located, List.mem_iff_getElem?, List.getElem?_take]
  refine exists_congr (fun i => ?_)
  split
  · rename_i hi
    simp [hi]
  · rename_i hi
    simp [hi]

/-- Two elements do not share a position. -/
theorem Inverse.injective (h : Inverse items count index) (hk : index k = some i)
    (hl : index l = some i) : k = l := by
  have hi := ((h.located k i).mp hk).2
  rw [((h.located l i).mp hl).2] at hi
  exact (Option.some.inj hi).symm

variable [DecidableEq K]

/-- A new element is written behind the old ones. -/
theorem Inverse.insert (h : Inverse items count index) (hk : index k = none)
    (hlen : count < items'.length) (hold : ∀ i < count, items'[i]? = items[i]?)
    (hnew : items'[count]? = some k) :
    Inverse items' (count + 1) (Function.update index k (some count)) where
  bounded := hlen
  located := by
    intro l i
    by_cases hl : l = k
    · subst hl
      rw [Function.update_self, Option.some.injEq]
      constructor
      · rintro rfl
        exact ⟨Nat.lt_succ_self _, hnew⟩
      · -- An old position of `l` would be in the index.
        rintro ⟨hi, hget⟩
        by_contra hne
        have hlt : i < count := by omega
        rw [hold i hlt] at hget
        rw [(h.located l i).mpr ⟨hlt, hget⟩] at hk
        exact nomatch hk
    · rw [Function.update_of_ne hl, h.located]
      constructor
      · rintro ⟨hi, hget⟩
        exact ⟨by omega, (hold i hi).trans hget⟩
      · rintro ⟨hi, hget⟩
        have hne : i ≠ count := by
          rintro rfl
          rw [hnew] at hget
          exact hl (Option.some.inj hget).symm
        have hlt : i < count := by omega
        exact ⟨hlt, (hold i hlt).symm.trans hget⟩

/-- The last element is removed by shortening the array. -/
theorem Inverse.erase_last (h : Inverse items (count + 1) index) (hk : index k = some count) :
    Inverse items count (Function.update index k none) where
  bounded := by
    have := h.bounded
    omega
  located := by
    intro l i
    by_cases hl : l = k
    · subst hl
      rw [Function.update_self]
      refine iff_of_false (fun hc => nomatch hc) ?_
      rintro ⟨hi, hget⟩
      have hboth := (h.located l i).mpr ⟨by omega, hget⟩
      rw [hk, Option.some.injEq] at hboth
      omega
    · rw [Function.update_of_ne hl, h.located]
      constructor
      · rintro ⟨hi, hget⟩
        refine ⟨?_, hget⟩
        have hne : i ≠ count := by
          rintro rfl
          exact hl (h.injective ((h.located l i).mpr ⟨hi, hget⟩) hk)
        omega
      · rintro ⟨hi, hget⟩
        exact ⟨by omega, hget⟩

/-- Another element is removed by moving the last one into its place. -/
theorem Inverse.erase_swap (h : Inverse items (count + 1) index) (hk : index k = some i)
    (hi : i ≠ count) (hl : index l = some count) :
    Inverse (items.set i l) count
      (Function.update (Function.update index l (some i)) k none) where
  bounded := by
    rw [List.length_set]
    have := h.bounded
    omega
  located := by
    obtain ⟨hlt, hget⟩ := (h.located k i).mp hk
    have hkl : k ≠ l := by
      rintro rfl
      rw [hk, Option.some.injEq] at hl
      exact hi hl
    have hlen : i < items.length := by
      have := h.bounded
      omega
    intro p j
    rw [List.getElem?_set]
    by_cases hp : p = k
    · -- `k` stood at `i` only, where `l` stands now.
      subst hp
      rw [Function.update_self]
      refine iff_of_false (fun hc => nomatch hc) ?_
      rintro ⟨hj, hget'⟩
      split at hget'
      · exact hkl (Option.some.inj hget').symm
      · rename_i hij
        have hboth := (h.located p j).mpr ⟨by omega, hget'⟩
        rw [hk, Option.some.injEq] at hboth
        exact hij hboth
    · rw [Function.update_of_ne hp]
      by_cases hpl : p = l
      · subst hpl
        rw [Function.update_self, Option.some.injEq]
        constructor
        · rintro rfl
          exact ⟨by omega, by rw [if_pos rfl, if_pos hlen]⟩
        · -- `p` stood at `count` only, which is no position any more.
          rintro ⟨hj, hget'⟩
          by_contra hij
          rw [if_neg hij] at hget'
          have hboth := (h.located p j).mpr ⟨by omega, hget'⟩
          rw [hl, Option.some.injEq] at hboth
          omega
      · rw [Function.update_of_ne hpl, h.located]
        constructor
        · rintro ⟨hj, hget'⟩
          have hindex := (h.located p j).mpr ⟨hj, hget'⟩
          have hji : i ≠ j := by
            rintro rfl
            exact hp (h.injective hindex hk)
          have hjc : j ≠ count := by
            rintro rfl
            exact hpl (h.injective hindex hl)
          exact ⟨by omega, by rw [if_neg hji]; exact hget'⟩
        · rintro ⟨hj, hget'⟩
          split at hget'
          · exact absurd (Option.some.inj hget').symm hpl
          · exact ⟨by omega, hget'⟩

end SschedSimulator.Foundation.IndexedSet
