import Mathlib.Algebra.BigOperators.Fin
import Mathlib.Algebra.Order.BigOperators.Group.Finset
import Mathlib.Algebra.Order.Group.Int
import Mathlib.Algebra.Order.Group.Abs
import SschedSimulator.Foundation.BoundedSum

namespace SschedSimulator

open Foundation

/-!
# `int` — the numbers that the matching programs add

Weights and packet counts are read into `int` and added in `int`.  A sum outside the range is undefined
in the source: here it is a fault.

* `accumulate_of_nonneg` — numbers that are not negative are added exactly if their sum fits;
* `accumulateOf_finRange` — so are the rows of a matrix, and then their sums.
-/

/-- The range of `int`. -/
def smallestInt : ℤ := -2147483648

def largestInt : ℤ := 2147483647

/-- An integer that `int` can hold. -/
def IsInt (k : ℤ) : Prop := smallestInt ≤ k ∧ k ≤ largestInt

instance (k : ℤ) : Decidable (IsInt k) := inferInstanceAs (Decidable (_ ∧ _))

/-- A number that is not negative is above the smallest `int`. -/
theorem smallestInt_le {k : ℤ} (h : 0 ≤ k) : smallestInt ≤ k :=
  Int.le_trans (by decide) h

/-- There only the upper bound counts. -/
theorem isInt_iff_of_nonneg {k : ℤ} (h : 0 ≤ k) : IsInt k ↔ k ≤ largestInt :=
  and_iff_right (smallestInt_le h)

/-- A bound on the absolute value is enough. -/
theorem isInt_of_abs_le {k : ℤ} (h : |k| ≤ largestInt) : IsInt k :=
  ⟨Int.le_trans (by decide) (abs_le.mp h).1, (abs_le.mp h).2⟩

variable {ε : Type} {e : ε}

/-- `std::accumulate` from `0` on: the numbers one after the other. -/
def accumulate (e : ε) (l : List ℤ) : Except ε ℤ := BoundedSum.sum IsInt e l

/-- `std::accumulate` where the numbers themselves have to be found. -/
def accumulateOf {α : Type} (e : ε) (f : α → Except ε ℤ) (l : List α) : Except ε ℤ :=
  BoundedSum.sumOf IsInt e f l

/-- Without negative summands the sum overflows exactly if the total does. -/
theorem accumulate_of_nonneg {l : List ℤ} (hl : ∀ x ∈ l, 0 ≤ x) :
    accumulate e l = if l.sum ≤ largestInt then .ok l.sum else .error e :=
  BoundedSum.sum_of_nonneg (fun _ h => isInt_iff_of_nonneg h) (by decide) hl

/-- The same for summands that are computed on the way and may overflow themselves. -/
theorem accumulateOf_of_nonneg {α : Type} {f : α → Except ε ℤ} {g : α → ℤ} {l : List α}
    (hg : ∀ a ∈ l, 0 ≤ g a)
    (hf : ∀ a ∈ l, f a = .ok (g a) ∨ f a = .error e ∧ largestInt < g a) :
    accumulateOf e f l
      = if (l.map g).sum ≤ largestInt then .ok (l.map g).sum else .error e :=
  BoundedSum.sumOf_of_nonneg (fun _ h => isInt_iff_of_nonneg h) (by decide) hg hf

/-- A sum whose total is an `int`, as a specification. -/
theorem accumulateOf_post {α : Type} {f : α → Except ε ℤ} {g : α → ℤ} {E : ε → Prop}
    {P : α → Prop} {l : List α} (hg : ∀ a ∈ l, 0 ≤ g a)
    (hf : ∀ a ∈ l, Post (f a) E (fun x => x = g a ∧ P a)) (hsum : (l.map g).sum ≤ largestInt) :
    Post (accumulateOf e f l) E (fun s => s = (l.map g).sum ∧ ∀ a ∈ l, P a) :=
  BoundedSum.sumOf_post (fun _ h => isInt_iff_of_nonneg h) hg hf hsum

/-- The numbers of all ports. -/
theorem accumulate_finRange {n : ℕ} {f : Fin n → ℤ} (hf : ∀ i, 0 ≤ f i) :
    accumulate e ((List.finRange n).map f)
      = if ∑ i, f i ≤ largestInt then .ok (∑ i, f i) else .error e := by
  have hsum : ((List.finRange n).map f).sum = ∑ i, f i := by rw [Fin.sum_univ_def]
  rw [← hsum]
  apply accumulate_of_nonneg
  intro x hx
  obtain ⟨i, -, rfl⟩ := List.mem_map.mp hx
  exact hf i

/-- The numbers of all pairs of ports, row by row. -/
theorem accumulateOf_finRange {n m : ℕ} {w : Fin n → Fin m → ℤ} (hw : ∀ i o, 0 ≤ w i o) :
    accumulateOf e (fun i => accumulate e ((List.finRange m).map (w i))) (List.finRange n)
      = if ∑ i, ∑ o, w i o ≤ largestInt then .ok (∑ i, ∑ o, w i o) else .error e := by
  have hsum : ((List.finRange n).map (fun i => ∑ o, w i o)).sum = ∑ i, ∑ o, w i o := by
    rw [Fin.sum_univ_def]
  rw [← hsum]
  apply accumulateOf_of_nonneg
  · exact fun i _ => Finset.sum_nonneg (fun o _ => hw i o)
  · intro i _
    rw [accumulate_finRange (hw i)]
    split
    · exact .inl rfl
    · exact .inr ⟨rfl, not_le.mp ‹_›⟩

end SschedSimulator
