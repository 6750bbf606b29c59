import Mathlib.Algebra.Order.BigOperators.Group.List
import SschedSimulator.Foundation.Outcome

namespace SschedSimulator.Foundation.BoundedSum

/-!
# Sums of which every partial sum must fit

Numbers are added one after the other, and it is a fault if a partial sum leaves the range.  Where
no number is negative the partial sums do not come back into it: then the whole sum decides.

* `sum_of_nonneg`, `sumOf_of_nonneg` — of numbers that are not negative, the sum is found exactly if
  it is in the range;
* `sumOf_post` — a sum in the range of numbers that have to be found.
-/

variable {R ε : Type}

section

variable [AddMonoid R] (fits : R → Prop) [DecidablePred fits] (e : ε)

/-- Add two numbers. -/
def add (a b : R) : Except ε R := do
  require (fits (a + b)) e
  .ok (a + b)

/-- Add up a list. -/
def sum (l : List R) : Except ε R := l.foldlM (add fits e) 0

/-- Add up what is found for the elements of a list. -/
def sumOf {α : Type} (f : α → Except ε R) (l : List α) : Except ε R :=
  l.foldlM (fun acc a => do
    let x ← f a
    add fits e acc x) 0

variable {fits e}

theorem add_of_fits {a b : R} (h : fits (a + b)) : add fits e a b = .ok (a + b) := by
  rw [add, require_pos h, ok_bind]

theorem add_of_not_fits {a b : R} (h : ¬ fits (a + b)) : add fits e a b = .error e := by
  rw [add, Foundation.require, if_neg h, error_bind]

end

section

variable [AddCommMonoid R] [LinearOrder R] [IsOrderedAddMonoid R] {fits : R → Prop}
  [DecidablePred fits] {e : ε} {bound : R}

/-- `g a` is found for `a`, unless it is out of the range by itself. -/
theorem foldlM_add_of_nonneg (hfits : ∀ x, 0 ≤ x → (fits x ↔ x ≤ bound)) {α : Type}
    {f : α → Except ε R} {g : α → R} {l : List α} (hg : ∀ a ∈ l, 0 ≤ g a)
    (hf : ∀ a ∈ l, f a = .ok (g a) ∨ f a = .error e ∧ bound < g a) {acc : R} (hacc : 0 ≤ acc)
    (hbound : acc ≤ bound) :
    l.foldlM (fun acc a => do
      let x ← f a
      add fits e acc x) acc
      = if acc + (l.map g).sum ≤ bound then .ok (acc + (l.map g).sum) else .error e := by
  induction l generalizing acc with
  | nil =>
    rw [List.map_nil, List.sum_nil, add_zero, if_pos hbound]
    rfl
  | cons a l ih =>
    have ha := hg a List.mem_cons_self
    have hrest : ∀ x ∈ l, 0 ≤ g x := fun x hx => hg x (List.mem_cons_of_mem a hx)
    have hnext : 0 ≤ acc + g a := add_nonneg hacc ha
    -- what has left the range stays outside
    have hout : ¬ acc + g a ≤ bound → ¬ acc + g a + (l.map g).sum ≤ bound := by
      intro hgt hle
      have hsum : 0 ≤ (l.map g).sum := List.sum_nonneg (List.forall_mem_map.mpr hrest)
      exact hgt ((le_add_of_nonneg_right hsum).trans hle)
    rw [List.foldlM_cons, List.map_cons, List.sum_cons, ← add_assoc]
    rcases hf a List.mem_cons_self with hok | ⟨herror, hgt⟩
    · rw [hok, ok_bind]
      by_cases hle : acc + g a ≤ bound
      · rw [add_of_fits ((hfits _ hnext).mpr hle), ok_bind,
          ih hrest (fun x hx => hf x (List.mem_cons_of_mem a hx)) hnext hle]
      · rw [add_of_not_fits (fun hc => hle ((hfits _ hnext).mp hc)), error_bind,
          if_neg (hout hle)]
    · have hle : ¬ acc + g a ≤ bound :=
        not_le.mpr (hgt.trans_le (le_add_of_nonneg_left hacc))
      rw [herror, error_bind, error_bind, if_neg (hout hle)]

theorem sumOf_of_nonneg (hfits : ∀ x, 0 ≤ x → (fits x ↔ x ≤ bound)) (hbound : 0 ≤ bound)
    {α : Type} {f : α → Except ε R} {g : α → R} {l : List α} (hg : ∀ a ∈ l, 0 ≤ g a)
    (hf : ∀ a ∈ l, f a = .ok (g a) ∨ f a = .error e ∧ bound < g a) :
    sumOf fits e f l = if (l.map g).sum ≤ bound then .ok (l.map g).sum else .error e := by
  have hsum := foldlM_add_of_nonneg hfits hg hf (le_refl 0) hbound
  rwa [zero_add] at hsum

/-- Where the sum is in the range, only the search for a number can fail. -/
theorem sumOf_post (hfits : ∀ x, 0 ≤ x → (fits x ↔ x ≤ bound)) {α : Type} {f : α → Except ε R}
    {g : α → R} {E : ε → Prop} {P : α → Prop} {l : List α} (hg : ∀ a ∈ l, 0 ≤ g a)
    (hf : ∀ a ∈ l, Post (f a) E (fun x => x = g a ∧ P a)) (hsum : (l.map g).sum ≤ bound) :
    Post (sumOf fits e f l) E (fun s => s = (l.map g).sum ∧ ∀ a ∈ l, P a) := by
  have hloop : ∀ acc : R, 0 ≤ acc → acc + (l.map g).sum ≤ bound →
      Post (l.foldlM (fun acc a => do
        let x ← f a
        add fits e acc x) acc) E (fun s => s = acc + (l.map g).sum ∧ ∀ a ∈ l, P a) := by
    clear hsum
    induction l with
    | nil => exact fun acc _ _ => ⟨(add_zero acc).symm, fun a ha => absurd ha List.not_mem_nil⟩
    | cons a l ih =>
      intro acc hacc hle
      have hrest : ∀ x ∈ l, 0 ≤ g x := fun x hx => hg x (List.mem_cons_of_mem a hx)
      have hnext : 0 ≤ acc + g a := add_nonneg hacc (hg a List.mem_cons_self)
      rw [List.map_cons, List.sum_cons, ← add_assoc] at hle ⊢
      have hbound : acc + g a ≤ bound := le_trans
        (le_add_of_nonneg_right (List.sum_nonneg (List.forall_mem_map.mpr hrest))) hle
      rw [List.foldlM_cons]
      refine Post.bind (P := fun acc' => acc' = acc + g a ∧ P a) ?_ ?_
      · refine (hf a List.mem_cons_self).bind (fun x hx => ?_)
        rw [hx.1, add_of_fits ((hfits _ hnext).mpr hbound)]
        exact ⟨rfl, hx.2⟩
      · rintro _ ⟨rfl, ha⟩
        refine (ih hrest (fun x hx => hf x (List.mem_cons_of_mem a hx)) _ hnext hle).imp ?_
        exact fun s hs => ⟨hs.1, List.forall_mem_cons.mpr ⟨ha, hs.2⟩⟩
  have hstart := hloop 0 (le_refl 0) (by rwa [zero_add])
  rwa [zero_add] at hstart

/-- Of numbers that are not negative, the sum is found exactly if it is in the range. -/
theorem sum_of_nonneg (hfits : ∀ x, 0 ≤ x → (fits x ↔ x ≤ bound)) (hbound : 0 ≤ bound)
    {l : List R} (hl : ∀ x ∈ l, 0 ≤ x) :
    sum fits e l = if l.sum ≤ bound then .ok l.sum else .error e := by
  have hfound : ∀ a ∈ l, (Except.ok a : Except ε R) = .ok (id a) ∨ Except.ok a = .error e ∧
      bound < id a := fun _ _ => .inl rfl
  have hsum := sumOf_of_nonneg hfits hbound hl hfound
  rwa [List.map_id'] at hsum

end

end SschedSimulator.Foundation.BoundedSum
