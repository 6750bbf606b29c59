import Mathlib.Data.List.Find
import Mathlib.Data.List.Nodup
import Mathlib.Tactic.Tauto

namespace SschedSimulator.Foundation.FirstFit

/-!
# First fit

Clients come one after the other; each takes the first of the slots that are left and suit it, if
there is one.

* `served` — the clients that get a slot;
* `leftAfter` — the slots that are left in the end;
* `mem_served_iff` — a client is served exactly when one of the slots left after the clients
  before it suits it.
-/

variable {C S : Type*} [DecidableEq S]

/-- The clients that get a slot. -/
def served (suits : C → S → Bool) : List C → List S → List C
  | [], _ => []
  | c :: rest, left =>
    match left.find? (suits c) with
    | none => served suits rest left
    | some s => c :: served suits rest (left.filter (· ≠ s))

/-- The slots that are left. -/
def leftAfter (suits : C → S → Bool) : List C → List S → List S
  | [], left => left
  | c :: rest, left =>
    match left.find? (suits c) with
    | none => leftAfter suits rest left
    | some s => leftAfter suits rest (left.filter (· ≠ s))

/-- Without slots nobody is served. -/
@[simp] theorem served_nil (suits : C → S → Bool) (cs : List C) : served suits cs [] = [] := by
  induction cs with
  | nil => rfl
  | cons c rest ih => exact ih

/-- Every client is served at most once, in order. -/
theorem served_sublist (suits : C → S → Bool) (cs : List C) (left : List S) :
    (served suits cs left).Sublist cs := by
  induction cs generalizing left with
  | nil => exact List.Sublist.refl _
  | cons c rest ih =>
    unfold served
    cases left.find? (suits c) with
    | none => exact (ih left).cons c
    | some s => exact (ih _).cons_cons c

/-- Who is served depends on what suits the clients, not on what suits others. -/
theorem served_congr {suits suits' : C → S → Bool} {cs : List C} {left : List S}
    (h : ∀ c ∈ cs, ∀ s ∈ left, suits c s = suits' c s) :
    served suits cs left = served suits' cs left := by
  induction cs generalizing left with
  | nil => rfl
  | cons c rest ih =>
    have hfind : left.find? (suits c) = left.find? (suits' c) :=
      List.find?_congr (fun s hs => h c (List.mem_cons_self ..) s hs)
    unfold served
    rw [hfind]
    cases left.find? (suits' c) with
    | none => exact ih (fun c' hc' => h c' (List.mem_cons_of_mem c hc'))
    | some s =>
      exact congrArg (c :: ·) (ih (fun c' hc' s' hs' =>
        h c' (List.mem_cons_of_mem c hc') s' (List.mem_of_mem_filter hs')))

/-- A client is served exactly when one of the slots left after the clients before it suits it. -/
theorem mem_served_iff [DecidableEq C] {suits : C → S → Bool} {cs : List C} (hcs : cs.Nodup)
    {left : List S} {c : C} :
    c ∈ served suits cs left ↔
      c ∈ cs ∧ ∃ s ∈ leftAfter suits (cs.takeWhile (· ≠ c)) left, suits c s = true := by
  induction cs generalizing left with
  | nil => simp [served]
  | cons c' rest ih =>
    obtain ⟨hc', hrest⟩ := List.nodup_cons.mp hcs
    by_cases hcc : c' = c
    · -- The first client: nobody has taken a slot before it, and it does not come again.
      subst hcc
      have hnone : c' ∉ served suits rest left := fun hmem =>
        hc' ((served_sublist suits rest left).subset hmem)
      unfold served
      cases hfind : left.find? (suits c') with
      | none =>
        have hall := List.find?_eq_none.mp hfind
        simp only [hnone, List.takeWhile_cons, ne_eq, not_true_eq_false, decide_false,
          Bool.false_eq_true, if_false, leftAfter, false_iff, not_and, not_exists]
        exact fun _ s hs => hall s hs
      | some s =>
        have hs := List.find?_some hfind
        have hmem := List.mem_of_find?_eq_some hfind
        simp only [List.mem_cons, true_or, List.takeWhile_cons, ne_eq, not_true_eq_false,
          decide_false, Bool.false_eq_true, if_false, leftAfter, true_and, true_iff]
        exact ⟨s, hmem, hs⟩
    · -- Another client comes first and takes the slot that it finds, if any.
      unfold served
      cases hfind : left.find? (suits c') with
      | none =>
        simp only [ih hrest, List.mem_cons, Ne.symm hcc, false_or, List.takeWhile_cons, ne_eq, hcc,
          not_false_eq_true, decide_true, if_true, leftAfter, hfind]
      | some s =>
        simp only [List.mem_cons, Ne.symm hcc, false_or, ih hrest, List.takeWhile_cons, ne_eq, hcc,
          not_false_eq_true, decide_true, if_true, leftAfter, hfind]

end SschedSimulator.Foundation.FirstFit
