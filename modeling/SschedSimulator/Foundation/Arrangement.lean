import Mathlib.Data.List.FinRange
import Mathlib.Data.List.Sort

namespace SschedSimulator.Foundation

/-!
# Shuffles and unstable sorts

What a program may rely on when it calls a shuffle or a sort of a standard library, and no
more: a `Shuffle` lists the ports in some order, each one once; a `Reorder` lists the elements of
any list in some order; a `DescSort` returns the given elements by non-increasing key, equal keys
in an order of its own.
-/

/-- Some order of the ports `0, …, n - 1`. -/
abbrev Shuffle (n : ℕ) := { l : List (Fin n) // l.Perm (List.finRange n) }

namespace Shuffle

variable {n : ℕ}

/-- The ports in order. -/
def inOrder (n : ℕ) : Shuffle n := ⟨List.finRange n, List.Perm.refl _⟩

theorem nodup (s : Shuffle n) : s.val.Nodup :=
  s.property.nodup_iff.mpr (List.nodup_finRange n)

theorem mem (s : Shuffle n) (i : Fin n) : i ∈ s.val :=
  s.property.mem_iff.mpr (List.mem_finRange i)

end Shuffle

/-- Some order of the elements of every list. -/
structure Reorder (α : Type) where
  run : List α → List α
  perm : ∀ l, (run l).Perm l

namespace Reorder

variable {α : Type}

theorem mem (R : Reorder α) {l : List α} {a : α} : a ∈ R.run l ↔ a ∈ l := (R.perm l).mem_iff

/-- The elements in the given order. -/
def inOrder (α : Type) : Reorder α := ⟨fun l => l, fun _ => List.Perm.refl _⟩

end Reorder

/-- All pairs of two ports, row by row. -/
def portPairs (n m : ℕ) : List (Fin n × Fin m) :=
  (List.finRange n).flatMap (fun i => (List.finRange m).map (fun o => (i, o)))

theorem mem_portPairs {n m : ℕ} (p : Fin n × Fin m) : p ∈ portPairs n m := by
  simp [portPairs]

theorem nodup_portPairs (n m : ℕ) : (portPairs n m).Nodup := by
  refine List.nodup_flatMap.mpr ⟨fun i _ => ?_, (List.nodup_finRange n).imp ?_⟩
  · exact (List.nodup_finRange m).map (fun a b h => congrArg Prod.snd h)
  · intro i i' hne p hp hp'
    obtain ⟨o, -, rfl⟩ := List.mem_map.mp hp
    obtain ⟨o', -, ho'⟩ := List.mem_map.mp hp'
    exact hne (congrArg Prod.fst ho').symm

/-- An element of a list without repetitions does not come before its place. -/
theorem not_mem_take_of_getElem? {α : Type} {l : List α} (hl : l.Nodup) {k : ℕ} {a : α}
    (h : l[k]? = some a) : a ∉ l.take k := by
  obtain ⟨hk, rfl⟩ := List.getElem?_eq_some_iff.mp h
  rw [← List.take_append_drop k l, List.drop_eq_getElem_cons hk] at hl
  exact fun hmem => (List.nodup_append.mp hl).2.2 _ hmem _ (List.mem_cons_self ..) rfl

/-- A sort by non-increasing key that is free in how it orders equal keys. -/
structure DescSort (α : Type) where
  run : (α → ℤ) → List α → List α
  perm : ∀ key l, (run key l).Perm l
  sorted : ∀ key l, (run key l).Pairwise (fun a b => key b ≤ key a)

namespace DescSort

variable {α : Type}

theorem mem (S : DescSort α) {key : α → ℤ} {l : List α} {a : α} :
    a ∈ S.run key l ↔ a ∈ l := (S.perm key l).mem_iff

theorem nodup (S : DescSort α) {key : α → ℤ} {l : List α} (h : l.Nodup) :
    (S.run key l).Nodup := (S.perm key l).nodup_iff.mpr h

/-- Insertion sort, which keeps the given order of equal keys. -/
def insertion : DescSort α where
  run key l := l.insertionSort (fun a b => key b ≤ key a)
  perm key l := List.perm_insertionSort _ l
  sorted key l := by
    have : Std.Total (fun a b : α => key b ≤ key a) := ⟨fun a b => le_total (key b) (key a)⟩
    have : IsTrans α (fun a b => key b ≤ key a) := ⟨fun _ _ _ hab hbc => le_trans hbc hab⟩
    exact List.pairwise_insertionSort _ l

end DescSort

end SschedSimulator.Foundation
