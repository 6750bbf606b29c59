import Mathlib.Algebra.BigOperators.Group.Finset.Sigma
import Mathlib.Algebra.BigOperators.Ring.Finset
import Mathlib.Data.Fintype.Card
import Mathlib.Order.Bounds.Basic
import SschedSimulator.Foundation.Table

namespace SschedSimulator.Foundation

/-!
# Partial matchings of a relation

A relation between left and right ports is given by the list of its pairs.

* `MatchingOf` — a partial matching all of whose pairs are in the relation;
* `matchSize` — how many left ports it matches, and how an update changes that;
* `Largest` — no partial matching of the relation is larger;
* `MaximalMatching` — no pair of the relation can be added, which `MutuallyInverse.matchSize_lt`
  bounds by the number of ports.
-/

variable {I O : Type*}

/-- A partial matching of pairs of the list. -/
structure MatchingOf (pairs : List (I × O)) (row : I → Option O) : Prop where
  matching : IsMatching row
  mem : ∀ i o, row i = some o → (i, o) ∈ pairs

/-- The number of left ports that are matched. -/
def matchSize [Fintype I] (row : I → Option O) : ℕ :=
  (Finset.univ.filter (fun i => (row i).isSome)).card

/-- No partial matching of the pairs is larger. -/
structure Largest [Fintype I] (pairs : List (I × O)) (row : I → Option O) : Prop extends
    MatchingOf pairs row where
  maximal : ∀ row', MatchingOf pairs row' → matchSize row' ≤ matchSize row

/-- The size of a largest partial matching is the greatest size there is. -/
theorem Largest.isGreatest [Fintype I] {pairs : List (I × O)} {row : I → Option O}
    (h : Largest pairs row) :
    IsGreatest {k | ∃ row', MatchingOf pairs row' ∧ matchSize row' = k} (matchSize row) := by
  refine ⟨⟨row, h.toMatchingOf, rfl⟩, ?_⟩
  rintro k ⟨row', hrow', rfl⟩
  exact h.maximal row' hrow'

theorem matchSize_none [Fintype I] : matchSize (fun _ : I => (none : Option O)) = 0 := by
  simp [matchSize]

/-- Some left port is matched. -/
theorem matchSize_pos [Fintype I] {row : I → Option O} {i : I} {o : O} (h : row i = some o) :
    0 < matchSize row :=
  Finset.card_pos.mpr ⟨i, Finset.mem_filter.mpr ⟨Finset.mem_univ i, by rw [h]; rfl⟩⟩

theorem matchSize_le_ports [Fintype I] (row : I → Option O) : matchSize row ≤ Fintype.card I :=
  Finset.card_filter_le _ _

/-- One more left port is matched. -/
theorem matchSize_update [Fintype I] [DecidableEq I] {row : I → Option O} {i : I}
    (h : row i = none) (o : O) :
    matchSize (Function.update row i (some o)) = matchSize row + 1 := by
  have hset : Finset.univ.filter (fun j => (Function.update row i (some o) j).isSome)
      = insert i (Finset.univ.filter (fun j => (row j).isSome)) := by
    ext j
    by_cases hj : j = i <;> simp [hj]
  rw [matchSize, hset, Finset.card_insert_of_notMem (by simp [h])]
  rfl

/-- The left ports that are matched, picked from a list that has all of them. -/
theorem length_filter_isSome [Fintype I] [DecidableEq I] {row : I → Option O} {l : List I}
    (hl : l.Nodup) (hrow : ∀ i o, row i = some o → i ∈ l) :
    (l.filter (fun i => (row i).isSome)).length = matchSize row := by
  rw [← List.toFinset_card_of_nodup (hl.filter _), matchSize]
  congr 1
  ext i
  simp only [List.mem_toFinset, List.mem_filter, Finset.mem_filter, Finset.mem_univ, true_and,
    and_iff_right_iff_imp]
  intro hsome
  obtain ⟨o, ho⟩ := Option.isSome_iff_exists.mp hsome
  exact hrow i o ho

/-! ### The pairs of a partial matching -/

/-- A left port is in one pair at most. -/
theorem sum_pairs_left [Fintype O] [DecidableEq O] (row : I → Option O) (i : I) :
    ∑ o, (if row i = some o then (1 : ℤ) else 0) = if (row i).isSome then 1 else 0 := by
  cases hi : row i with
  | none => simp
  | some o => simp

/-- So is a right port. -/
theorem sum_pairs_right_le [Fintype I] [DecidableEq O] {row : I → Option O} (h : IsMatching row)
    (o : O) : ∑ i, (if row i = some o then (1 : ℤ) else 0) ≤ 1 := by
  rw [Finset.sum_boole]
  have hcard : (Finset.univ.filter (fun i => row i = some o)).card ≤ 1 :=
    Finset.card_le_one.mpr (fun i hi i' hi' =>
      h (Finset.mem_filter.mp hi).2 (Finset.mem_filter.mp hi').2)
  exact_mod_cast hcard

/-- There are as many pairs as left ports that are matched. -/
theorem sum_pairs_eq [Fintype I] [Fintype O] [DecidableEq O] (row : I → Option O) :
    ∑ i, ∑ o, (if row i = some o then (1 : ℤ) else 0) = matchSize row := by
  calc ∑ i, ∑ o, (if row i = some o then (1 : ℤ) else 0)
      = ∑ i, if (row i).isSome then 1 else 0 :=
        Finset.sum_congr rfl (fun i _ => sum_pairs_left row i)
    _ = matchSize row := Finset.sum_boole _ _

/-! ### Maximal matchings -/

/-- A partial matching of pairs in `R`, with its inverse, to which no other pair in `R` can be
    added. -/
structure MaximalMatching (R : I → O → Prop) (row : I → Option O) (column : O → Option I) :
    Prop where
  inverse : MutuallyInverse row column
  mem : ∀ i o, row i = some o → R i o
  blocked : ∀ i o, R i o → row i ≠ none ∨ column o ≠ none

/-- A larger matching blocks what the smaller one does. -/
theorem MutuallyInverse.blocked_of_le {row row' : I → Option O} {column column' : O → Option I}
    (h : MutuallyInverse row column) (h' : MutuallyInverse row' column')
    (hle : ∀ i o, row i = some o → row' i = some o) {i : I} {o : O}
    (hblocked : row i ≠ none ∨ column o ≠ none) : row' i ≠ none ∨ column' o ≠ none := by
  rcases hblocked with hi | ho
  · obtain ⟨p, hp⟩ := Option.ne_none_iff_exists'.mp hi
    rw [hle i p hp]
    exact .inl (Option.some_ne_none p)
  · obtain ⟨j, hj⟩ := Option.ne_none_iff_exists'.mp ho
    rw [(h' j o).mp (hle j o ((h j o).mpr hj))]
    exact .inr (Option.some_ne_none j)

/-- A matching that keeps every pair and adds one is larger. -/
theorem matchSize_lt_of_le [Fintype I] {row row' : I → Option O}
    (hle : ∀ i o, row i = some o → row' i = some o) {i : I} (hi : row i = none)
    (hi' : row' i ≠ none) : matchSize row < matchSize row' := by
  refine Finset.card_lt_card (Finset.ssubset_iff_of_subset (fun j hj => ?_) |>.mpr ⟨i, ?_, ?_⟩)
  · obtain ⟨o, ho⟩ := Option.isSome_iff_exists.mp (Finset.mem_filter.mp hj).2
    exact Finset.mem_filter.mpr ⟨Finset.mem_univ j, by rw [hle j o ho]; rfl⟩
  · exact Finset.mem_filter.mpr ⟨Finset.mem_univ i, Option.isSome_iff_ne_none.mpr hi'⟩
  · rw [Finset.mem_filter, hi]
    exact fun h => nomatch h.2

/-- As many right ports are matched as left ones. -/
theorem MutuallyInverse.matchSize_eq [Fintype I] [Fintype O] [DecidableEq I] [DecidableEq O]
    {row : I → Option O} {column : O → Option I} (h : MutuallyInverse row column) :
    matchSize column = matchSize row := by
  have hsum : (matchSize column : ℤ) = matchSize row := by
    rw [← sum_pairs_eq, ← sum_pairs_eq, Finset.sum_comm]
    exact Finset.sum_congr rfl (fun i _ => Finset.sum_congr rfl
      (fun o _ => if_congr (h i o).symm rfl rfl))
  exact_mod_cast hsum

/-- Next to a left port that is not matched, there is room for one more. -/
theorem matchSize_lt_card [Fintype I] [DecidableEq I] {row : I → Option O} {i : I}
    (hi : row i = none) : matchSize row < Fintype.card I := by
  refine Finset.card_lt_card (Finset.ssubset_univ_iff.mpr (fun huniv => ?_))
  have hmem := huniv ▸ Finset.mem_univ i
  rw [Finset.mem_filter, hi] at hmem
  cases hmem.2

/-- Two free ports leave the matching smaller than either side. -/
theorem MutuallyInverse.matchSize_lt [Fintype I] [Fintype O] [DecidableEq I] [DecidableEq O]
    {row : I → Option O} {column : O → Option I} (h : MutuallyInverse row column) {i : I} {o : O}
    (hi : row i = none) (ho : column o = none) :
    matchSize row < min (Fintype.card I) (Fintype.card O) := by
  have hcolumn := matchSize_lt_card ho
  rw [h.matchSize_eq] at hcolumn
  exact lt_min (matchSize_lt_card hi) hcolumn

/-- A matching that leaves no port of the smaller side free is maximal. -/
theorem MutuallyInverse.maximalMatching_of_full [Fintype I] [Fintype O] [DecidableEq I]
    [DecidableEq O] {R : I → O → Prop} {row : I → Option O} {column : O → Option I}
    (h : MutuallyInverse row column) (hmem : ∀ i o, row i = some o → R i o)
    (hfull : min (Fintype.card I) (Fintype.card O) ≤ matchSize row) :
    MaximalMatching R row column := by
  refine ⟨h, hmem, fun i o _ => ?_⟩
  by_contra hfree
  rw [not_or, not_ne_iff, not_ne_iff] at hfree
  have hlt := h.matchSize_lt hfree.1 hfree.2
  omega

/-- A maximal matching is at least half as large as any other: each pair of the other one has a port
    that is matched. -/
theorem MaximalMatching.matchSize_le_two_mul [Fintype I] [Fintype O] [DecidableEq I]
    [DecidableEq O] {R : I → O → Prop} {row row' : I → Option O} {column : O → Option I}
    (h : MaximalMatching R row column) (h' : IsMatching row')
    (hmem : ∀ i o, row' i = some o → R i o) : matchSize row' ≤ 2 * matchSize row := by
  -- The left ports that are matched only by the other one go to right ports that are matched.
  let onlyOther := Finset.univ.filter (fun i => (row' i).isSome ∧ row i = none)
  have hsub : Finset.univ.filter (fun i => (row' i).isSome)
      ⊆ Finset.univ.filter (fun i => (row i).isSome) ∪ onlyOther := by
    intro i hi
    simp only [onlyOther, Finset.mem_union, Finset.mem_filter, Finset.mem_univ, true_and] at hi ⊢
    by_cases hrow : row i = none
    · exact .inr ⟨hi, hrow⟩
    · exact .inl (Option.isSome_iff_ne_none.mpr hrow)
  have hpartner : ∀ i ∈ onlyOther, ∃ o, row' i = some o ∧ column o ≠ none := by
    intro i hi
    simp only [onlyOther, Finset.mem_filter, Finset.mem_univ, true_and] at hi
    obtain ⟨o, ho⟩ := Option.isSome_iff_exists.mp hi.1
    exact ⟨o, ho, (h.blocked i o (hmem i o ho)).resolve_left (fun hne => hne hi.2)⟩
  have hcard : onlyOther.card ≤ matchSize column := by
    have hmap : matchSize column = ((Finset.univ.filter (fun o => (column o).isSome)).map
        Function.Embedding.some).card := (Finset.card_map _).symm
    rw [hmap]
    refine Finset.card_le_card_of_injOn row' (fun i hi => ?_) (fun i hi j hj hij => ?_)
    · obtain ⟨o, ho, hcolumn⟩ := hpartner i hi
      rw [ho]
      exact Finset.mem_coe.mpr (Finset.mem_map_of_mem _ (Finset.mem_filter.mpr
        ⟨Finset.mem_univ o, Option.isSome_iff_ne_none.mpr hcolumn⟩))
    · obtain ⟨o, ho, -⟩ := hpartner i hi
      exact h' ho (hij ▸ ho)
  have hle := (Finset.card_le_card hsub).trans (Finset.card_union_le _ _)
  have hcolumn := h.inverse.matchSize_eq
  unfold matchSize at hle hcard hcolumn ⊢
  omega

end SschedSimulator.Foundation
