import Mathlib.Combinatorics.Enumerative.DoubleCounting
import Mathlib.Data.List.MinMax
import Mathlib.Data.List.Sublists
import SschedSimulator.Foundation.PartialMatching
import SschedSimulator.Lemon.ListGraph

namespace SschedSimulator

open Foundation

/-!
# `lemon/matching.h` — matchings of maximal size

`MaxMatching` finds a matching with as many edges as possible (`IsMaxMatching`), and may be started
from any matching of the graph.  On the graph of a relation between left and right ports such a
matching is a largest partial matching of the relation.

* `Depicts` — a graph whose edges are the pairs of the relation;
* `Depicts.largest` — from the graph to the relation;
* `exhaustive` — a solver that looks at all sets of edges.
-/

namespace ListGraph

/-! ### The solver -/

/-- Every edge joins two different nodes of the graph. -/
def Plain (g : ListGraph) : Prop :=
  ∀ e ∈ g.edges, e.1 < g.nodeNum ∧ e.2 < g.nodeNum ∧ e.1 ≠ e.2

/-- The edges that an edge map marks. -/
def marked (g : ListGraph) (initial : ℕ → Bool) : Finset ℕ :=
  (Finset.range g.edges.length).filter (fun e => initial e = true)

/-- `mate` says who is matched to whom in a matching with as many edges as possible. -/
def IsMaxMatching (g : ListGraph) (mate : ℕ → Option ℕ) : Prop :=
  ∃ M, g.IsMatching M ∧ (∀ u v, mate u = some v ↔ ∃ e ∈ M, g.Joins e u v) ∧
    ∀ M', g.IsMatching M' → M'.card ≤ M.card

/-! ### The graph of a relation -/

/-- The edges are the pairs of the list, in their order: `blue` and `red` give the nodes of the
    ports. -/
structure Depicts {I O : Type*} (g : ListGraph) (pairs : List (I × O)) (blue : I → ℕ)
    (red : O → ℕ) : Prop where
  edges : g.edges = pairs.map (fun p => (red p.2, blue p.1))
  nodup : pairs.Nodup
  blue_inj : ∀ p ∈ pairs, ∀ q ∈ pairs, blue p.1 = blue q.1 → p.1 = q.1
  red_inj : ∀ p ∈ pairs, ∀ q ∈ pairs, red p.2 = red q.2 → p.2 = q.2
  apart : ∀ p ∈ pairs, ∀ q ∈ pairs, red p.2 ≠ blue q.1

namespace Depicts

variable {I O : Type*} {g : ListGraph} {pairs : List (I × O)} {blue : I → ℕ} {red : O → ℕ}

theorem length_edges (h : Depicts g pairs blue red) : g.edges.length = pairs.length := by
  rw [h.edges, List.length_map]

/-- An edge joins the nodes of its pair. -/
theorem joins_iff (h : Depicts g pairs blue red) (e u v : ℕ) :
    g.Joins e u v ↔ ∃ p, pairs[e]? = some p ∧
      (u = blue p.1 ∧ v = red p.2 ∨ u = red p.2 ∧ v = blue p.1) := by
  unfold Joins
  rw [h.edges, List.getElem?_map]
  cases hp : pairs[e]? with
  | none => simp
  | some p =>
    simp only [Option.map_some, Option.some.injEq, Prod.mk.injEq, exists_eq_left']
    constructor
    · rintro (⟨rfl, rfl⟩ | ⟨rfl, rfl⟩)
      · exact .inr ⟨rfl, rfl⟩
      · exact .inl ⟨rfl, rfl⟩
    · rintro (⟨rfl, rfl⟩ | ⟨rfl, rfl⟩)
      · exact .inr ⟨rfl, rfl⟩
      · exact .inl ⟨rfl, rfl⟩

/-- The node of a left port is the end point of an edge only if it is the left port of its pair. -/
theorem joins_blue (h : Depicts g pairs blue red) {i : I} {o : O} (hio : (i, o) ∈ pairs)
    {e v : ℕ} : g.Joins e (blue i) v ↔ ∃ o', pairs[e]? = some (i, o') ∧ v = red o' := by
  rw [h.joins_iff]
  constructor
  · rintro ⟨p, hp, ⟨hi, hv⟩ | ⟨hi, -⟩⟩
    · have hmem := List.mem_of_getElem? hp
      obtain rfl : i = p.1 := h.blue_inj _ hio _ hmem hi
      exact ⟨p.2, hp, hv⟩
    · exact absurd hi.symm (h.apart _ (List.mem_of_getElem? hp) _ hio)
  · rintro ⟨o', hp, hv⟩
    exact ⟨(i, o'), hp, .inl ⟨rfl, hv⟩⟩

/-- Pairs that share a port have edges that share an end point. -/
theorem eq_of_shared (h : Depicts g pairs blue red) {M : Finset ℕ} (hM : g.IsMatching M)
    {e e' : ℕ} (he : e ∈ M) (he' : e' ∈ M) {p q : I × O} (hp : pairs[e]? = some p)
    (hq : pairs[e']? = some q) (hshared : p.1 = q.1 ∨ p.2 = q.2) : p = q := by
  have heq : e = e' := by
    rcases hshared with hone | htwo
    · refine hM.disjoint e he e' he' (blue p.1) (red p.2) (red q.2) ?_ ?_
      · exact (h.joins_iff _ _ _).mpr ⟨p, hp, .inl ⟨rfl, rfl⟩⟩
      · exact (h.joins_iff _ _ _).mpr ⟨q, hq, .inl ⟨by rw [hone], rfl⟩⟩
    · refine hM.disjoint e he e' he' (red p.2) (blue p.1) (blue q.1) ?_ ?_
      · exact (h.joins_iff _ _ _).mpr ⟨p, hp, .inr ⟨rfl, rfl⟩⟩
      · exact (h.joins_iff _ _ _).mpr ⟨q, hq, .inr ⟨by rw [htwo], rfl⟩⟩
  rw [heq, hq] at hp
  exact (Option.some.inj hp).symm

/-- The edges of pairs that a partial matching contains are a matching. -/
theorem isMatching (h : Depicts g pairs blue red) {row : I → Option O}
    (hrow : Foundation.IsMatching row) {M : Finset ℕ}
    (hM : ∀ e ∈ M, ∃ p, pairs[e]? = some p ∧ row p.1 = some p.2) :
    g.IsMatching M := by
  constructor
  · intro e he
    obtain ⟨p, hp, -⟩ := hM e he
    rw [h.length_edges]
    exact (List.getElem?_eq_some_iff.mp hp).1
  · intro e he e' he' u v v' hjoins hjoins'
    obtain ⟨p, hp, hpr⟩ := hM e he
    obtain ⟨q, hq, hqr⟩ := hM e' he'
    obtain ⟨p', hp', hends⟩ := (h.joins_iff _ _ _).mp hjoins
    obtain ⟨q', hq', hends'⟩ := (h.joins_iff _ _ _).mp hjoins'
    obtain rfl : p = p' := Option.some.inj (hp.symm.trans hp')
    obtain rfl : q = q' := Option.some.inj (hq.symm.trans hq')
    have hpm := List.mem_of_getElem? hp
    have hqm := List.mem_of_getElem? hq
    have hpq : p = q := by
      rcases hends with ⟨hu, -⟩ | ⟨hu, -⟩ <;> rcases hends' with ⟨hu', -⟩ | ⟨hu', -⟩
      · have hone := h.blue_inj p hpm q hqm (hu.symm.trans hu')
        rw [hone, hqr] at hpr
        exact Prod.ext hone (Option.some.inj hpr).symm
      · exact absurd (hu'.symm.trans hu) (h.apart q hqm p hpm)
      · exact absurd (hu.symm.trans hu') (h.apart p hpm q hqm)
      · have htwo := h.red_inj p hpm q hqm (hu.symm.trans hu')
        rw [htwo] at hpr
        exact Prod.ext (hrow hpr hqr) htwo
    -- A pair stands in the list once.
    subst hpq
    obtain ⟨hlt, hget⟩ := List.getElem?_eq_some_iff.mp hp
    obtain ⟨hlt', hget'⟩ := List.getElem?_eq_some_iff.mp hq
    exact (h.nodup.getElem_inj_iff).mp (hget.trans hget'.symm)

/-- The edges of the pairs that a partial matching contains. -/
def rowEdges [DecidableEq O] (pairs : List (I × O)) (row : I → Option O) : Finset ℕ :=
  (Finset.range pairs.length).filter
    (fun e => (pairs[e]?).any (fun p => decide (row p.1 = some p.2)) = true)

theorem mem_rowEdges [DecidableEq O] {row : I → Option O} {e : ℕ} :
    e ∈ rowEdges pairs row ↔ ∃ p, pairs[e]? = some p ∧ row p.1 = some p.2 := by
  rw [rowEdges, Finset.mem_filter, Finset.mem_range]
  constructor
  · rintro ⟨-, hany⟩
    cases hp : pairs[e]? with
    | none => simp [hp] at hany
    | some p => exact ⟨p, rfl, by simpa [hp] using hany⟩
  · rintro ⟨p, hp, hrow⟩
    exact ⟨(List.getElem?_eq_some_iff.mp hp).1, by simp [hp, hrow]⟩

/-- A partial matching has at least as many edges as it matches left ports. -/
theorem matchSize_le_card [Fintype I] [DecidableEq O] {row : I → Option O}
    (hrow : MatchingOf pairs row) : matchSize row ≤ (rowEdges pairs row).card := by
  refine Finset.card_le_card_of_forall_subsingleton
    (fun i e => ∃ o, pairs[e]? = some (i, o)) (fun i hi => ?_) (fun e he i hi i' hi' => ?_)
  · obtain ⟨o, ho⟩ := Option.isSome_iff_exists.mp (Finset.mem_filter.mp hi).2
    obtain ⟨e, hlt, he⟩ := List.mem_iff_getElem.mp (hrow.mem i o ho)
    have hget : pairs[e]? = some (i, o) := List.getElem?_eq_some_iff.mpr ⟨hlt, he⟩
    exact ⟨e, mem_rowEdges.mpr ⟨(i, o), hget, ho⟩, o, hget⟩
  · obtain ⟨-, o, ho⟩ := hi
    obtain ⟨-, o', ho'⟩ := hi'
    rw [ho, Option.some.injEq, Prod.mk.injEq] at ho'
    exact ho'.1

/-- The row that is read off the edges of a matching matches a left port for each of them. -/
theorem card_le_matchSize [Fintype I] (h : Depicts g pairs blue red) {M : Finset ℕ}
    (hM : g.IsMatching M) {row : I → Option O}
    (hrow : ∀ i o, row i = some o ↔ ∃ e ∈ M, pairs[e]? = some (i, o)) :
    M.card ≤ matchSize row := by
  refine Finset.card_le_card_of_forall_subsingleton
    (fun e i => ∃ o, pairs[e]? = some (i, o)) (fun e he => ?_) (fun i _ e he e' he' => ?_)
  · have hlt := hM.edge e he
    rw [h.length_edges] at hlt
    have hget : pairs[e]? = some (pairs[e].1, pairs[e].2) := List.getElem?_eq_getElem hlt
    refine ⟨pairs[e].1, Finset.mem_filter.mpr ⟨Finset.mem_univ _, ?_⟩, _, hget⟩
    rw [(hrow _ _).mpr ⟨e, he, hget⟩]
    rfl
  · obtain ⟨he, o, ho⟩ := he
    obtain ⟨he', o', ho'⟩ := he'
    have hpq := h.eq_of_shared hM he he' ho ho' (.inl rfl)
    rw [← hpq] at ho'
    obtain ⟨hlt, hget⟩ := List.getElem?_eq_some_iff.mp ho
    obtain ⟨hlt', hget'⟩ := List.getElem?_eq_some_iff.mp ho'
    exact (h.nodup.getElem_inj_iff).mp (hget.trans hget'.symm)

/-- A matching of maximal size is a largest partial matching of the relation. -/
theorem largest [Fintype I] [DecidableEq O] (h : Depicts g pairs blue red)
    {mate : ℕ → Option ℕ} (hmate : g.IsMaxMatching mate) {row : I → Option O}
    (hrow : ∀ i o, row i = some o ↔ (i, o) ∈ pairs ∧ mate (blue i) = some (red o)) :
    Largest pairs row := by
  obtain ⟨M, hM, hjoins, hmax⟩ := hmate
  have hedge : ∀ i o, row i = some o ↔ ∃ e ∈ M, pairs[e]? = some (i, o) := by
    intro i o
    rw [hrow]
    constructor
    · rintro ⟨hio, hm⟩
      obtain ⟨e, he, hj⟩ := (hjoins _ _).mp hm
      obtain ⟨o', ho', hred⟩ := (h.joins_blue hio).mp hj
      obtain rfl : o = o' := h.red_inj _ hio _ (List.mem_of_getElem? ho') hred
      exact ⟨e, he, ho'⟩
    · rintro ⟨e, he, hp⟩
      have hio := List.mem_of_getElem? hp
      exact ⟨hio, (hjoins _ _).mpr ⟨e, he, (h.joins_blue hio).mpr ⟨o, hp, rfl⟩⟩⟩
  refine ⟨⟨fun i i' o hi hi' => ?_, fun i o hi => ((hrow i o).mp hi).1⟩, fun row' hrow' => ?_⟩
  · obtain ⟨e, he, hp⟩ := (hedge i o).mp hi
    obtain ⟨e', he', hp'⟩ := (hedge i' o).mp hi'
    exact congrArg Prod.fst (h.eq_of_shared hM he he' hp hp' (.inr rfl))
  · calc matchSize row'
        ≤ (rowEdges pairs row').card := matchSize_le_card hrow'
      _ ≤ M.card := hmax _ (h.isMatching hrow'.matching (fun e he => mem_rowEdges.mp he))
      _ ≤ matchSize row := h.card_le_matchSize hM hedge

end Depicts

/-! ### A solver -/

/-- The other end point of an edge of `u`. -/
def otherEnd (g : ListGraph) (u e : ℕ) : Option ℕ :=
  match g.edges[e]? with
  | none => none
  | some (a, b) => if a = u then some b else if b = u then some a else none

theorem otherEnd_eq_some {g : ListGraph} {u e v : ℕ} :
    g.otherEnd u e = some v ↔ g.Joins e u v := by
  unfold otherEnd Joins
  cases g.edges[e]? with
  | none => simp
  | some p =>
    obtain ⟨a, b⟩ := p
    dsimp only
    split_ifs <;> grind

/-- The sets of edges without common end points, as lists of ids. -/
def matchings (g : ListGraph) : List (List ℕ) :=
  (List.range g.edges.length).sublists.filter (fun l => decide
    (∀ e ∈ l, ∀ e' ∈ l, ∀ p ∈ g.edges[e]?, ∀ q ∈ g.edges[e']?,
      p.1 = q.1 ∨ p.1 = q.2 ∨ p.2 = q.1 ∨ p.2 = q.2 → e = e'))

/-- The solver that looks at all sets of edges and takes one of the largest matchings. -/
def exhaustive (g : ListGraph) (_ : ℕ → Bool) (u : ℕ) : Option ℕ :=
  ((g.matchings.argmax List.length).getD []).findSome? (g.otherEnd u)

theorem isMatching_of_mem_matchings {g : ListGraph} {l : List ℕ} (h : l ∈ g.matchings) :
    g.IsMatching l.toFinset := by
  obtain ⟨hsub, hclash⟩ := List.mem_filter.mp h
  have hrange := (List.mem_sublists.mp hsub).subset
  refine ⟨fun e he => List.mem_range.mp (hrange (List.mem_toFinset.mp he)), ?_⟩
  intro e he e' he' u v v' hjoins hjoins'
  have hpair := of_decide_eq_true hclash e (List.mem_toFinset.mp he) e' (List.mem_toFinset.mp he')
  rcases hjoins with hj | hj <;> rcases hjoins' with hj' | hj' <;>
    exact hpair _ hj _ hj' (by simp)

/-- Every matching is looked at. -/
theorem exists_mem_matchings {g : ListGraph} {M : Finset ℕ} (h : g.IsMatching M) :
    ∃ l ∈ g.matchings, l.length = M.card := by
  have hset : ((List.range g.edges.length).filter (· ∈ M)).toFinset = M := by
    ext e
    simpa using fun he => h.edge e he
  refine ⟨(List.range g.edges.length).filter (· ∈ M), List.mem_filter.mpr ⟨?_, ?_⟩, ?_⟩
  · exact List.mem_sublists.mpr List.filter_sublist
  · refine decide_eq_true (fun e he e' he' p hp q hq hshared => ?_)
    have heM : e ∈ M := by simpa using (List.mem_filter.mp he).2
    have heM' : e' ∈ M := by simpa using (List.mem_filter.mp he').2
    -- Whichever end points are equal, both edges join that node to another.
    rcases hshared with heq | heq | heq | heq
    · exact h.disjoint e heM e' heM' p.1 p.2 q.2 (.inl hp) (.inl (by rw [heq]; exact hq))
    · exact h.disjoint e heM e' heM' p.1 p.2 q.1 (.inl hp) (.inr (by rw [heq]; exact hq))
    · exact h.disjoint e heM e' heM' p.2 p.1 q.2 (.inr hp) (.inl (by rw [heq]; exact hq))
    · exact h.disjoint e heM e' heM' p.2 p.1 q.1 (.inr hp) (.inr (by rw [heq]; exact hq))
  · rw [← List.toFinset_card_of_nodup (List.nodup_range.filter _), hset]

/-- The solver finds a matching of maximal size in every graph. -/
theorem exhaustive_isMaxMatching (g : ListGraph) (initial : ℕ → Bool) :
    g.IsMaxMatching (exhaustive g initial) := by
  obtain ⟨l₀, hl₀, -⟩ := exists_mem_matchings (g := g) (M := ∅) ⟨by simp, by simp⟩
  cases hbest : g.matchings.argmax List.length with
  | none => exact absurd (List.argmax_eq_none.mp hbest ▸ hl₀) List.not_mem_nil
  | some best =>
    have hmem : best ∈ g.matchings := List.argmax_mem hbest
    have hM := isMatching_of_mem_matchings hmem
    refine ⟨best.toFinset, hM, fun u v => ?_, fun M' hM' => ?_⟩
    · unfold exhaustive
      rw [hbest, Option.getD_some]
      constructor
      · intro hfind
        obtain ⟨e, he, hv⟩ := List.exists_of_findSome?_eq_some hfind
        exact ⟨e, List.mem_toFinset.mpr he, otherEnd_eq_some.mp hv⟩
      · rintro ⟨e, he, hjoins⟩
        have hsome : (best.findSome? (g.otherEnd u)).isSome := by
          rw [List.findSome?_isSome_iff]
          exact ⟨e, List.mem_toFinset.mp he, by rw [otherEnd_eq_some.mpr hjoins]; rfl⟩
        obtain ⟨v', hv'⟩ := Option.isSome_iff_exists.mp hsome
        obtain ⟨e', he', hjoins'⟩ := List.exists_of_findSome?_eq_some hv'
        -- Only one edge of the matching ends at `u`.
        have heq := hM.disjoint e he e' (List.mem_toFinset.mpr he') u v v' hjoins
          (otherEnd_eq_some.mp hjoins')
        rw [← heq, otherEnd_eq_some.mpr hjoins, Option.some.injEq] at hjoins'
        rw [hv', hjoins']
    · obtain ⟨l, hl, hcard⟩ := exists_mem_matchings hM'
      have hnodup : best.Nodup :=
        (List.mem_sublists.mp (List.mem_filter.mp hmem).1).nodup List.nodup_range
      rw [← hcard, List.toFinset_card_of_nodup hnodup]
      exact List.le_of_mem_argmax hl hbest

end ListGraph

end SschedSimulator
