import SschedSimulator.Matching.SbQpsFixed
import SschedSimulator.Scheduler.MaxWeight

namespace SschedSimulator

open Foundation MaxWeight

/-!
# `mwm.hpp` — `MaximumWeightMatching`

The function builds the complete bipartite graph of a square matrix, lets the solver of
`max_weight_scheduler.cc` run on it and reads the matching off the mates of the left nodes.

* `SameGraph` — adding an edge with its weight is adding the edge and setting its weight;
* `maximumWeightMatching_eq_ok` — no matching of the matrix outweighs the one that is returned.
-/

namespace Matching.MaximumWeightMatching

variable {n : ℕ}

/-- One pass of the loop that adds the edges.  The variables of the function are those of
    `MaxWeightScheduler`. -/
def addWeighted (weights : Weights n) (st : MaxWeight.State n n) (p : Fin n × Fin n) :
    MaxWeight.State n n :=
  let new := st.g.addEdge (st.left p.1) (st.right p.2)
  { st with
    g := new.2
    weight := Function.update st.weight new.1 (weights p.1 p.2)
    edges := update₂ st.edges p.1 p.2 new.1 }

/-- The graph and its weights. -/
def construct (weights : Weights n) : MaxWeight.State n n :=
  (portPairs n n).foldl (addWeighted weights) (addPorts n n)

/-- `maximum_weight_matching`.  A mate that is no node of the graph would be an index outside the
    matrix later. -/
def maximumWeightMatching (mwm : Solver) (weights : Weights n) : Except Fault (MatchingRow n) :=
  let st := construct weights
  updateInMatch (mwm st.g st.weight) st.left

/-! ### The graph -/

/-- The same nodes and edges, whatever the weights. -/
structure SameGraph (st st' : MaxWeight.State n n) : Prop where
  left : st.left = st'.left
  right : st.right = st'.right
  graph : st.g = st'.g
  edges : st.edges = st'.edges

theorem SameGraph.foldl (weights : Weights n) {st st' : MaxWeight.State n n} (h : SameGraph st st')
    (ps : List (Fin n × Fin n)) :
    SameGraph (ps.foldl (addWeighted weights) st) (ps.foldl initializeEdge st') := by
  induction ps generalizing st st' with
  | nil => exact h
  | cons p ps ih =>
    refine ih ⟨h.left, h.right, ?_, ?_⟩
    · show (st.g.addEdge _ _).2 = (st'.g.addEdge _ _).2
      rw [h.graph, h.left, h.right]
    · show update₂ st.edges _ _ _ = update₂ st'.edges _ _ _
      rw [h.graph, h.left, h.right, h.edges]

/-- The ports and their edges have the ids that they have in `max_weight_scheduler.cc`. -/
theorem construct_wired (weights : Weights n) : Wired (construct weights) := by
  have hsame : SameGraph (construct weights) (MaxWeight.construct n n) :=
    SameGraph.foldl weights ⟨rfl, rfl, rfl, rfl⟩ (portPairs n n)
  have hwired := (construct_spec n n).1
  exact ⟨by rw [hsame.left]; exact hwired.left, by rw [hsame.right]; exact hwired.right,
    hsame.graph.trans hwired.graph, by rw [hsame.edges]; exact hwired.edges⟩

/-- The loop gives every edge the weight of its pair. -/
theorem foldl_weight (weights : Weights n) (st : MaxWeight.State n n) (ps : List (Fin n × Fin n)) :
    (ps.foldl (addWeighted weights) st).g.edges.length = st.g.edges.length + ps.length ∧
      ∀ k p, ps[k]? = some p →
        (ps.foldl (addWeighted weights) st).weight (st.g.edges.length + k) = weights p.1 p.2 := by
  -- Induction from the end: the last edge has the next number, and no other weight changes.
  induction ps using List.reverseRecOn with
  | nil => exact ⟨rfl, fun k p hk => by simp at hk⟩
  | append_singleton ps q ih =>
    obtain ⟨hlen, hweight⟩ := ih
    rw [List.foldl_append, List.foldl_cons, List.foldl_nil]
    refine ⟨?_, fun k p hk => ?_⟩
    · show ((ps.foldl (addWeighted weights) st).g.edges ++ [_]).length = _
      rw [List.length_append, hlen, List.length_append, List.length_singleton,
        List.length_singleton, Nat.add_assoc]
    · show Function.update (ps.foldl (addWeighted weights) st).weight
        (ps.foldl (addWeighted weights) st).g.edges.length (weights q.1 q.2) _ = _
      rw [hlen, Function.update_apply]
      rcases Nat.lt_or_ge k ps.length with hlt | hge
      · rw [List.getElem?_append_left hlt] at hk
        rw [if_neg (by omega), hweight k p hk]
      · rw [List.getElem?_append_right hge] at hk
        obtain ⟨hk', hget⟩ := List.getElem?_eq_some_iff.mp hk
        rw [List.length_singleton] at hk'
        rw [if_pos (by omega), ← hget, List.getElem_singleton]

theorem construct_weight (weights : Weights n) (i o : Fin n) :
    (construct weights).weight ((construct weights).edges i o) = weights i o := by
  obtain ⟨k, hk⟩ := List.mem_iff_getElem?.mp (mem_portPairs (i, o))
  rw [(construct_wired weights).edges k (i, o) hk]
  have hloop := (foldl_weight weights (addPorts n n) (portPairs n n)).2 k (i, o) hk
  rwa [(addPorts_eq n n).2.2, List.length_nil, Nat.zero_add] at hloop

/-! ### The matching -/

/-- The weight of a row, for weights that are numbers of packets. -/
theorem exactWeight_eq {weights : Weights n} (hweights : ∀ i o, 0 ≤ weights i o)
    (row : MatchingRow n) :
    SbQpsFixed.exactWeight row weights
      = rowWeight (fun i o => (weights i o).toNat) row := by
  rw [SbQpsFixed.exactWeight, rowWeight, Nat.cast_sum]
  refine Finset.sum_congr rfl (fun i _ => ?_)
  cases row i with
  | none => rfl
  | some o => exact (Int.toNat_of_nonneg (hweights i o)).symm

/-- For weights that are not negative: the function returns a matching, and no matching weighs
    more. -/
theorem maximumWeightMatching_eq_ok {mwm : Solver} (hmwm : Solves n n mwm) {weights : Weights n}
    (hweights : ∀ i o, 0 ≤ weights i o) :
    ∃ row, maximumWeightMatching mwm weights = .ok row ∧ IsMatching row ∧
      ∀ row', IsMatching row' →
        SbQpsFixed.exactWeight row' weights ≤ SbQpsFixed.exactWeight row weights := by
  have hw := construct_wired weights
  have hweighs : Weighs (construct weights).edges (construct weights).weight
      (fun i o => (weights i o).toNat) := by
    intro i o
    rw [construct_weight]
    exact (Int.toNat_of_nonneg (hweights i o)).symm
  have hnonneg : ∀ e < (portGraph n n).edges.length, 0 ≤ (construct weights).weight e := by
    intro e he
    rw [← hw.graph] at he
    obtain ⟨p, rfl⟩ := hw.exists_pair he
    rw [construct_weight]
    exact hweights p.1 p.2
  obtain ⟨M, hmatching, hjoins, hmax⟩ := hmwm (construct weights).weight hnonneg
  rw [← hw.graph] at hmatching hjoins hmax
  have hmates : Mates (construct weights) M _ := ⟨hmatching, hjoins⟩
  obtain ⟨row, hrun, hrow⟩ := (hmates.updateInMatch_post hw).exists_ok (fun _ _ he => he)
  refine ⟨row, hrun, hmates.isMatching hw hrow, fun row' hrow' => ?_⟩
  have hle := hmax _ (rowEdges_isMatching hw hrow')
  rw [eq_rowEdges hw hmatching.edge hrow, sum_rowEdges hw hweighs, sum_rowEdges hw hweighs] at hle
  rwa [exactWeight_eq hweights, exactWeight_eq hweights]

end Matching.MaximumWeightMatching

end SschedSimulator
