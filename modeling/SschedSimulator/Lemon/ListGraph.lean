import Mathlib.Algebra.BigOperators.Group.Finset.Basic
import Mathlib.Data.Fin.Tuple.Basic

namespace SschedSimulator

/-!
# `lemon/list_graph.h`, `lemon/matching.h` — graphs and their matchings

A `lemon::ListGraph` from which nothing is erased gives out the ids of its nodes and edges in order
of creation.  `MaxWeightedMatching` is known by its documentation only: it finds a set of edges
without common end points whose total weight is maximal (`IsMaxWeighted`).
-/

/-- The nodes are `0, …, nodeNum - 1`; the edges are listed by their ids, each with its end
    points. -/
structure ListGraph where
  nodeNum : ℕ
  edges : List (ℕ × ℕ)

namespace ListGraph

/-- The graph without nodes. -/
def empty : ListGraph := ⟨0, []⟩

/-- `addNode`: the new node and the graph with it. -/
def addNode (g : ListGraph) : ℕ × ListGraph := (g.nodeNum, { g with nodeNum := g.nodeNum + 1 })

/-- `addEdge`: the new edge and the graph with it. -/
def addEdge (g : ListGraph) (u v : ℕ) : ℕ × ListGraph :=
  (g.edges.length, { g with edges := g.edges ++ [(u, v)] })

/-- A loop that adds `k` nodes and pushes each to the back of a vector. -/
def addNodes : (k : ℕ) → ListGraph → (Fin k → ℕ) × ListGraph
  | 0, g => (Fin.elim0, g)
  | k + 1, g =>
    let acc := addNodes k g
    let new := acc.2.addNode
    (Fin.snoc acc.1 new.1, new.2)

theorem addNodes_eq (k : ℕ) (g : ListGraph) :
    (addNodes k g).2 = { g with nodeNum := g.nodeNum + k } ∧
      ∀ i : Fin k, (addNodes k g).1 i = g.nodeNum + i := by
  induction k with
  | zero => exact ⟨rfl, fun i => i.elim0⟩
  | succ k ih =>
    obtain ⟨hgraph, hnodes⟩ := ih
    constructor
    · show ((addNodes k g).2.addNode).2 = _
      rw [hgraph]
      rfl
    · intro i
      show (Fin.snoc (addNodes k g).1 ((addNodes k g).2.addNode).1 : Fin (k + 1) → ℕ) i = _
      refine Fin.lastCases ?_ (fun i => ?_) i
      · rw [Fin.snoc_last, hgraph]
        rfl
      · rw [Fin.snoc_castSucc, hnodes]
        rfl

/-! ### Matchings -/

/-- Edge `e` joins `u` and `v`. -/
def Joins (g : ListGraph) (e u v : ℕ) : Prop :=
  g.edges[e]? = some (u, v) ∨ g.edges[e]? = some (v, u)

/-- Edges of the graph without common end points. -/
structure IsMatching (g : ListGraph) (M : Finset ℕ) : Prop where
  edge : ∀ e ∈ M, e < g.edges.length
  disjoint : ∀ e ∈ M, ∀ e' ∈ M, ∀ u v v', g.Joins e u v → g.Joins e' u v' → e = e'

/-- `mate` says who is matched to whom in a matching of maximal weight. -/
def IsMaxWeighted (g : ListGraph) (weight : ℕ → ℤ) (mate : ℕ → Option ℕ) : Prop :=
  ∃ M, g.IsMatching M ∧ (∀ u v, mate u = some v ↔ ∃ e ∈ M, g.Joins e u v) ∧
    ∀ M', g.IsMatching M' → ∑ e ∈ M', weight e ≤ ∑ e ∈ M, weight e

end ListGraph

end SschedSimulator
