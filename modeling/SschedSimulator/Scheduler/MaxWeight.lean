import Mathlib.Algebra.BigOperators.Fin
import Mathlib.Algebra.Order.BigOperators.Group.Finset
import SschedSimulator.Foundation.Arrangement
import SschedSimulator.Lemon.ListGraph
import SschedSimulator.Switch.Switching

namespace SschedSimulator

open Foundation

/-!
# `max_weight_scheduler.cc` — `MaxWeightScheduler`

The scheduler keeps a complete bipartite graph whose edge weights are the VOQ lengths, and lets a
solver find a matching of maximal weight in every slot.

* `construct` — the graph, and `Wired` — which ids its nodes and edges have;
* `Weighs` — the weights are the given lengths; arrivals, departures and `init` keep it so;
* `Mates` — what `update_in_match` and `update_out_match` read off the solver's matching;
* `Optimal` — the matched queues are together as long as those of any other matching;
* `optimal_of_run` — with a solver that finds matchings of maximal weight, the dispatched row
  maximises the sum of the VOQ lengths in every slot of every run.
-/

namespace MaxWeight

variable {n m : ℕ}

/-- A solver: the mates that `mwm.run()` finds in a graph with the given edge weights. -/
abbrev Solver := ListGraph → (ℕ → ℤ) → ℕ → Option ℕ

/-- The members of `MaxWeightScheduler`; nodes and edges are kept by their ids. -/
structure State (n m : ℕ) where
  g : ListGraph
  weight : ℕ → ℤ
  left : Fin n → ℕ
  right : Fin m → ℕ
  edges : Fin n → Fin m → ℕ
  inMatch : Fin n → Option (Fin m)
  outMatch : Fin m → Option (Fin n)

/-- One pass of the loop of `initialize`; the assignment to `_edges` overwrites what is there. -/
def initializeEdge (st : State n m) (p : Fin n × Fin m) : State n m :=
  let new := st.g.addEdge (st.left p.1) (st.right p.2)
  { st with
    g := new.2
    weight := Function.update st.weight new.1 0
    edges := update₂ st.edges p.1 p.2 new.1 }

/-- `initialize`. -/
def initializeGraph (st : State n m) : State n m := (portPairs n m).foldl initializeEdge st

/-- The constructor before it calls `initialize`: a node for each port. -/
def addPorts (n m : ℕ) : State n m :=
  let left := ListGraph.addNodes n ListGraph.empty
  let right := ListGraph.addNodes m left.2
  { g := right.2
    weight := fun _ => 0
    left := left.1
    right := right.1
    edges := fun _ _ => 0
    inMatch := fun _ => none
    outMatch := fun _ => none }

/-- The constructor. -/
def construct (n m : ℕ) : State n m := initializeGraph (addPorts n m)

/-- `init`. -/
def init (sw : IQSwitch n m) (st : State n m) : State n m :=
  { st with
    weight := (portPairs n m).foldl (fun weight p =>
      Function.update weight (st.edges p.1 p.2) (sw.getQueueLength p.1 p.2)) st.weight }

/-- `reset_weight`. -/
def resetWeight (edges : Fin n → Fin m → ℕ) (weight : ℕ → ℤ) : ℕ → ℤ :=
  (portPairs n m).foldl (fun weight p => Function.update weight (edges p.1 p.2) 0) weight

/-- `reset`. -/
def reset (st : State n m) : State n m := { st with weight := resetWeight st.edges st.weight }

/-- `handle_arrivals`. -/
def handleArrivals (edges : Fin n → Fin m → ℕ) (arrivals : List (Fin n × Fin m))
    (weight : ℕ → ℤ) : ℕ → ℤ :=
  arrivals.foldl (fun weight sd =>
    Function.update weight (edges sd.1 sd.2) (weight (edges sd.1 sd.2) + 1)) weight

/-- One input of `handle_departures`. -/
def departInput (edges : Fin n → Fin m → ℕ) (len : Fin n → Fin m → ℕ)
    (inMatch : Fin n → Option (Fin m)) (weight : ℕ → ℤ) (s : Fin n) : Except Fault (ℕ → ℤ) :=
  match inMatch s with
  | none => .ok weight
  | some d =>
    -- a matched queue may be empty
    if 0 < len s d then do
      require (weight (edges s d) = len s d) .staleWeight
      .ok (Function.update weight (edges s d) (weight (edges s d) - 1))
    else .ok weight

/-- `handle_departures`. -/
def handleDepartures (edges : Fin n → Fin m → ℕ) (len : Fin n → Fin m → ℕ)
    (inMatch : Fin n → Option (Fin m)) (weight : ℕ → ℤ) : Except Fault (ℕ → ℤ) :=
  (List.finRange n).foldlM (departInput edges len inMatch) weight

/-- The output that the node `v` stands for; past the last output the switch throws when it is
    asked for the queue length. -/
def outputOf (n m v : ℕ) : Except Fault (Fin m) := do
  require (n ≤ v) .wrongSide
  if h : v - n < m then .ok ⟨v - n, h⟩ else .error .indexOutOfRange

/-- The input that the node `v` stands for. -/
def inputOf (n v : ℕ) : Except Fault (Fin n) :=
  if h : v < n then .ok ⟨v, h⟩ else .error .wrongSide

/-- One port of `update_in_match` or `update_out_match`, where `node` gives the node of a port on
    this side and `port` the port of a node on the other side. -/
def updateCell {P Q : Type} [DecidableEq P] (mate : ℕ → Option ℕ) (node : P → ℕ)
    (port : ℕ → Except Fault Q) (row : P → Option Q) (p : P) : Except Fault (P → Option Q) :=
  match mate (node p) with
  | none => .ok (Function.update row p none)
  | some v => do
    let q ← port v
    .ok (Function.update row p (some q))

/-- `update_in_match`. -/
def updateInMatch (mate : ℕ → Option ℕ) (left : Fin n → ℕ) :
    Except Fault (Fin n → Option (Fin m)) :=
  (List.finRange n).foldlM (updateCell mate left (outputOf n m)) (fun _ => none)

/-- `update_out_match`. -/
def updateOutMatch (mate : ℕ → Option ℕ) (right : Fin m → ℕ) :
    Except Fault (Fin m → Option (Fin n)) :=
  (List.finRange m).foldlM (updateCell mate right (inputOf n)) (fun _ => none)

/-- `schedule`; the solver holds a reference to the weights, which it reads when it runs, after the
    arrivals. -/
def schedule (mwm : Solver) (outMatchEnabled : Bool) (sw : IQSwitch n m) (st : State n m) :
    Except Fault (State n m) := do
  let weight := handleArrivals st.edges sw.getArrivals st.weight
  let mate := mwm st.g weight
  let inMatch ← updateInMatch mate st.left
  let weight' ← handleDepartures st.edges sw.getQueueLength inMatch weight
  let outMatch ← if outMatchEnabled then updateOutMatch mate st.right else .ok st.outMatch
  .ok { st with weight := weight', inMatch := inMatch, outMatch := outMatch }

/-- The scheduler as a switch drives it; it makes no random choices. -/
abbrev model (n m : ℕ) (mwm : Solver) (outMatchEnabled : Bool) : SchedulerModel n m where
  State := State n m
  Input := Unit
  schedule := fun _ => schedule mwm outMatchEnabled
  inMatch := State.inMatch

/-! ### The graph -/

/-- The complete bipartite graph: the nodes of the inputs come before those of the outputs, and
    there is one edge for each pair of ports. -/
def portGraph (n m : ℕ) : ListGraph where
  nodeNum := n + m
  edges := (portPairs n m).map (fun p => ((p.1 : ℕ), n + (p.2 : ℕ)))

/-- The ids of the ports and of their edges. -/
structure Wired (st : State n m) : Prop where
  left : ∀ i, st.left i = i
  right : ∀ o, st.right o = n + o
  graph : st.g = portGraph n m
  edges : ∀ k p, (portPairs n m)[k]? = some p → st.edges p.1 p.2 = k

/-- The loop of `initialize` numbers the edges in order. -/
theorem initializeLoop (st : State n m) (ps : List (Fin n × Fin m)) (h : ps.Nodup) :
    (ps.foldl initializeEdge st).left = st.left ∧ (ps.foldl initializeEdge st).right = st.right ∧
      (ps.foldl initializeEdge st).g = { st.g with
        edges := st.g.edges ++ ps.map (fun p => (st.left p.1, st.right p.2)) } ∧
      (∀ k p, ps[k]? = some p →
        (ps.foldl initializeEdge st).edges p.1 p.2 = st.g.edges.length + k) ∧
      ((∀ e, st.weight e = 0) → ∀ e, (ps.foldl initializeEdge st).weight e = 0) := by
  -- Induction from the end: the last pair gets the next number.
  induction ps using List.reverseRecOn with
  | nil =>
    refine ⟨rfl, rfl, ?_, fun k p hk => ?_, fun h0 => h0⟩
    · simp
    · simp at hk
  | append_singleton ps p ih =>
    obtain ⟨hps, -, hp⟩ := List.nodup_append.mp h
    obtain ⟨hleft, hright, hgraph, hedges, hweight⟩ := ih hps
    have hlen : (ps.foldl initializeEdge st).g.edges.length = st.g.edges.length + ps.length := by
      rw [hgraph, List.length_append, List.length_map]
    rw [List.foldl_append, List.foldl_cons, List.foldl_nil]
    refine ⟨hleft, hright, ?_, fun k q hq => ?_, fun h0 e => ?_⟩
    · show ((ps.foldl initializeEdge st).g.addEdge _ _).2 = _
      rw [hgraph, hleft, hright, ListGraph.addEdge, List.map_append, ← List.append_assoc]
      rfl
    · show update₂ (ps.foldl initializeEdge st).edges p.1 p.2
        (ps.foldl initializeEdge st).g.edges.length q.1 q.2 = _
      rw [update₂_apply, hlen]
      rw [List.getElem?_append] at hq
      split at hq
      · -- An earlier pair is not overwritten.
        rename_i hk
        rw [if_neg]
        · exact hedges k q hq
        · rintro ⟨h1, h2⟩
          exact hp q (List.mem_of_getElem? hq) p (List.mem_singleton_self p) (Prod.ext h1 h2)
      · rename_i hk
        obtain ⟨hk0, rfl⟩ := List.getElem?_eq_some_iff.mp hq
        simp only [List.length_singleton] at hk0
        simp only [List.getElem_singleton, and_self, if_true]
        omega
    · show Function.update (ps.foldl initializeEdge st).weight _ 0 e = 0
      rw [Function.update_apply]
      split
      · rfl
      · exact hweight h0 e

/-- The nodes have the ids `0, …, n + m - 1`. -/
theorem addPorts_eq (n m : ℕ) :
    (∀ i, (addPorts n m).left i = i) ∧ (∀ o, (addPorts n m).right o = n + o) ∧
      (addPorts n m).g = ⟨n + m, []⟩ := by
  obtain ⟨hg, hleft⟩ := ListGraph.addNodes_eq n ListGraph.empty
  obtain ⟨hg', hright⟩ := ListGraph.addNodes_eq m (ListGraph.addNodes n ListGraph.empty).2
  refine ⟨fun i => (hleft i).trans (Nat.zero_add _), fun o => (hright o).trans ?_, ?_⟩
  · rw [hg]
    exact congrArg (· + (o : ℕ)) (Nat.zero_add n)
  · show (ListGraph.addNodes m (ListGraph.addNodes n ListGraph.empty).2).2 = _
    rw [hg', hg]
    exact congrArg (fun k => ListGraph.mk (k + m) []) (Nat.zero_add n)

/-- The constructor leaves the complete graph with all weights zero. -/
theorem construct_spec (n m : ℕ) :
    Wired (construct n m) ∧ ∀ e, (construct n m).weight e = 0 := by
  obtain ⟨hleft₀, hright₀, hg₀⟩ := addPorts_eq n m
  obtain ⟨hleft, hright, hgraph, hedges, hweight⟩ :=
    initializeLoop (addPorts n m) (portPairs n m) (nodup_portPairs n m)
  refine ⟨⟨fun i => (congrFun hleft i).trans (hleft₀ i),
    fun o => (congrFun hright o).trans (hright₀ o), hgraph.trans ?_,
    fun k p hk => (hedges k p hk).trans ?_⟩, hweight (fun _ => rfl)⟩
  · simp only [hg₀, hleft₀, hright₀, List.nil_append]
    rfl
  · rw [hg₀, List.length_nil, Nat.zero_add]

namespace Wired

variable {st : State n m}

/-- Every pair of ports stands at the position of its edge. -/
theorem pair_at (h : Wired st) (p : Fin n × Fin m) :
    (portPairs n m)[st.edges p.1 p.2]? = some p := by
  obtain ⟨k, hk⟩ := List.mem_iff_getElem?.mp (mem_portPairs p)
  rw [h.edges k p hk, hk]

theorem edges_injective (h : Wired st) {p q : Fin n × Fin m}
    (heq : st.edges p.1 p.2 = st.edges q.1 q.2) : p = q := by
  have hp := h.pair_at p
  rw [heq, h.pair_at q] at hp
  exact (Option.some.inj hp).symm

/-- Every edge is the edge of a pair. -/
theorem exists_pair (h : Wired st) {e : ℕ} (he : e < st.g.edges.length) :
    ∃ p : Fin n × Fin m, st.edges p.1 p.2 = e := by
  rw [h.graph, portGraph, List.length_map] at he
  exact ⟨(portPairs n m)[e], h.edges e _ (List.getElem?_eq_getElem he)⟩

theorem edge_lt (h : Wired st) (p : Fin n × Fin m) : st.edges p.1 p.2 < st.g.edges.length := by
  rw [h.graph, portGraph, List.length_map]
  exact (List.getElem?_eq_some_iff.mp (h.pair_at p)).1

/-- The edge of a pair joins the nodes of its two ports and no others. -/
theorem joins_iff (h : Wired st) (p : Fin n × Fin m) (u v : ℕ) :
    st.g.Joins (st.edges p.1 p.2) u v ↔
      (u = p.1 ∧ v = n + p.2) ∨ (v = p.1 ∧ u = n + p.2) := by
  unfold ListGraph.Joins
  rw [h.graph, portGraph, List.getElem?_map, h.pair_at p]
  simp only [Option.map_some, Option.some.injEq, Prod.mk.injEq]
  refine or_congr ?_ ?_
  · rw [eq_comm (a := u), eq_comm (a := v)]
  · rw [eq_comm (a := u), eq_comm (a := v)]

end Wired

/-! ### The weights -/

/-- Every edge weighs as much as the queue of its pair is long. -/
def Weighs (edges : Fin n → Fin m → ℕ) (weight : ℕ → ℤ) (len : Fin n → Fin m → ℕ) : Prop :=
  ∀ i o, weight (edges i o) = len i o

section

variable {edges : Fin n → Fin m → ℕ} {e : ℕ}

/-- An arrival changes the weights of edges only. -/
theorem handleArrivals_of_ne (h : ∀ i o, e ≠ edges i o) (arrivals : List (Fin n × Fin m))
    (weight : ℕ → ℤ) : handleArrivals edges arrivals weight e = weight e := by
  induction arrivals generalizing weight with
  | nil => rfl
  | cons sd rest ih => exact (ih _).trans (Function.update_of_ne (h sd.1 sd.2) _ _)

/-- So does a departure. -/
theorem handleDepartures_of_ne (h : ∀ i o, e ≠ edges i o) {len : Fin n → Fin m → ℕ}
    {inMatch : Fin n → Option (Fin m)} {weight weight' : ℕ → ℤ}
    (hrun : handleDepartures edges len inMatch weight = .ok weight') : weight' e = weight e := by
  have hloop : Post (handleDepartures edges len inMatch weight) (fun _ => True)
      (fun weight' => weight' e = weight e) := by
    refine Post.foldlM rfl (fun s _ w hw => ?_)
    unfold departInput
    cases inMatch s with
    | none => exact hw
    | some d =>
      dsimp only
      split
      · refine Post.require_bind (fun _ => trivial) (fun _ => ?_)
        exact (Function.update_of_ne (h s d) _ _).trans hw
      · exact hw
  exact hloop.of_ok hrun

end

section

variable {edges : Fin n → Fin m → ℕ}
  (hinj : ∀ p q : Fin n × Fin m, edges p.1 p.2 = edges q.1 q.2 → p = q)

include hinj

/-- An arrival adds one to the weight of its edge. -/
theorem handleArrivals_apply (arrivals : List (Fin n × Fin m)) (weight : ℕ → ℤ) (i : Fin n)
    (o : Fin m) : handleArrivals edges arrivals weight (edges i o)
      = weight (edges i o) + arrivals.count (i, o) := by
  induction arrivals generalizing weight with
  | nil => simp [handleArrivals]
  | cons sd rest ih =>
    have hfirst : Function.update weight (edges sd.1 sd.2) (weight (edges sd.1 sd.2) + 1)
        (edges i o) = weight (edges i o) + if sd = (i, o) then 1 else 0 := by
      rw [Function.update_apply]
      by_cases hsd : sd = (i, o)
      · subst hsd
        rw [if_pos rfl, if_pos rfl]
      · rw [if_neg (fun h => hsd (hinj (i, o) sd h).symm), if_neg hsd, add_zero]
    refine (ih _).trans ?_
    show Function.update weight (edges sd.1 sd.2) (weight (edges sd.1 sd.2) + 1) (edges i o) + _ = _
    rw [hfirst, List.count_cons, Nat.cast_add, add_assoc, add_comm (List.count (i, o) rest : ℤ)]
    simp only [beq_iff_eq, Nat.cast_ite, Nat.cast_one, Nat.cast_zero]

/-- The loop of `init`. -/
theorem initLoop (len : Fin n → Fin m → ℕ) (ps : List (Fin n × Fin m)) (weight : ℕ → ℤ)
    {p : Fin n × Fin m} (hp : p ∈ ps) :
    ps.foldl (fun weight p => Function.update weight (edges p.1 p.2) (len p.1 p.2 : ℤ)) weight
      (edges p.1 p.2) = len p.1 p.2 := by
  induction ps using List.reverseRecOn with
  | nil => exact absurd hp List.not_mem_nil
  | append_singleton ps q ih =>
    rw [List.foldl_append, List.foldl_cons, List.foldl_nil, Function.update_apply]
    split
    · rename_i heq
      rw [hinj p q heq]
    · rename_i hne
      rcases List.mem_append.mp hp with hp | hp
      · exact ih hp
      · rw [List.mem_singleton.mp hp] at hne
        exact absurd rfl hne

/-- The assertion holds, the weight of a matched pair that has a packet goes down by one, and the
    edges of the other inputs are left alone. -/
theorem departInput_post {weight : ℕ → ℤ} {len : Fin n → Fin m → ℕ}
    (inMatch : Fin n → Option (Fin m)) {s : Fin n} (h : ∀ d, weight (edges s d) = len s d) :
    Post (departInput edges len inMatch weight s) (fun _ => False) (fun weight' =>
      (∀ d, weight' (edges s d) = ((len s d - if inMatch s = some d then 1 else 0 : ℕ) : ℤ)) ∧
      ∀ s', s' ≠ s → ∀ d, weight' (edges s' d) = weight (edges s' d)) := by
  unfold departInput
  cases inMatch s with
  | none => exact ⟨fun d => by simp [h d], fun _ _ _ => rfl⟩
  | some d =>
    by_cases hpos : 0 < len s d
    · simp only [hpos, if_true, h d, require_pos, ok_bind]
      refine ⟨fun d' => ?_, fun s' hne d' => ?_⟩
      · rw [Function.update_apply, h d']
        by_cases hd : d' = d
        · subst hd
          rw [if_pos rfl, if_pos rfl]
          omega
        · -- different pairs have different edges
          rw [if_neg (fun he => hd (congrArg Prod.snd (hinj (s, d') (s, d) he))),
            if_neg (fun he => hd (Option.some.inj he).symm)]
          omega
      · exact Function.update_of_ne
          (fun he => hne (congrArg Prod.fst (hinj (s', d') (s, d) he))) _ _
    · simp only [hpos, if_false]
      refine ⟨fun d' => ?_, fun _ _ _ => rfl⟩
      rw [h d']
      by_cases hd : d = d'
      · subst hd
        rw [if_pos rfl]
        omega
      · rw [if_neg (fun he => hd (Option.some.inj he))]
        omega

/-- Every matched queue that has a packet loses one. -/
theorem handleDepartures_post {weight : ℕ → ℤ} {len : Fin n → Fin m → ℕ}
    (h : Weighs edges weight len) (inMatch : Fin n → Option (Fin m)) :
    Post (handleDepartures edges len inMatch weight) (fun _ => False) (fun weight' =>
      Weighs edges weight' (fun i o => len i o - if inMatch i = some o then 1 else 0)) := by
  -- Input `s` works on the edges of its own row.
  refine (Post.foldlM_parts (fun (weight : ℕ → ℤ) (s : Fin n) (d : Fin m) => weight (edges s d))
    (P := fun s row => ∀ d, row d = (len s d : ℤ))
    (Q := fun s row => ∀ d, row d = ((len s d - if inMatch s = some d then 1 else 0 : ℕ) : ℤ))
    (List.nodup_finRange n) (fun s _ => h s) ?_).imp
    (fun weight' h' i o => h'.1 i (List.mem_finRange i) o)
  intro s _ weight hrow
  exact (departInput_post hinj inMatch hrow).imp
    (fun weight' h' => ⟨h'.1, fun s' hne => funext (h'.2 s' hne)⟩)

end

/-! ### The matching -/

/-- The loops of `update_in_match` and `update_out_match`: the row relates the ports whose nodes are
    mates. -/
theorem updateCells_post {P Q : Type} [DecidableEq P] {mate : ℕ → Option ℕ} {node : P → ℕ}
    {port : ℕ → Except Fault Q} {l : List P} (hl : l.Nodup) (hall : ∀ p, p ∈ l) (id : Q → ℕ)
    {R : P → Q → Prop} (hport : ∀ q, port (id q) = .ok q)
    (hmate : ∀ p v, mate (node p) = some v ↔ ∃ q, v = id q ∧ R p q) :
    Post (l.foldlM (updateCell mate node port) (fun _ => none)) (fun _ => False)
      (fun row => ∀ p q, row p = some q ↔ R p q) := by
  refine (Post.foldlM_parts (fun (row : P → Option Q) p => row p) (P := fun _ _ => True)
    (Q := fun p cell => ∀ q, cell = some q ↔ R p q) hl (fun _ _ => trivial) ?_).imp
    (fun row h p => h.1 p (hall p))
  intro p _ row _
  unfold updateCell
  cases hp : mate (node p) with
  | none =>
    refine ⟨fun q => ?_, fun p' hne => Function.update_of_ne hne _ _⟩
    show Function.update row p none p = some q ↔ _
    rw [Function.update_self]
    refine iff_of_false (fun h => nomatch h) (fun hq => ?_)
    rw [(hmate p _).mpr ⟨q, rfl, hq⟩] at hp
    exact nomatch hp
  | some v =>
    obtain ⟨q, rfl, hq⟩ := (hmate p v).mp hp
    simp only [hport, ok_bind]
    refine ⟨fun q' => ?_, fun p' hne => Function.update_of_ne hne _ _⟩
    show Function.update row p (some q) p = some q' ↔ _
    rw [Function.update_self]
    constructor
    · intro h
      rwa [← Option.some.inj h]
    · intro hq'
      -- `port` undoes `id`, so the mate stands for one port only.
      have hv := (hmate p _).mpr ⟨q', rfl, hq'⟩
      rw [hp, Option.some.injEq] at hv
      have hqq := hport q
      rw [hv, hport, Except.ok.injEq] at hqq
      rw [hqq]

/-- The mates `mate` are those of the edges `M`, where input `i` is node `i` and output `o` is node
    `n + o`. -/
structure Mates (st : State n m) (M : Finset ℕ) (mate : ℕ → Option ℕ) : Prop where
  matching : st.g.IsMatching M
  joins : ∀ u v, mate u = some v ↔ ∃ e ∈ M, st.g.Joins e u v

namespace Mates

variable {st : State n m} {M : Finset ℕ} {mate : ℕ → Option ℕ}

/-- The mate of an input is an output. -/
theorem left_iff (h : Mates st M mate) (hw : Wired st) (i : Fin n) (v : ℕ) :
    mate (st.left i) = some v ↔ ∃ o : Fin m, v = n + o ∧ st.edges i o ∈ M := by
  rw [h.joins, hw.left]
  constructor
  · rintro ⟨e, he, hjoins⟩
    obtain ⟨⟨i', o⟩, rfl⟩ := hw.exists_pair (h.matching.edge e he)
    rcases (hw.joins_iff (i', o) _ _).mp hjoins with ⟨hi, hv⟩ | ⟨-, hi⟩
    · rw [Fin.ext hi]
      exact ⟨o, hv, he⟩
    · exact absurd hi (by have := i.isLt; omega)
  · rintro ⟨o, rfl, he⟩
    exact ⟨_, he, (hw.joins_iff (i, o) _ _).mpr (.inl ⟨rfl, rfl⟩)⟩

/-- The mate of an output is an input. -/
theorem right_iff (h : Mates st M mate) (hw : Wired st) (o : Fin m) (v : ℕ) :
    mate (st.right o) = some v ↔ ∃ i : Fin n, v = i ∧ st.edges i o ∈ M := by
  rw [h.joins, hw.right]
  constructor
  · rintro ⟨e, he, hjoins⟩
    obtain ⟨⟨i, o'⟩, rfl⟩ := hw.exists_pair (h.matching.edge e he)
    rcases (hw.joins_iff (i, o') _ _).mp hjoins with ⟨hi, -⟩ | ⟨hv, ho⟩
    · exact absurd hi (by have := i.isLt; simp only at hi ⊢; omega)
    · obtain rfl : o' = o := Fin.ext (by simp only at ho; omega)
      exact ⟨i, hv, he⟩
  · rintro ⟨i, rfl, he⟩
    exact ⟨_, he, (hw.joins_iff (i, o) _ _).mpr (.inr ⟨rfl, rfl⟩)⟩

/-- The assertion of `update_in_match` holds, and the row is read off the matched edges. -/
theorem updateInMatch_post (h : Mates st M mate) (hw : Wired st) :
    Post (updateInMatch mate st.left) (fun _ => False)
      (fun inMatch => ∀ i (o : Fin m), inMatch i = some o ↔ st.edges i o ∈ M) := by
  refine updateCells_post (List.nodup_finRange n) List.mem_finRange (fun o : Fin m => n + (o : ℕ))
    (fun o => ?_) (h.left_iff hw)
  have hlt : n + (o : ℕ) - n < m := by
    have := o.isLt
    omega
  rw [outputOf, require_pos (Nat.le_add_right n o), ok_bind, dif_pos hlt]
  exact congrArg Except.ok (Fin.ext (Nat.add_sub_cancel_left n o))

/-- The assertion of `update_out_match` holds. -/
theorem updateOutMatch_post (h : Mates st M mate) (hw : Wired st) :
    Post (updateOutMatch mate st.right) (fun _ => False)
      (fun outMatch => ∀ (o : Fin m) i, outMatch o = some i ↔ st.edges i o ∈ M) :=
  updateCells_post (List.nodup_finRange m) List.mem_finRange (fun i : Fin n => (i : ℕ))
    (fun i => dif_pos i.isLt) (h.right_iff hw)

/-- Edges that share an output are equal. -/
theorem isMatching (h : Mates st M mate) (hw : Wired st) {row : Fin n → Option (Fin m)}
    (hrow : ∀ i o, row i = some o ↔ st.edges i o ∈ M) : IsMatching row := by
  intro i i' o hi hi'
  have heq : st.edges i o = st.edges i' o :=
    h.matching.disjoint _ ((hrow i o).mp hi) _ ((hrow i' o).mp hi') (n + o) i i'
      ((hw.joins_iff (i, o) _ _).mpr (.inr ⟨rfl, rfl⟩))
      ((hw.joins_iff (i', o) _ _).mpr (.inr ⟨rfl, rfl⟩))
  exact congrArg Prod.fst (hw.edges_injective (p := (i, o)) (q := (i', o)) heq)

end Mates

/-! ### Maximality -/

/-- The sum of the lengths of the queues that a row matches. -/
def rowWeight (len : Fin n → Fin m → ℕ) (row : Fin n → Option (Fin m)) : ℕ :=
  ∑ i, (row i).elim 0 (len i)

/-- The edges of the pairs that a row matches. -/
def rowEdges (edges : Fin n → Fin m → ℕ) (row : Fin n → Option (Fin m)) : Finset ℕ :=
  (Finset.univ.filter (fun p : Fin n × Fin m => row p.1 = some p.2)).image
    (fun p => edges p.1 p.2)

theorem edge_mem_rowEdges {st : State n m} (hw : Wired st) {row : Fin n → Option (Fin m)}
    (i : Fin n) (o : Fin m) : st.edges i o ∈ rowEdges st.edges row ↔ row i = some o := by
  rw [rowEdges, Finset.mem_image]
  constructor
  · rintro ⟨p, hp, heq⟩
    obtain rfl := hw.edges_injective (q := (i, o)) heq
    exact (Finset.mem_filter.mp hp).2
  · intro h
    exact ⟨(i, o), Finset.mem_filter.mpr ⟨Finset.mem_univ _, h⟩, rfl⟩

/-- The edges of a matching of the ports are a matching of the graph. -/
theorem rowEdges_isMatching {st : State n m} (hw : Wired st) {row : Fin n → Option (Fin m)}
    (hrow : IsMatching row) : st.g.IsMatching (rowEdges st.edges row) := by
  constructor
  · intro e he
    obtain ⟨p, -, rfl⟩ := Finset.mem_image.mp he
    exact hw.edge_lt p
  · intro e he e' he' u v v' hjoins hjoins'
    obtain ⟨⟨i, o⟩, hp, rfl⟩ := Finset.mem_image.mp he
    obtain ⟨⟨i', o'⟩, hp', rfl⟩ := Finset.mem_image.mp he'
    have hi : row i = some o := (Finset.mem_filter.mp hp).2
    have hi' : row i' = some o' := (Finset.mem_filter.mp hp').2
    -- The common node is either an input, which has one output in the row, or an output.
    rcases (hw.joins_iff (i, o) u v).mp hjoins with ⟨hu, -⟩ | ⟨-, hu⟩ <;>
      rcases (hw.joins_iff (i', o') u v').mp hjoins' with ⟨hu', -⟩ | ⟨-, hu'⟩
    · obtain rfl : i = i' := Fin.ext (hu.symm.trans hu')
      rw [hi, Option.some.injEq] at hi'
      rw [hi']
    · have := i.isLt
      simp only at hu hu'
      omega
    · have := i'.isLt
      simp only at hu hu'
      omega
    · obtain rfl : o = o' := Fin.ext (by simp only at hu hu'; omega)
      rw [hrow hi hi']

/-- The weight of the edges of a row. -/
theorem sum_rowEdges {st : State n m} (hw : Wired st) {weight : ℕ → ℤ} {len : Fin n → Fin m → ℕ}
    (hweight : Weighs st.edges weight len) (row : Fin n → Option (Fin m)) :
    ∑ e ∈ rowEdges st.edges row, weight e = rowWeight len row := by
  have hcell : ∀ i, ∑ o, (if row i = some o then (len i o : ℤ) else 0)
      = ((row i).elim 0 (len i) : ℕ) := by
    intro i
    cases row i with
    | none => simp
    | some o => simp
  calc ∑ e ∈ rowEdges st.edges row, weight e
      = ∑ p ∈ Finset.univ.filter (fun p : Fin n × Fin m => row p.1 = some p.2),
          weight (st.edges p.1 p.2) :=
        Finset.sum_image (fun p _ q _ h => hw.edges_injective h)
    _ = ∑ p : Fin n × Fin m, if row p.1 = some p.2 then (len p.1 p.2 : ℤ) else 0 := by
        rw [Finset.sum_filter]
        exact Finset.sum_congr rfl (fun p _ => by rw [hweight])
    _ = ∑ i, ∑ o, if row i = some o then (len i o : ℤ) else 0 :=
        Fintype.sum_prod_type _
    _ = rowWeight len row := by
        rw [rowWeight, Nat.cast_sum]
        exact Finset.sum_congr rfl (fun i _ => hcell i)

/-- The edges that a row is read off are its edges. -/
theorem eq_rowEdges {st : State n m} (hw : Wired st) {M : Finset ℕ}
    (hM : ∀ e ∈ M, e < st.g.edges.length) {row : Fin n → Option (Fin m)}
    (hrow : ∀ i o, row i = some o ↔ st.edges i o ∈ M) : M = rowEdges st.edges row := by
  ext e
  constructor
  · intro he
    obtain ⟨⟨i, o⟩, rfl⟩ := hw.exists_pair (hM e he)
    exact (edge_mem_rowEdges hw i o).mpr ((hrow i o).mpr he)
  · intro he
    obtain ⟨⟨i, o⟩, hp, rfl⟩ := Finset.mem_image.mp he
    exact (hrow i o).mp (Finset.mem_filter.mp hp).2

/-- What `schedule` dispatches: a matching whose queues are together as long as those of any other
    matching. -/
structure Optimal (len : Fin n → Fin m → ℕ) (row : Fin n → Option (Fin m)) : Prop where
  matching : IsMatching row
  maximal : ∀ row', IsMatching row' → rowWeight len row' ≤ rowWeight len row

/-- `schedule` returns when the solver finds a matching of maximal weight. -/
theorem schedule_eq_ok (mwm : Solver) (outMatchEnabled : Bool) {sw : IQSwitch n m} {st : State n m}
    (hw : Wired st)
    (hweight : Weighs st.edges (handleArrivals st.edges sw.getArrivals st.weight)
      sw.getQueueLength)
    (hmwm : st.g.IsMaxWeighted (handleArrivals st.edges sw.getArrivals st.weight)
      (mwm st.g (handleArrivals st.edges sw.getArrivals st.weight))) :
    ∃ st', schedule mwm outMatchEnabled sw st = .ok st' ∧ Wired st' ∧
      Optimal sw.getQueueLength st'.inMatch ∧
      (outMatchEnabled = true → MutuallyInverse st'.inMatch st'.outMatch) ∧
      Weighs st'.edges st'.weight
        (fun i o => sw.getQueueLength i o - if st'.inMatch i = some o then 1 else 0) := by
  obtain ⟨M, hmatching, hjoins, hmax⟩ := hmwm
  have hmates : Mates st M _ := ⟨hmatching, hjoins⟩
  obtain ⟨inMatch, hin, hinMatch⟩ := (hmates.updateInMatch_post hw).exists_ok (fun _ _ he => he)
  obtain ⟨weight', hdep, hweight'⟩ :=
    (handleDepartures_post (fun p q h => hw.edges_injective h) hweight inMatch).exists_ok
      (fun _ _ he => he)
  obtain ⟨column, hout, hcolumn⟩ :=
    (hmates.updateOutMatch_post hw).exists_ok (fun _ _ he => he)
  -- Every matching of VOQs is one of edges, of the same weight.
  have hoptimal : Optimal sw.getQueueLength inMatch := by
    refine ⟨hmates.isMatching hw hinMatch, fun row' hrow' => ?_⟩
    have hle := hmax _ (rowEdges_isMatching hw hrow')
    rw [eq_rowEdges hw hmatching.edge hinMatch, sum_rowEdges hw hweight,
      sum_rowEdges hw hweight] at hle
    exact_mod_cast hle
  have hinverse : MutuallyInverse inMatch column := fun i o =>
    (hinMatch i o).trans (hcolumn o i).symm
  unfold schedule
  simp only [hin, ok_bind, hdep]
  cases outMatchEnabled with
  | false =>
    exact ⟨_, rfl, ⟨hw.left, hw.right, hw.graph, hw.edges⟩, hoptimal, nofun, hweight'⟩
  | true =>
    simp only [if_true, hout, ok_bind]
    exact ⟨_, rfl, ⟨hw.left, hw.right, hw.graph, hw.edges⟩, hoptimal, fun _ => hinverse, hweight'⟩

/-! ### Runs of a switch -/

/-- A switch that starts empty, or whose queues were given to the scheduler by `init`. -/
inductive Start (mwm : Solver) (outMatchEnabled : Bool) :
    System (model n m mwm outMatchEnabled) → Prop where
  | empty {sw : IQSwitch n m} : sw.Empty → Start mwm outMatchEnabled ⟨sw, construct n m⟩
  | afterInit (sw : IQSwitch n m) : Start mwm outMatchEnabled ⟨sw, init sw (construct n m)⟩

/-- The solver finds a matching of maximal weight in the graph of the ports, whatever the
    weights, as long as they are not negative. -/
def Solves (n m : ℕ) (mwm : Solver) : Prop :=
  ∀ weight : ℕ → ℤ, (∀ e < (portGraph n m).edges.length, 0 ≤ weight e) →
    (portGraph n m).IsMaxWeighted weight (mwm (portGraph n m) weight)

/-- The edges are those of the pairs of ports and weigh as much as the queues of the switch are
    long. -/
structure Synchronised {mwm : Solver} {outMatchEnabled : Bool}
    (sys : System (model n m mwm outMatchEnabled)) : Prop where
  wired : Wired sys.scheduler
  weighs : Weighs sys.scheduler.edges sys.scheduler.weight sys.switch.getQueueLength

section

variable {mwm : Solver} {outMatchEnabled : Bool} {sys : System (model n m mwm outMatchEnabled)}

theorem Start.synchronised (h : Start mwm outMatchEnabled sys) : Synchronised sys := by
  obtain ⟨hw, hzero⟩ := construct_spec n m
  cases h with
  | empty hsw =>
    refine ⟨hw, fun i o => ?_⟩
    show (construct n m).weight _ = (_ : ℤ)
    rw [hzero, hsw i o]
    rfl
  | afterInit sw =>
    exact ⟨⟨hw.left, hw.right, hw.graph, hw.edges⟩, fun i o =>
      initLoop (fun p q h => hw.edges_injective h) sw.getQueueLength (portPairs n m) _
        (mem_portPairs (i, o))⟩

/-- The weights at the call of the solver are the lengths of the queues with the arrivals of the
    slot. -/
theorem Synchronised.weighs_at_run (h : Synchronised sys)
    (channels : Fin n → List (Packet n m)) :
    Weighs sys.scheduler.edges
      (handleArrivals sys.scheduler.edges (sys.switch.readInputs channels).getArrivals
        sys.scheduler.weight)
      (sys.switch.readInputs channels).getQueueLength := by
  intro i o
  rw [handleArrivals_apply (fun p q h' => h.wired.edges_injective h'), h.weighs i o,
    IQSwitch.readInputs_queueLength, IQSwitch.readInputs_arrivals, Nat.cast_add]

/-- One slot. -/
theorem Synchronised.switching_eq_ok (h : Synchronised sys) (hmwm : Solves n m mwm)
    (channels : Fin n → List (Packet n m)) :
    ∃ next, switching (model n m mwm outMatchEnabled) () channels sys = .ok next ∧
      Synchronised next ∧
      Optimal (sys.switch.readInputs channels).getQueueLength next.scheduler.inMatch ∧
      (outMatchEnabled = true →
        MutuallyInverse next.scheduler.inMatch next.scheduler.outMatch) := by
  have hweight := h.weighs_at_run channels
  -- Edges weigh as much as their queues are long, so no weight is negative.
  have hnonneg : ∀ e < (portGraph n m).edges.length,
      0 ≤ handleArrivals sys.scheduler.edges (sys.switch.readInputs channels).getArrivals
        sys.scheduler.weight e := by
    intro e he
    rw [← h.wired.graph] at he
    obtain ⟨p, rfl⟩ := h.wired.exists_pair he
    rw [hweight]
    exact Int.natCast_nonneg _
  obtain ⟨st, hrun, hwired, hoptimal, hinverse, hweight'⟩ :=
    schedule_eq_ok mwm outMatchEnabled h.wired hweight
      (by rw [h.wired.graph]; exact hmwm _ hnonneg)
  obtain ⟨next, hok, hsched, hlen⟩ := SschedSimulator.switching_eq_ok
    (S := model n m mwm outMatchEnabled) () hrun hoptimal.matching
  refine ⟨next, hok, ⟨?_, fun i o => ?_⟩, ?_, ?_⟩
  · rw [hsched]
    exact hwired
  · rw [hsched, hweight' i o, hlen]
  · rw [hsched]
    exact hoptimal
  · rw [hsched]
    exact hinverse

theorem Synchronised.run (h : Synchronised sys) (hmwm : Solves n m mwm)
    {sys' : System (model n m mwm outMatchEnabled)}
    (hrun : Run (model n m mwm outMatchEnabled) sys sys') : Synchronised sys' := by
  refine hrun.preserved h (fun _ channels mid hmid _ => ?_)
  obtain ⟨next, hok, hnext, -⟩ := hmid.switching_eq_ok hmwm channels
  exact ⟨next, hok, hnext⟩

end

/-- In every run of a switch from empty, or after `init`, the weights are the lengths of the queues
    when the solver is called and again after the slot, no assertion fails, and the dispatched row
    is a matching whose queues are together as long as those of any matching. -/
theorem optimal_of_run {mwm : Solver} {outMatchEnabled : Bool} (hmwm : Solves n m mwm)
    {sys sys' : System (model n m mwm outMatchEnabled)} (hstart : Start mwm outMatchEnabled sys)
    (hrun : Run (model n m mwm outMatchEnabled) sys sys')
    (channels : Fin n → List (Packet n m)) :
    (∀ s d, sys'.scheduler.weight (sys'.scheduler.edges s d) = sys'.switch.getQueueLength s d) ∧
    (∀ s d, handleArrivals sys'.scheduler.edges (sys'.switch.readInputs channels).getArrivals
        sys'.scheduler.weight (sys'.scheduler.edges s d)
      = (sys'.switch.readInputs channels).getQueueLength s d) ∧
    ∃ next, switching (model n m mwm outMatchEnabled) () channels sys' = .ok next ∧
      (∀ s d, next.scheduler.weight (next.scheduler.edges s d)
        = next.switch.getQueueLength s d) ∧
      IsMatching next.scheduler.inMatch ∧
      (outMatchEnabled = true →
        MutuallyInverse next.scheduler.inMatch next.scheduler.outMatch) ∧
      ∀ row, IsMatching row →
        rowWeight (sys'.switch.readInputs channels).getQueueLength row
          ≤ rowWeight (sys'.switch.readInputs channels).getQueueLength next.scheduler.inMatch := by
  have hsync := hstart.synchronised.run hmwm hrun
  obtain ⟨next, hok, hnext, hoptimal, hinverse⟩ := hsync.switching_eq_ok hmwm channels
  exact ⟨hsync.weighs, hsync.weighs_at_run channels, next, hok, hnext.weighs, hoptimal.matching,
    hinverse, hoptimal.maximal⟩

/-- A solver for two inputs and two outputs: the better of the two perfect matchings. -/
def betterPair (_ : ListGraph) (weight : ℕ → ℤ) (u : ℕ) : Option ℕ :=
  if weight 1 + weight 2 ≤ weight 0 + weight 3 then [2, 3, 0, 1][u]? else [3, 2, 1, 0][u]?

theorem joins_two_two (e u v : ℕ) : (portGraph 2 2).Joins e u v ↔
    (e, u, v) ∈ [(0, 0, 2), (0, 2, 0), (1, 0, 3), (1, 3, 0),
      (2, 1, 2), (2, 2, 1), (3, 1, 3), (3, 3, 1)] := by
  have hedges : (portGraph 2 2).edges = [(0, 2), (0, 3), (1, 2), (1, 3)] := rfl
  rw [ListGraph.Joins, hedges]
  rcases e with _ | _ | _ | _ | e <;> simp <;> omega

theorem getElem?_four (a b c d u v : ℕ) :
    [a, b, c, d][u]? = some v ↔ (u, v) ∈ [(0, a), (1, b), (2, c), (3, d)] := by
  rcases u with _ | _ | _ | _ | u <;> simp [eq_comm]

/-- The edges 0 and 3 have an end point in common with each of the edges 1 and 2. -/
theorem subset_of_isMatching {M : Finset ℕ} (hM : (portGraph 2 2).IsMatching M) :
    M ⊆ {0, 3} ∨ M ⊆ {1, 2} := by
  have hlt : ∀ e ∈ M, e < 4 := hM.edge
  have hclash : ∀ e ∈ M, ∀ e' ∈ M, ∀ u v v', (portGraph 2 2).Joins e u v →
      (portGraph 2 2).Joins e' u v' → e = e' := hM.disjoint
  have h01 : 0 ∈ M → 1 ∉ M := fun h h' =>
    nomatch hclash 0 h 1 h' 0 2 3 (by simp [joins_two_two]) (by simp [joins_two_two])
  have h02 : 0 ∈ M → 2 ∉ M := fun h h' =>
    nomatch hclash 0 h 2 h' 2 0 1 (by simp [joins_two_two]) (by simp [joins_two_two])
  have h31 : 3 ∈ M → 1 ∉ M := fun h h' =>
    nomatch hclash 3 h 1 h' 3 1 0 (by simp [joins_two_two]) (by simp [joins_two_two])
  have h32 : 3 ∈ M → 2 ∉ M := fun h h' =>
    nomatch hclash 3 h 2 h' 1 3 2 (by simp [joins_two_two]) (by simp [joins_two_two])
  by_cases h : 0 ∈ M ∨ 3 ∈ M
  · refine .inl (fun e he => ?_)
    rw [Finset.mem_insert, Finset.mem_singleton]
    grind
  · refine .inr (fun e he => ?_)
    rw [Finset.mem_insert, Finset.mem_singleton]
    grind

theorem betterPair_solves : Solves 2 2 betterPair := by
  intro weight hnonneg
  -- A matching of the square lies in one of its two perfect matchings.
  have hle : ∀ M, (portGraph 2 2).IsMatching M → ∑ e ∈ M, weight e ≤ weight 0 + weight 3 ∨
      ∑ e ∈ M, weight e ≤ weight 1 + weight 2 := by
    intro M hM
    rcases subset_of_isMatching hM with hsub | hsub
    · refine .inl ((Finset.sum_le_sum_of_subset_of_nonneg hsub (fun e he _ => ?_)).trans_eq
        (Finset.sum_pair (by decide)))
      exact hnonneg e ((by decide : ∀ e ∈ ({0, 3} : Finset ℕ), e < 4) e he)
    · refine .inr ((Finset.sum_le_sum_of_subset_of_nonneg hsub (fun e he _ => ?_)).trans_eq
        (Finset.sum_pair (by decide)))
      exact hnonneg e ((by decide : ∀ e ∈ ({1, 2} : Finset ℕ), e < 4) e he)
  have hmate : betterPair (portGraph 2 2) weight = fun u =>
      if weight 1 + weight 2 ≤ weight 0 + weight 3 then [2, 3, 0, 1][u]? else [3, 2, 1, 0][u]? :=
    rfl
  rw [hmate]
  split
  · rename_i hbetter
    refine ⟨{0, 3}, ⟨fun e he => ?_, fun e he e' he' u v v' h h' => ?_⟩, fun u v => ?_,
      fun M hM => ?_⟩
    · revert e
      decide
    · simp [joins_two_two] at he he' h h'
      omega
    · rw [getElem?_four]
      simp [joins_two_two]
      omega
    · rw [Finset.sum_pair (by decide)]
      rcases hle M hM with h | h <;> omega
  · rename_i hbetter
    refine ⟨{1, 2}, ⟨fun e he => ?_, fun e he e' he' u v v' h h' => ?_⟩, fun u v => ?_,
      fun M hM => ?_⟩
    · revert e
      decide
    · simp [joins_two_two] at he he' h h'
      omega
    · rw [getElem?_four]
      simp [joins_two_two]
      omega
    · rw [Finset.sum_pair (by decide)]
      rcases hle M hM with h | h <;> omega

/-- Three packets from each input to output 0, of which one is served, then one from each to
    output 1. -/
theorem optimal_after_slot :
    ∃ sys : System (model 2 2 betterPair true),
      sys.scheduler.weight 0 = 2 ∧
      ∃ next, switching (model 2 2 betterPair true) () (packetsFor 1 (fun _ => 1)) sys = .ok next ∧
        ∀ row, IsMatching row →
          rowWeight (sys.switch.readInputs (packetsFor 1 (fun _ => 1))).getQueueLength row
            ≤ rowWeight (sys.switch.readInputs (packetsFor 1 (fun _ => 1))).getQueueLength
              next.scheduler.inMatch := by
  obtain ⟨sys, hrun, hsys⟩ := exists_of_returns
    (x := switching (model 2 2 betterPair true) () (packetsFor 0 (fun _ => 3))
      ⟨IQSwitch.empty 2 2, construct 2 2⟩)
    (p := fun sys => decide (sys.scheduler.weight 0 = 2)) (by decide)
  obtain ⟨-, -, next, hok, -, -, -, hmax⟩ := optimal_of_run betterPair_solves
    (.empty (IQSwitch.empty_empty 2 2)) (.step _ _ .refl hrun) (packetsFor 1 (fun _ => 1))
  exact ⟨sys, of_decide_eq_true hsys, next, hok, hmax⟩

end MaxWeight

end SschedSimulator
