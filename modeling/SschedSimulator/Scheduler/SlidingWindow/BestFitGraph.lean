import SschedSimulator.Lemon.MaxMatching
import SschedSimulator.Scheduler.SlidingWindow.BestFit
import SschedSimulator.Scheduler.SlidingWindow.FirstFit

namespace SschedSimulator

open Foundation

/-!
# `SW_QPS_Best_Fit` — the graph of an output

The graph that is handed to the solver has a red node for each frame at which the output is free, a
blue node for each proposal and an edge for each proposal and frame that is free for both ports.

* `openPairs` — these proposals and frames, without a graph;
* `Painted` — what the maps of the graph say when some of the pairs have their edge;
* `buildGraph_paints` — the graph that `buildGraph` returns;
* `Painted.depicts`, `Painted.marked_isMatching`, `Painted.largest` — what the solver is given, and
  what the mates of the blue nodes mean.
-/

namespace SwQpsBestFit

variable {n m B : ℕ}

/-- The proposals with the frames that are free for both ports. -/
def openPairs (B : ℕ) (tables : Booking n m) (out : Fin m) (ins : List (Fin n)) :
    List (Fin n × ℕ) := (ins ×ˢ List.range B).filter (fun p => tables.bothFree p.1 out p.2)

@[simp] theorem mem_openPairs {tables : Booking n m} {out : Fin m} {ins : List (Fin n)}
    {i : Fin n} {f : ℕ} : (i, f) ∈ openPairs B tables out ins ↔
      (i ∈ ins ∧ f < B) ∧ tables.bothFree i out f = true := by
  simp [openPairs]

theorem nodup_openPairs (tables : Booking n m) (out : Fin m) {ins : List (Fin n)}
    (h : ins.Nodup) : (openPairs B tables out ins).Nodup :=
  (h.product List.nodup_range).filter _

/-! ### The nodes -/

/-- The red nodes know their frames; the frames of `rest` are still to come. -/
def Named (B : ℕ) (outFlags : Bitset bitmapWidth) (rest : List ℕ) (ag : AvailGraph n) : Prop :=
  ∀ f < B, f ∉ rest → outFlags.test f = false → ag.nodeMap (ag.redNodes f) = f

/-- One frame. -/
theorem Named.step {outFlags : Bitset bitmapWidth} {f : ℕ} {rest : List ℕ} {ag : AvailGraph n}
    (h : Named B outFlags (f :: rest) ag) (hred : Reddening B outFlags (f :: rest) ag)
    (hB : B ≤ bitmapWidth) :
    Post (addRedNode outFlags ag f) (fun _ => False) (Named B outFlags rest) := by
  have hf : f < B := hred.below f (by simp)
  unfold addRedNode testBit
  rw [require_pos (by omega : f < bitmapWidth), ok_bind, ok_bind]
  split
  · rename_i hused
    intro g hg hrest hfree
    refine h g hg (fun hmem => ?_) hfree
    rcases List.mem_cons.mp hmem with rfl | hmem
    · exact absurd (hused.symm.trans hfree) (by simp)
    · exact hrest hmem
  · intro g hg hrest hfree
    show Function.update ag.nodeMap ag.g.nodeNum f
      (Function.update ag.redNodes f ag.g.nodeNum g) = g
    by_cases hgf : g = f
    · rw [hgf, Function.update_self, Function.update_self]
    · have hcons : g ∉ f :: rest := by simp [hgf, hrest]
      -- The node of `g` is an older one.
      have hold := hred.red g hg hcons hfree
      rw [Function.update_of_ne hgf, Function.update_of_ne (by omega)]
      exact h g hg hcons hfree

/-- The blue nodes have the next ids. -/
theorem foldl_addBlueNode (ins : List (Fin n)) (ag : AvailGraph n) :
    (ins.foldl addBlueNode ag).blueNodes
        = ag.blueNodes ++ (ins.zipIdx ag.g.nodeNum).map Prod.swap ∧
      (ins.foldl addBlueNode ag).g.nodeNum = ag.g.nodeNum + ins.length ∧
      (ins.foldl addBlueNode ag).g.edges = ag.g.edges ∧
      (ins.foldl addBlueNode ag).redNodes = ag.redNodes ∧
      ∀ v < ag.g.nodeNum, (ins.foldl addBlueNode ag).nodeMap v = ag.nodeMap v := by
  induction ins generalizing ag with
  | nil => exact ⟨(List.append_nil _).symm, rfl, rfl, rfl, fun _ _ => rfl⟩
  | cons i rest ih =>
    obtain ⟨hblue, hnum, hedges, hred, hmap⟩ := ih (addBlueNode ag i)
    rw [List.foldl_cons]
    refine ⟨?_, ?_, hedges, hred, fun v hv => ?_⟩
    · rw [hblue]
      simp [addBlueNode, ListGraph.addNode]
    · show _ = ag.g.nodeNum + (rest.length + 1)
      have hnew : (addBlueNode ag i).g.nodeNum = ag.g.nodeNum + 1 := rfl
      omega
    · rw [hmap v (Nat.lt_succ_of_lt hv)]
      exact Function.update_of_ne (Nat.ne_of_lt hv) _ _

/-- The node of an input comes at its position among the proposals. -/
theorem map_swap_zipIdx {ins : List (Fin n)} (h : ins.Nodup) (k : ℕ) :
    (ins.zipIdx k).map Prod.swap = ins.map (fun i => (k + ins.idxOf i, i)) := by
  refine List.ext_getElem (by simp) (fun j hj hj' => ?_)
  simp [h.idxOf_getElem]

/-! ### The edges -/

/-- The graph when the pairs `done` have their edge: `k` red nodes, then the blue nodes in the order
    of the proposals. -/
structure Painted (B : ℕ) (tables : Booking n m) (out : Fin m) (ins : List (Fin n))
    (initialMatch : Fin n → Option ℕ) (k : ℕ) (done : List (Fin n × ℕ)) (ag : AvailGraph n) :
    Prop where
  red : ∀ f < B, tables.outFlag out f = false →
    ag.redNodes f < k ∧ ag.nodeMap (ag.redNodes f) = f
  nodeNum : ag.g.nodeNum = k + ins.length
  blueNodes : ag.blueNodes = ins.map (fun i => (k + ins.idxOf i, i))
  edges : ag.g.edges = done.map (fun p => (ag.redNodes p.2, k + ins.idxOf p.1))
  marks : ∀ e p, done[e]? = some p →
    ag.initialMatchingMap e = decide (initialMatch p.1 = some p.2)

section

variable {tables : Booking n m} {out : Fin m} {ins : List (Fin n)}
  {initialMatch : Fin n → Option ℕ} {k : ℕ}

/-- One pair. -/
theorem Painted.step (hB : B ≤ bitmapWidth) {done : List (Fin n × ℕ)} {ag : AvailGraph n}
    (h : Painted B tables out ins initialMatch k done ag) (i : Fin n) {f : ℕ} (hf : f < B) :
    Post (addEdge (tables.inputMatchBitmap i) (tables.outputMatchBitmap out) (initialMatch i)
        (k + ins.idxOf i) ag f) (fun _ => False)
      (Painted B tables out ins initialMatch k
        (done ++ [(i, f)].filter (fun p => tables.bothFree p.1 out p.2))) := by
  have hwidth : f < bitmapWidth := by omega
  unfold addEdge testBit
  simp only [require_pos hwidth, ok_bind]
  split
  · rename_i hin
    rw [List.filter_cons_of_neg (by simp [Booking.bothFree, Reservations.inFlag, hin]),
      List.filter_nil, List.append_nil]
    exact h
  · rename_i hin
    split
    · rename_i hout
      rw [List.filter_cons_of_neg (by simp [Booking.bothFree, Reservations.outFlag, hout]),
        List.filter_nil, List.append_nil]
      exact h
    · rename_i hout
      rw [List.filter_cons_of_pos (by
        simp [Booking.bothFree, Reservations.inFlag, Reservations.outFlag, hin, hout]),
        List.filter_nil]
      refine ⟨h.red, h.nodeNum, h.blueNodes, ?_, fun e p hp => ?_⟩
      · show ag.g.edges ++ [(ag.redNodes f, k + ins.idxOf i)] = _
        rw [h.edges, List.map_append]
        rfl
      · -- The edge has the next id.
        have hlength : ag.g.edges.length = done.length := by rw [h.edges, List.length_map]
        show Function.update ag.initialMatchingMap ag.g.edges.length
          (decide (initialMatch i = some f)) e = _
        rw [hlength]
        by_cases he : e = done.length
        · subst he
          rw [List.getElem?_append_right (le_refl _), Nat.sub_self] at hp
          cases hp
          exact Function.update_self ..
        · have hlt : e < done.length := by
            have := (List.getElem?_eq_some_iff.mp hp).1
            rw [List.length_append, List.length_singleton] at this
            omega
          rw [List.getElem?_append_left hlt] at hp
          rw [Function.update_of_ne he]
          exact h.marks e p hp

/-- Some of the pairs. -/
theorem Painted.foldlM (hB : B ≤ bitmapWidth) {done : List (Fin n × ℕ)} {ag : AvailGraph n}
    (h : Painted B tables out ins initialMatch k done ag) (pairs : List (Fin n × ℕ))
    (hpairs : ∀ p ∈ pairs, p.2 < B) :
    Post (pairs.foldlM (fun ag p => addEdge (tables.inputMatchBitmap p.1)
        (tables.outputMatchBitmap out) (initialMatch p.1) (k + ins.idxOf p.1) ag p.2) ag)
      (fun _ => False) (Painted B tables out ins initialMatch k
        (done ++ pairs.filter (fun p => tables.bothFree p.1 out p.2))) := by
  induction pairs generalizing done ag with
  | nil =>
    rw [List.filter_nil, List.append_nil]
    exact h
  | cons p rest ih =>
    rw [List.foldlM_cons]
    refine (h.step hB p.1 (hpairs p (by simp))).bind (fun ag' h' => ?_)
    refine (ih h' (fun q hq => hpairs q (by simp [hq]))).imp (fun ag'' h'' => ?_)
    rw [List.append_assoc, ← List.filter_append] at h''
    exact h''

/-- The graph has an edge for each open pair. -/
theorem buildGraph_paints (hB : B ≤ bitmapWidth) (tables : Booking n m) (out : Fin m)
    (hins : ins.Nodup) (initialMatch : Fin n → Option ℕ) :
    Post (buildGraph B tables out ins initialMatch) (fun _ => False)
      (fun ag => ∃ k, Painted B tables out ins initialMatch k (openPairs B tables out ins) ag) := by
  have hstart : Reddening B (tables.outputMatchBitmap out) (List.range B)
      (.empty : AvailGraph n) :=
    ⟨fun f hf => List.mem_range.mp hf, fun f hf hrest => absurd (List.mem_range.mpr hf) hrest,
      fun v hv => absurd hv (Nat.not_lt_zero v), rfl, rfl⟩
  have hnamed : Named B (tables.outputMatchBitmap out) (List.range B) (.empty : AvailGraph n) :=
    fun f hf hrest => absurd (List.mem_range.mpr hf) hrest
  unfold buildGraph
  refine (Post.foldlM_rest (fun rest ag => Reddening B (tables.outputMatchBitmap out) rest ag ∧
    Named B (tables.outputMatchBitmap out) rest ag) _ _ ⟨hstart, hnamed⟩
    (fun f rest ag h => ?_)).bind ?_
  · exact (h.1.step hB).both (h.2.step h.1 hB)
  rintro red ⟨hred, hname⟩
  obtain ⟨hblue, hnum, hedges, hnodes, hmap⟩ := foldl_addBlueNode ins red
  rw [hred.noBlue, List.nil_append, map_swap_zipIdx hins] at hblue
  dsimp only
  generalize ins.foldl addBlueNode red = blue at hblue hnum hedges hnodes hmap ⊢
  -- All nodes are there; the edges are added now.
  have hpainted : Painted B tables out ins initialMatch red.g.nodeNum [] blue := by
    refine ⟨fun f hf hfree => ?_, hnum, hblue, hedges.trans hred.noEdge, fun e p hp => nomatch hp⟩
    have hlt := hred.red f hf List.not_mem_nil hfree
    rw [hnodes, hmap _ hlt]
    exact ⟨hlt, hname f hf List.not_mem_nil hfree⟩
  have hloop := hpainted.foldlM hB (ins ×ˢ List.range B)
    (fun p hp => List.mem_range.mp (List.mem_product.mp hp).2)
  rw [foldlM_product, List.nil_append] at hloop
  rw [hblue, List.foldlM_map]
  exact hloop.imp (fun ag h => ⟨_, h⟩)

/-! ### What the solver is given -/

/-- The documented behaviour of the solver: started from a matching of a graph, it finds a matching
    with as many edges as possible. -/
def Solves (maxMatching : Solver) : Prop :=
  ∀ (g : ListGraph) initial, g.Plain → g.IsMatching (g.marked initial) →
    g.IsMaxMatching (maxMatching g initial)

variable {ag : AvailGraph n}

/-- The frame of an open pair has a red node. -/
theorem Painted.red_of_mem {done : List (Fin n × ℕ)}
    (h : Painted B tables out ins initialMatch k done ag) {i : Fin n} {f : ℕ}
    (hp : (i, f) ∈ openPairs B tables out ins) :
    ag.redNodes f < k ∧ ag.nodeMap (ag.redNodes f) = f := by
  obtain ⟨⟨-, hf⟩, hfree⟩ := mem_openPairs.mp hp
  exact h.red f hf (Booking.bothFree_iff.mp hfree).2

/-- Red and blue nodes differ, and the nodes of a colour have different meanings. -/
theorem Painted.depicts (hins : ins.Nodup)
    (h : Painted B tables out ins initialMatch k (openPairs B tables out ins) ag) :
    ag.g.Depicts (openPairs B tables out ins) (fun i => k + ins.idxOf i) ag.redNodes := by
  refine ⟨h.edges, nodup_openPairs tables out hins, fun p hp q hq heq => ?_,
    fun p hp q hq heq => ?_, fun p hp q hq heq => ?_⟩
  · have hi := (mem_openPairs.mp hp).1.1
    exact (List.idxOf_inj hi).mp (Nat.add_left_cancel heq)
  · rw [← (h.red_of_mem hp).2, heq, (h.red_of_mem hq).2]
  · have := (h.red_of_mem hp).1
    omega

theorem Painted.plain (hins : ins.Nodup)
    (h : Painted B tables out ins initialMatch k (openPairs B tables out ins) ag) :
    ag.g.Plain := by
  intro e he
  rw [h.edges, List.mem_map] at he
  obtain ⟨⟨i, f⟩, hp, rfl⟩ := he
  have hred := (h.red_of_mem hp).1
  have hpos := List.idxOf_lt_length_of_mem (mem_openPairs.mp hp).1.1
  have hnum := h.nodeNum
  refine ⟨?_, ?_, (h.depicts hins).apart _ hp _ hp⟩
  · show ag.redNodes f < _
    omega
  · show k + ins.idxOf i < _
    omega

/-- The initial matching of the ports is one of the graph. -/
theorem Painted.marked_isMatching (hins : ins.Nodup)
    (h : Painted B tables out ins initialMatch k (openPairs B tables out ins) ag)
    (hinit : MatchingOf (openPairs B tables out ins) initialMatch) :
    ag.g.IsMatching (ag.g.marked ag.initialMatchingMap) := by
  refine (h.depicts hins).isMatching hinit.matching (fun e he => ?_)
  obtain ⟨hlt, hmark⟩ := Finset.mem_filter.mp he
  rw [Finset.mem_range, (h.depicts hins).length_edges] at hlt
  have hget := List.getElem?_eq_getElem hlt
  rw [h.marks e _ hget] at hmark
  exact ⟨_, hget, of_decide_eq_true hmark⟩

/-- The frame that the mate of an input's node stands for. -/
def mateFrame (mate : ℕ → Option ℕ) (nodeMap : ℕ → ℕ) (k : ℕ) (ins : List (Fin n)) (i : Fin n) :
    Option ℕ := if ins.contains i then (mate (k + ins.idxOf i)).map nodeMap else none

/-- The frames of the mates are a largest partial matching of the proposals with free frames. -/
theorem Painted.largest (hins : ins.Nodup)
    (h : Painted B tables out ins initialMatch k (openPairs B tables out ins) ag)
    {mate : ℕ → Option ℕ} (hmate : ag.g.IsMaxMatching mate) :
    Largest (openPairs B tables out ins) (mateFrame mate ag.nodeMap k ins) := by
  have hdepicts := h.depicts hins
  refine hdepicts.largest hmate (fun i f => ?_)
  unfold mateFrame
  constructor
  · intro hrow
    by_cases hi : i ∈ ins
    · rw [if_pos (List.contains_iff_mem.mpr hi), Option.map_eq_some_iff] at hrow
      obtain ⟨v, hv, hf⟩ := hrow
      obtain ⟨M, -, hjoins, -⟩ := hmate
      obtain ⟨e, -, hj⟩ := (hjoins _ _).mp hv
      obtain ⟨⟨i', f'⟩, hp, ⟨hi', hred⟩ | ⟨hcross, -⟩⟩ := (hdepicts.joins_iff _ _ _).mp hj
      · have hmem := List.mem_of_getElem? hp
        obtain rfl : i = i' := (List.idxOf_inj hi).mp (Nat.add_left_cancel hi')
        rw [hred, (h.red_of_mem hmem).2] at hf
        subst hf
        exact ⟨hmem, by rw [hv, hred]⟩
      · -- A blue node is not a red one.
        have := (h.red_of_mem (List.mem_of_getElem? hp)).1
        simp only at hcross
        omega
    · rw [if_neg (fun hmem => hi (List.contains_iff_mem.mp hmem))] at hrow
      exact nomatch hrow
  · rintro ⟨hp, hv⟩
    rw [if_pos (List.contains_iff_mem.mpr (mem_openPairs.mp hp).1.1), hv, Option.map_some,
      (h.red_of_mem hp).2]

end

end SwQpsBestFit

end SschedSimulator
