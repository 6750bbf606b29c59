import SschedSimulator.Scheduler.Reset
import SschedSimulator.Scheduler.Sized.Trees

namespace SschedSimulator

open Foundation

/-!
# Schedulers that match slot by slot, and edge colouring

These schedulers have no table of frames of a fixed size.  Where they use the number of an output as
an index into a vector that has an element for each input, and where their vectors grow and shrink,
the models check the index.

* `schedule_inBounds` — no such check fails; for `maximum_weight` and edge colouring if there are as
  many outputs as inputs at most, and between slots that keep what the constructor set up.
-/

variable {n m : ℕ}

/-- No element outside a vector is used. -/
abbrev InBounds {α : Type} (x : Except Fault α) : Prop := Avoids Fault.indexOutOfRange x

/-- An assertion about something else. -/
theorem inBounds_require {p : Prop} [Decidable p] {e : Fault} (h : e ≠ .indexOutOfRange) :
    InBounds (require p e) :=
  avoids_require (fun he => absurd he h)

/-- The trees of the VOQs. -/
theorem inBounds_updateLeaf (bst : Fin n → Bst) (i : Fin n) (o : Fin m) (delta : ℤ) :
    InBounds (updateLeaf bst i o delta) :=
  (updateLeaf_faults bst i o delta).avoids (by decide)

/-! ### iSLIP -/

theorem Islip.schedule_inBounds (iterations : ℕ) (sw : IQSwitch n m) (st : Islip.State n m) :
    InBounds (Islip.schedule iterations sw st) := by
  refine (Avoids.foldlM (fun it _ st₁ => Avoids.foldlM (fun i _ st₂ => ?_))).bind
    (fun _ => avoids_ok)
  unfold Islip.acceptInput
  split
  · exact avoids_ok
  · split
    · exact avoids_ok
    · exact (inBounds_require (by decide)).bind (fun _ => avoids_ok)

/-- With pointers that fit, every index of a scan is a port. -/
theorem Islip.Ints.schedule_inBounds (iterations : ℕ) (sw : IQSwitch n m) {st : Islip.State n m ℤ}
    (h : Fits st) : InBounds (Islip.Ints.schedule iterations sw st) := by
  have hnormal := Islip.schedule_inBounds iterations sw (normal st)
  rcases (schedule_lockstep h iterations sw).cases with ⟨a, b, ha, -, -⟩ | ⟨e, he, he'⟩
  · rw [ha]
    exact avoids_ok
  · rw [he'] at hnormal
    rwa [he]

/-! ### QPS -/

namespace Qps

/-- An iteration of QPS. -/
theorem iterate_inBounds (cfg : Config) (len : Fin n → Fin m → ℕ) (draws : TreeDraws n m)
    (w : Working n m) : InBounds (iterate cfg len draws w) := by
  refine Avoids.bind (Avoids.foldlM (fun i _ acc => ?_)) (fun acc => ?_)
  · unfold proposeInput
    split
    · exact avoids_ok
    · split
      · exact avoids_error.mpr (by decide)
      · split <;> exact avoids_ok
  · dsimp only
    split
    · refine Avoids.foldlM (fun i _ w' => ?_)
      unfold rejectInput
      split
      · split
        · exact avoids_ok
        · refine Avoids.bind ?_ (fun removed => ?_)
          · exact Avoids.bind ((removeLeaf_faults _ _).avoids (by decide)) (fun _ => avoids_ok)
          · exact (inBounds_require (by decide)).bind (fun _ => avoids_ok)
      · exact avoids_ok
    · exact avoids_ok

/-- A call of QPS. -/
theorem schedule_inBounds (cfg : Config) (draws : ℕ → TreeDraws n m) (sw : IQSwitch n m)
    (st : State n m) : InBounds (schedule cfg draws sw st) := by
  refine Avoids.bind (Avoids.foldlM (fun _ _ _ => inBounds_updateLeaf _ _ _ _)) (fun bst => ?_)
  refine Avoids.bind (Avoids.foldlM (fun it _ w => iterate_inBounds cfg _ _ w)) (fun w => ?_)
  refine Avoids.bind (Avoids.foldlM (fun _ _ _ => ?_)) (fun bst' => ?_)
  · exact (inBounds_require (by decide)).bind (fun _ => inBounds_updateLeaf _ _ _ _)
  · refine Avoids.bind (Avoids.foldlM (fun s _ b => ?_)) (fun _ => avoids_ok)
    split
    · exact avoids_ok
    · split
      · exact inBounds_updateLeaf _ _ _ _
      · exact avoids_ok

end Qps

/-! ### Maximum weight -/

namespace MaxWeight.Square

/-- The solver only matches ports that an edge joins. -/
def Joined (n : ℕ) (mwm : Solver) : Prop :=
  ∀ weight u v, mwm (portGraph n n) weight u = some v → ∃ e, (portGraph n n).Joins e u v

/-- The node of an input is joined to nodes of outputs only. -/
theorem exists_output_of_joins {e i v : ℕ} (hi : i < n) (h : (portGraph n n).Joins e i v) :
    n ≤ v ∧ v - n < n := by
  have hnode : ∀ u w, (portGraph n n).edges[e]? = some (u, w) → u < n ∧ n ≤ w ∧ w - n < n := by
    intro u w huw
    rw [portGraph, List.getElem?_map, Option.map_eq_some_iff] at huw
    obtain ⟨p, -, hp⟩ := huw
    obtain ⟨rfl, rfl⟩ := Prod.mk.inj hp
    have hinput := p.1.isLt
    have houtput := p.2.isLt
    omega
  rcases h with h | h
  · exact (hnode i v h).2
  · have := (hnode v i h).2.1
    omega

/-- The mate of an input is a node of an output. -/
theorem updateInMatch_inBounds {mwm : Solver} (hjoined : Joined n mwm) (weight : ℕ → ℤ) :
    InBounds (updateInMatch (m := n) (mwm (portGraph n n) weight) (fun i : Fin n => (i : ℕ))) := by
  refine Avoids.foldlM (fun i _ row => ?_)
  unfold updateCell
  cases hmate : mwm (portGraph n n) weight (i : ℕ) with
  | none => exact avoids_ok
  | some v =>
    obtain ⟨e, he⟩ := hjoined _ _ _ hmate
    obtain ⟨hle, hlt⟩ := exists_output_of_joins i.isLt he
    refine Avoids.bind ?_ (fun _ => avoids_ok)
    dsimp only [outputOf]
    rw [require_pos hle, ok_bind, dif_pos hlt]
    exact avoids_ok

/-- The number of a mate is checked by an assertion, not by an index. -/
theorem updateOutMatch_inBounds (mate : ℕ → Option ℕ) (right : Fin n → ℕ) :
    InBounds (updateOutMatch (n := n) mate right) := by
  refine Avoids.foldlM (fun o _ row => ?_)
  unfold updateCell
  split
  · exact avoids_ok
  · refine Avoids.bind ?_ (fun _ => avoids_ok)
    unfold inputOf
    split
    · exact avoids_ok
    · exact avoids_error.mpr (by decide)

/-- A row of `_edges` has an element for each output, if there are as many inputs. -/
theorem schedule_inBounds {mwm : Solver} (hjoined : Joined n mwm) (hmn : m ≤ n)
    (outMatchEnabled : Bool) (sw : IQSwitch n m) {st : State n n} (h : Fresh outMatchEnabled st) :
    InBounds (schedule mwm outMatchEnabled sw st) := by
  obtain ⟨hwired, -⟩ := construct_spec n n
  have hleft : st.left = fun i : Fin n => (i : ℕ) := h.left.trans (funext hwired.left)
  refine Avoids.bind (Avoids.foldlM (fun sd _ weight => ?_)) (fun weight => ?_)
  · rw [dif_pos (lt_of_lt_of_le sd.2.isLt hmn)]
    exact avoids_ok
  · rw [h.g, hwired.graph, hleft]
    refine (updateInMatch_inBounds hjoined weight).bind (fun inMatch => ?_)
    refine Avoids.bind (Avoids.foldlM (fun s _ w => ?_)) (fun weight' => ?_)
    · unfold departInput
      split
      · exact avoids_ok
      · refine Avoids.bind ?_ (fun len => ?_)
        · unfold getQueueLength
          split
          · exact avoids_ok
          · exact avoids_error.mpr (by decide)
        · split
          · exact (inBounds_require (by decide)).bind (fun _ => avoids_ok)
          · exact avoids_ok
    · dsimp only
      split
      · exact (updateOutMatch_inBounds _ _).bind (fun _ => avoids_ok)
      · exact avoids_ok

end MaxWeight.Square

/-! ### Edge colouring -/

namespace EdgeColoring

/-- Each `emplace_back` adds one row. -/
theorem Schedules.size_emplaceBack_iterate (k : ℕ) (s : Schedules n m) :
    (Schedules.emplaceBack^[k] s).size = s.size + k := by
  induction k generalizing s with
  | zero => rfl
  | succ k ih =>
    rw [Function.iterate_succ_apply, ih]
    show s.size + 1 + k = s.size + (k + 1)
    omega

/-- Marking writes within the frame that was chosen. -/
theorem mark_inBounds (i : Fin n) (j : Fin m) (c : ℕ) (col : Coloring n m) :
    Post (col.mark i j c) (· ≠ .indexOutOfRange) (fun col' =>
      col'.frameSizeNext = col.frameSizeNext ∧ col'.schedules = col.schedules) :=
  Post.require_bind (fun _ => by decide) (fun _ => ⟨rfl, rfl⟩)

/-- A row is added for each colour that a greedy search reaches. -/
theorem greedyStep_inBounds (i : Fin n) (j : Fin m) {col : Coloring n m}
    (h : col.frameSizeNext ≤ col.schedules.size) (gc : ℕ) :
    Post (col.greedyStep i j gc) (· ≠ .indexOutOfRange)
      (fun col' => col'.frameSizeNext ≤ col'.schedules.size) := by
  unfold Coloring.greedyStep
  split
  · refine (mark_inBounds i j gc col).bind (fun col' h' => ?_)
    have hsize : (col'.grow gc).schedules.size
        = col'.schedules.size + (gc + 1 - col'.frameSizeNext) :=
      Schedules.size_emplaceBack_iterate _ _
    have hle : col'.frameSizeNext ≤ col'.schedules.size := by rw [h'.1, h'.2]; exact h
    have hgc : gc < (col'.grow gc).schedules.size := by omega
    unfold Coloring.write Schedules.write
    rw [require_pos hgc, ok_bind, ok_bind]
    show max col'.frameSizeNext (gc + 1) ≤ (col'.grow gc).schedules.size
    omega
  · exact h

/-- The greedy choice stays within the frames there are. -/
theorem greedy_inBounds (i : Fin n) (j : Fin m) {col : Coloring n m}
    (h : col.frameSizeNext ≤ col.schedules.size) : InBounds (col.greedy i j) := by
  refine Post.bind (P := fun _ => True) ?_ (fun col' _ => ?_)
  · exact (Post.foldlM (I := fun s => s.frameSizeNext ≤ s.schedules.size) h
      (fun gc _ s hs => greedyStep_inBounds i j hs gc)).imp (fun _ _ => trivial)
  · exact (inBounds_require (by decide)).bind (fun _ => avoids_ok)

/-- A colour that is drawn is a position in the list of the free ones, which is no longer than the
    frame. -/
theorem colorEdge_inBounds (draws : Draws) {B : ℕ} {col : Coloring n m} (h : Confined B col)
    {e : Fin n × Fin m} (he : (e.2 : ℕ) < n) : InBounds (colorEdge draws B col e) := by
  unfold colorEdge
  rw [require_pos he, ok_bind]
  refine Post.bind (P := fun freeColors => freeColors.length ≤ B) ?_ (fun freeColors hlen => ?_)
  · refine Post.require_bind (fun _ => by decide) (fun _ => ?_)
    exact (List.length_filter_le _ _).trans_eq List.length_range
  · split
    · exact greedy_inBounds e.1 e.2 (by rw [h.frameSizeNext, h.size])
    · rename_i hne
      dsimp only
      have hc := draws.color_lt col.drawn _ (List.length_pos_iff.mpr hne)
      refine (mark_inBounds e.1 e.2 _ _).bind (fun col' h' => ?_)
      have hsize : col'.schedules.size = B := by rw [h'.2]; exact h.size
      unfold Coloring.write Schedules.write
      rw [require_pos (by omega), ok_bind, ok_bind]
      exact avoids_ok

/-- `free_colors_out` has an element for each output, if there are as many inputs. -/
theorem schedule_inBounds (hmn : m ≤ n) (draws : Draws) (sw : IQSwitch n m) {st : State n m}
    (h : Cleared st) : InBounds (schedule draws sw st) := by
  refine (h.dispatchPre.mono (fun _ he => by rw [he]; decide) (fun _ h₀ => h₀)).bind
    (fun st₀ h₀ => ?_)
  dsimp only
  split
  · exact avoids_ok
  · refine Post.bind (P := Confined st₀.batchSize) ?_ (fun col hcol => ?_)
    · refine Post.foldlM h₀.confined (fun e _ col hcol => ?_)
      exact (colorEdge_inBounds draws hcol (lt_of_lt_of_le e.2.isLt hmn)).and
        (colorEdge_confined draws hcol _ e)
    · refine (inBounds_require (by decide)).bind (fun _ => ?_)
      rw [require_pos (by rw [hcol.frameSizeNext, hcol.size]), ok_bind]
      exact avoids_ok

end EdgeColoring

end SschedSimulator
