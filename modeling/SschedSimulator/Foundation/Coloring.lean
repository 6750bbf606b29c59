import Mathlib.Data.List.Nodup
import Mathlib.Data.List.Pairwise
import SschedSimulator.Foundation.Table

namespace SschedSimulator.Foundation

/-!
# Colourings of the edges of a bipartite multigraph

The edges of a bipartite multigraph are coloured one after the other, and a table is filled on the
way: the edge `(i, o)` with colour `c` writes `o` to the cell of `i` in row `c`.

* `Separates clash` — no edge gets the colour of an earlier one that it clashes with;
* `Written` — what a table that is filled in this way says about the colouring, whatever the
  colours were;
* `Written.isMatching` and `Written.count_cells_iff` — what it takes for the rows to be matchings
  and for the table to hold every edge.
-/

variable {I O : Type*}

/-- Edges with the colours they were assigned, in the order of assignment. -/
abbrev Assigned (I O : Type*) := List ((I × O) × ℕ)

/-- Two edges have the same left port. -/
def ShareInput (e e' : I × O) : Prop := e.1 = e'.1

/-- Two edges have a port in common. -/
def SharePort (e e' : I × O) : Prop := e.1 = e'.1 ∨ e.2 = e'.2

instance [DecidableEq I] (e e' : I × O) : Decidable (ShareInput e e') :=
  inferInstanceAs (Decidable (e.1 = e'.1))

instance [DecidableEq I] [DecidableEq O] (e e' : I × O) : Decidable (SharePort e e') :=
  inferInstanceAs (Decidable (e.1 = e'.1 ∨ e.2 = e'.2))

/-- No edge is assigned the colour of an earlier edge that it clashes with. -/
def Separates (clash : I × O → I × O → Prop) (a : Assigned I O) : Prop :=
  a.Pairwise (fun x y => clash x.1 y.1 → x.2 ≠ y.2)

section

variable {clash clash' : I × O → I × O → Prop} {a b : Assigned I O}

theorem separates_nil : Separates clash ([] : Assigned I O) := List.Pairwise.nil

/-- One more edge. -/
theorem separates_append_singleton {e : I × O} {c : ℕ} :
    Separates clash (a ++ [(e, c)]) ↔
      Separates clash a ∧ ∀ x ∈ a, clash x.1 e → x.2 ≠ c := by
  unfold Separates
  rw [List.pairwise_append]
  simp

theorem Separates.of_prefix (h : Separates clash b) (hab : a <+: b) : Separates clash a :=
  h.sublist hab.sublist

theorem Separates.mono (h : Separates clash a) (hc : ∀ e e', clash' e e' → clash e e') :
    Separates clash' a :=
  h.imp (fun hxy hclash => hxy (hc _ _ hclash))

/-- Two assignments to edges that clash have different colours, whichever came first. -/
theorem Separates.color_ne (h : Separates clash a) (hsymm : ∀ e e', clash e e' → clash e' e)
    {x y : (I × O) × ℕ} (hx : x ∈ a) (hy : y ∈ a) (hne : x ≠ y) (hclash : clash x.1 y.1) :
    x.2 ≠ y.2 := by
  have hpair : Std.Symm (fun x y : (I × O) × ℕ => clash x.1 y.1 → x.2 ≠ y.2) :=
    ⟨fun _ _ hxy hyx => (hxy (hsymm _ _ hyx)).symm⟩
  exact List.Pairwise.forall h hx hy hne hclash

end

variable [DecidableEq I] [DecidableEq O]

/-! ### The colours of the copies of an edge -/

/-- The colours assigned to the copies of `e`. -/
def colorsOf (a : Assigned I O) (e : I × O) : List ℕ := (a.filter (fun x => x.1 = e)).map Prod.snd

@[simp] theorem mem_colorsOf {a : Assigned I O} {e : I × O} {c : ℕ} :
    c ∈ colorsOf a e ↔ (e, c) ∈ a := by
  simp [colorsOf]

@[simp] theorem length_colorsOf (a : Assigned I O) (e : I × O) :
    (colorsOf a e).length = (a.map Prod.fst).count e := by
  rw [colorsOf, List.length_map, List.count_eq_countP, List.countP_map,
    List.countP_eq_length_filter]
  refine congrArg List.length (List.filter_congr fun x _ => ?_)
  rw [Bool.eq_iff_iff, decide_eq_true_iff]
  exact beq_iff_eq.symm

/-- When edges with the same left port are kept apart, so are the copies of an edge. -/
theorem Separates.nodup_colorsOf {a : Assigned I O} (h : Separates ShareInput a) (e : I × O) :
    (colorsOf a e).Nodup := by
  apply List.pairwise_map.mpr
  apply (h.sublist List.filter_sublist).imp_of_mem
  intro x y hx hy hxy
  have hxe : x.1 = e := by simpa using (List.mem_filter.mp hx).2
  have hye : y.1 = e := by simpa using (List.mem_filter.mp hy).2
  apply hxy
  rw [hxe, hye]
  exact rfl

/-- No edge gets a colour twice if no copies of an edge share one. -/
theorem nodup_of_colorsOf {a : Assigned I O} (h : ∀ e, (colorsOf a e).Nodup) : a.Nodup := by
  apply List.nodup_iff_sublist.mpr
  intro x hx
  apply List.nodup_iff_sublist.mp (h x.1) x.2
  have hfilter : [x, x].filter (fun y => y.1 = x.1) = [x, x] := by simp
  have hsub := (hx.filter (fun y => y.1 = x.1)).map Prod.snd
  rw [hfilter] at hsub
  exact hsub

/-! ### The table -/

/-- The table `t` is filled by the assignment `a`: what a cell holds was assigned to it, and every
    cell that was assigned to holds something. -/
structure Written (t : ℕ → I → Option O) (a : Assigned I O) : Prop where
  assigned : ∀ {c : ℕ} {i : I} {o : O}, t c i = some o → ((i, o), c) ∈ a
  filled : ∀ {c : ℕ} {i : I} {o : O}, ((i, o), c) ∈ a → t c i ≠ none

omit [DecidableEq I] [DecidableEq O] in
theorem written_nil {t : ℕ → I → Option O} (h : ∀ c i, t c i = none) : Written t [] where
  assigned := fun {c i o} hc => by simp [h c i] at hc
  filled := fun hmem => absurd hmem List.not_mem_nil

section

variable {t : ℕ → I → Option O} {a : Assigned I O}

omit [DecidableEq O] in
/-- Writing the cell of one more edge, whatever it held. -/
theorem Written.write (h : Written t a) (e : I × O) (c : ℕ) :
    Written (update₂ t c e.1 (some e.2)) (a ++ [(e, c)]) where
  assigned := by
    intro c' i o hc
    rw [update₂_apply] at hc
    rw [List.mem_append, List.mem_singleton]
    split at hc
    · rename_i heq
      cases hc
      exact .inr (by rw [heq.1, heq.2])
    · exact .inl (h.assigned hc)
  filled := by
    intro c' i o hmem
    rw [update₂_apply]
    split
    · exact Option.some_ne_none _
    · rename_i hne
      rcases List.mem_append.mp hmem with hold | hnew
      · exact h.filled hold
      · cases List.mem_singleton.mp hnew
        exact absurd ⟨rfl, rfl⟩ hne

omit [DecidableEq I] [DecidableEq O] in
/-- If edges with the same left port are kept apart, every edge is still in its cell. -/
theorem Written.cell (h : Written t a) (hsep : Separates ShareInput a) {x : (I × O) × ℕ}
    (hx : x ∈ a) : t x.2 x.1.1 = some x.1.2 := by
  cases hc : t x.2 x.1.1 with
  | none => exact absurd hc (h.filled hx)
  | some o =>
    -- What the cell holds was assigned to it, like `x`; the two assignments are one.
    have hmem := h.assigned hc
    by_contra hne
    apply hsep.color_ne (fun _ _ hshare => hshare.symm) hx hmem _ rfl rfl
    intro heq
    exact hne (congrArg (fun y : (I × O) × ℕ => some y.1.2) heq).symm

omit [DecidableEq I] [DecidableEq O] in
/-- If edges that share a port are kept apart, every row is a matching. -/
theorem Written.isMatching (h : Written t a) (hsep : Separates SharePort a) (c : ℕ) :
    IsMatching (t c) := by
  intro i i' o hi hi'
  by_contra hne
  apply hsep.color_ne (fun _ _ hshare => hshare.imp Eq.symm Eq.symm) (h.assigned hi)
    (h.assigned hi') _ (.inr rfl) rfl
  intro heq
  exact hne (congrArg (fun x : (I × O) × ℕ => x.1.1) heq)

/-- The first `B` rows hold every edge as often as it was assigned exactly when edges with the same
    left port are kept apart. -/
theorem Written.count_cells_iff (h : Written t a) {B : ℕ} (hB : ∀ x ∈ a, x.2 < B) :
    (∀ e : I × O, (List.range B).countP (fun c => t c e.1 = some e.2) = (a.map Prod.fst).count e) ↔
      Separates ShareInput a := by
  -- The rows that hold `e` and the colours of its copies.
  have hsub : ∀ e : I × O,
      (List.range B).filter (fun c => t c e.1 = some e.2) ⊆ colorsOf a e := by
    intro e c hc
    have hcell : t c e.1 = some e.2 := by simpa using (List.mem_filter.mp hc).2
    exact mem_colorsOf.mpr (h.assigned hcell)
  have hnodup : ∀ e : I × O, ((List.range B).filter (fun c => t c e.1 = some e.2)).Nodup :=
    fun e => List.nodup_range.filter _
  constructor
  · intro hcount
    have hperm : ∀ e : I × O,
        ((List.range B).filter (fun c => t c e.1 = some e.2)).Perm (colorsOf a e) := by
      intro e
      apply ((hnodup e).subperm (hsub e)).perm_of_length_le
      rw [length_colorsOf, ← hcount e, List.countP_eq_length_filter]
    have hcell : ∀ x ∈ a, t x.2 x.1.1 = some x.1.2 := by
      intro x hx
      have hmem : x.2 ∈ colorsOf a x.1 := mem_colorsOf.mpr hx
      simpa using (List.mem_filter.mp ((hperm x.1).mem_iff.mpr hmem)).2
    have ha : a.Nodup := nodup_of_colorsOf (fun e => (hperm e).nodup_iff.mp (hnodup e))
    apply List.Pairwise.imp_of_mem _ ha
    intro x y hx hy hne hshare hcolor
    apply hne
    have hx' := hcell x hx
    rw [hshare, hcolor, hcell y hy] at hx'
    exact Prod.ext (Prod.ext hshare (Option.some.inj hx').symm) hcolor
  · intro hsep e
    rw [List.countP_eq_length_filter, ← length_colorsOf]
    apply List.Perm.length_eq
    apply (List.perm_ext_iff_of_nodup (hnodup e) (hsep.nodup_colorsOf e)).mpr
    intro c
    refine ⟨fun hc => hsub e hc, fun hc => ?_⟩
    have hmem := mem_colorsOf.mp hc
    rw [List.mem_filter]
    refine ⟨List.mem_range.mpr (hB _ hmem), ?_⟩
    simpa using h.cell hsep hmem

end

end SschedSimulator.Foundation
