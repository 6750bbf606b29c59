import SschedSimulator.Foundation.Outcome

namespace SschedSimulator.Foundation

/-!
# Checks that never fail

A program `x'` with additional checks beside the same program `x` without them.  `Checked F Q x' x`
says that no check fails, so that `x'` does what `x` does, that neither stops with a fault in `F`,
and that the value is in `Q`.  The rules follow the program text:

* `Checked.guard` drops a check that holds, `Checked.require` keeps an assertion of both;
* `Checked.bind` for a sequence, `Checked.foldlM` for a loop over a list with an invariant,
  `Checked.loop` for one without;
* `Checked.of_post` for a part without additional checks.
-/

universe u v

variable {ε : Type v} {α β σ : Type u} {F : ε → Prop}

/-- `x'` is `x` with checks that hold; there is no fault in `F`, and the value is in `Q`. -/
structure Checked (F : ε → Prop) (Q : α → Prop) (x' x : Except ε α) : Prop where
  same : x' = x
  post : Post x (fun e => ¬ F e) Q

/-- A program without additional checks. -/
theorem Checked.of_post {Q : α → Prop} {x : Except ε α} (h : Post x (fun e => ¬ F e) Q) :
    Checked F Q x x := ⟨rfl, h⟩

theorem Checked.ok {Q : α → Prop} {a : α} (h : Q a) :
    Checked F Q (.ok a : Except ε α) (.ok a) := .of_post h

theorem Checked.error {Q : α → Prop} {e : ε} (h : ¬ F e) :
    Checked F Q (.error e : Except ε α) (.error e) := .of_post h

/-- The checked program does not stop with a fault in `F` either. -/
theorem Checked.ne_error {Q : α → Prop} {x' x : Except ε α} (h : Checked F Q x' x) {e : ε}
    (he : F e) : x' ≠ .error e := by
  rintro rfl
  have hpost := h.post
  rw [← h.same] at hpost
  exact hpost he

theorem Checked.bind {Q : α → Prop} {R : β → Prop} {x' x : Except ε α} {f' f : α → Except ε β}
    (hx : Checked F Q x' x) (hf : ∀ a, Q a → Checked F R (f' a) (f a)) :
    Checked F R (x' >>= f') (x >>= f) := by
  obtain ⟨rfl, hpost⟩ := hx
  cases x' with
  | ok a => exact hf a hpost
  | error e => exact .error hpost

/-- What is done with the value at the end. -/
theorem Checked.map {Q : α → Prop} {x' x : Except ε α} {f : α → β} (hx : Checked F Q x' x) :
    Checked F (fun _ => True) (x' >>= fun a => .ok (f a)) (x >>= fun a => .ok (f a)) :=
  hx.bind (fun _ _ => .ok trivial)

/-- An additional check. -/
theorem Checked.guard {γ : Type} {Q : γ → Prop} {p : Prop} [Decidable p] {e : ε} (hp : p)
    {f' : Unit → Except ε γ} {y : Except ε γ} (hf : Checked F Q (f' ()) y) :
    Checked F Q (Foundation.require p e >>= f') y := by
  rw [require_pos hp]
  exact hf

/-- An assertion that both programs make. -/
theorem Checked.require {p : Prop} [Decidable p] {e : ε} (h : ¬ p → ¬ F e) :
    Checked F (fun _ => p) (Foundation.require p e) (Foundation.require p e) :=
  .of_post (Post.require h id)

/-- A loop with an invariant. -/
theorem Checked.foldlM {f' f : σ → α → Except ε σ} {I : σ → Prop} {l : List α} {s : σ} (h0 : I s)
    (hstep : ∀ a ∈ l, ∀ s, I s → Checked F I (f' s a) (f s a)) :
    Checked F I (l.foldlM f' s) (l.foldlM f s) := by
  induction l generalizing s with
  | nil => exact .ok h0
  | cons a rest ih =>
    rw [List.foldlM_cons, List.foldlM_cons]
    refine (hstep a (by simp) s h0).bind (fun s' hs' => ?_)
    exact ih hs' (fun b hb => hstep b (by simp [hb]))

/-- A loop whose steps may start anywhere. -/
theorem Checked.loop {f' f : σ → α → Except ε σ} {l : List α} {s : σ}
    (hstep : ∀ a ∈ l, ∀ s, Checked F (fun _ => True) (f' s a) (f s a)) :
    Checked F (fun _ => True) (l.foldlM f' s) (l.foldlM f s) :=
  .foldlM trivial (fun a ha s _ => hstep a ha s)

end SschedSimulator.Foundation
