import SschedSimulator.Foundation.Outcome

namespace SschedSimulator.Foundation

/-!
# Two runs in lock-step

`Lockstep R x y` is a specification of two runs at once: both return, and their values are related
by `R`, or both stop with the same fault.  The rules follow the program text:

* `Lockstep.bind` for a sequence;
* `Lockstep.foldlM` for a loop over the same list;
* `Lockstep.steps` for a run of a system from two states.
-/

universe u v

variable {ε : Type v} {α α' β β' σ σ' : Type u}

/-- Both runs return related values, or both stop with the same fault. -/
def Lockstep (R : α → α' → Prop) (x : Except ε α) (y : Except ε α') : Prop :=
  match x, y with
  | .ok a, .ok b => R a b
  | .error e, .error e' => e = e'
  | _, _ => False

@[simp] theorem lockstep_ok {R : α → α' → Prop} {a : α} {b : α'} :
    Lockstep R (.ok a : Except ε α) (.ok b) ↔ R a b := Iff.rfl

/-- A run is in lock-step with itself. -/
theorem Lockstep.refl {R : α → α → Prop} (h : ∀ a, R a a) (x : Except ε α) : Lockstep R x x := by
  cases x with
  | ok a => exact h a
  | error e => exact rfl

/-- Equal runs are in lock-step. -/
theorem Lockstep.of_eq {x y : Except ε α} (h : x = y) : Lockstep (· = ·) x y := by
  subst h
  exact Lockstep.refl (fun _ => rfl) x

/-- Runs in lock-step with equal values are equal. -/
theorem Lockstep.eq {x y : Except ε α} (h : Lockstep (· = ·) x y) : x = y := by
  cases x with
  | ok a =>
    cases y with
    | ok b => exact congrArg Except.ok h
    | error e => exact h.elim
  | error e =>
    cases y with
    | ok b => exact h.elim
    | error e' => exact congrArg Except.error h

theorem Lockstep.cases {R : α → α' → Prop} {x : Except ε α} {y : Except ε α'}
    (h : Lockstep R x y) :
    (∃ a b, x = .ok a ∧ y = .ok b ∧ R a b) ∨ ∃ e, x = .error e ∧ y = .error e := by
  cases x with
  | ok a =>
    cases y with
    | ok b => exact .inl ⟨a, b, rfl, rfl, h⟩
    | error e => exact h.elim
  | error e =>
    cases y with
    | ok b => exact h.elim
    | error e' => exact .inr ⟨e, rfl, congrArg Except.error h.symm⟩

theorem Lockstep.mono {R S : α → α' → Prop} {x : Except ε α} {y : Except ε α'}
    (h : Lockstep R x y) (hRS : ∀ a b, R a b → S a b) : Lockstep S x y := by
  cases x with
  | ok a =>
    cases y with
    | ok b => exact hRS a b h
    | error e => exact h
  | error e =>
    cases y with
    | ok b => exact h
    | error e' => exact h

/-- With what is known of each run by itself. -/
theorem Lockstep.and_post {R : α → α' → Prop} {x : Except ε α} {y : Except ε α'}
    {E E' : ε → Prop} {Q : α → Prop} {Q' : α' → Prop} (h : Lockstep R x y) (hx : Post x E Q)
    (hy : Post y E' Q') : Lockstep (fun a b => R a b ∧ Q a ∧ Q' b) x y := by
  cases x with
  | ok a =>
    cases y with
    | ok b => exact ⟨h, hx, hy⟩
    | error e => exact h
  | error e =>
    cases y with
    | ok b => exact h
    | error e' => exact h

theorem Lockstep.bind {R : α → α' → Prop} {S : β → β' → Prop} {x : Except ε α} {y : Except ε α'}
    {f : α → Except ε β} {g : α' → Except ε β'} (hxy : Lockstep R x y)
    (hfg : ∀ a b, R a b → Lockstep S (f a) (g b)) : Lockstep S (x >>= f) (y >>= g) := by
  cases x with
  | ok a =>
    cases y with
    | ok b => exact hfg a b hxy
    | error e => exact hxy.elim
  | error e =>
    cases y with
    | ok b => exact hxy.elim
    | error e' => exact hxy

/-- The same run first. -/
theorem Lockstep.bind_same {S : β → β' → Prop} (x : Except ε α) {f : α → Except ε β}
    {g : α → Except ε β'} (hfg : ∀ a, Lockstep S (f a) (g a)) : Lockstep S (x >>= f) (x >>= g) := by
  cases x with
  | ok a => exact hfg a
  | error e => exact rfl

/-- The same run first, with what is known of its value. -/
theorem Lockstep.bind_post {S : β → β' → Prop} {x : Except ε α} {E : ε → Prop} {Q : α → Prop}
    (hx : Post x E Q) {f : α → Except ε β} {g : α → Except ε β'}
    (hfg : ∀ a, Q a → Lockstep S (f a) (g a)) : Lockstep S (x >>= f) (x >>= g) := by
  cases x with
  | ok a => exact hfg a hx
  | error e => exact rfl

/-- A loop over one list with two states. -/
theorem Lockstep.foldlM {f : σ → α → Except ε σ} {g : σ' → α → Except ε σ'} {R : σ → σ' → Prop}
    {l : List α} {s : σ} {s' : σ'} (h0 : R s s')
    (hstep : ∀ a ∈ l, ∀ s s', R s s' → Lockstep R (f s a) (g s' a)) :
    Lockstep R (l.foldlM f s) (l.foldlM g s') := by
  induction l generalizing s s' with
  | nil => exact h0
  | cons a rest ih =>
    rw [List.foldlM_cons, List.foldlM_cons]
    refine (hstep a (by simp) s s' h0).bind (fun t t' ht => ?_)
    exact ih ht (fun b hb => hstep b (by simp [hb]))

/-- Runs of a system from two states stay in lock-step if their first steps do and later steps keep
    them so. -/
theorem Lockstep.steps {f : ℕ → σ → Except ε σ} {R : σ → σ → Prop} {s s' : σ}
    (hfirst : Lockstep R (f 0 s) (f 0 s'))
    (hstep : ∀ t a b, R a b → Lockstep R (f t a) (f t b)) (T : ℕ) :
    Lockstep R (Foundation.steps f s (T + 1)) (Foundation.steps f s' (T + 1)) := by
  induction T with
  | zero => exact hfirst
  | succ T ih => exact ih.bind (fun a b hab => hstep (T + 1) a b hab)

end SschedSimulator.Foundation
