import Mathlib.Data.List.Forall2
import Mathlib.Data.List.ProdSigma
import Mathlib.Data.Nat.Notation
import Mathlib.Logic.Basic

namespace SschedSimulator.Foundation

/-!
# Runs that may fault

A program that can stop at an assertion is a value of `Except ε α`.  `Post x E Q` is its
specification: a run that returns ends in `Q`, a run that faults does so with a fault in `E`.
`Post x (fun _ => False) Q` is total correctness.  The rules follow the program text:

* `Post.bind` for a sequence, `Post.require` and `Post.require_bind` for an assertion;
* `Post.foldlM` for a loop over a list with an invariant, `Post.foldlM_rest` when the
  invariant speaks about the elements still to come, `Post.foldlM_parts` when every step works on a
  part of its own, `Post.mapM` for a map, `Post.foldlM_meeting` when the steps of the loop are known to meet a condition;
* `Post.steps` for a run of a system whose step `t` is `f t`.

`Avoids e x` is the part of a specification that only says that `x` does not end in the fault `e`.
-/

universe u v

variable {ε : Type v} {α β σ : Type u}

/-- A run that returns satisfies `Q`; one that faults does so with a fault in `E`. -/
def Post (x : Except ε α) (E : ε → Prop) (Q : α → Prop) : Prop :=
  match x with
  | .ok a => Q a
  | .error e => E e

/-- An assertion: continue if `p` holds, stop with the fault `e` otherwise. -/
def require (p : Prop) [Decidable p] (e : ε) : Except ε Unit :=
  if p then .ok () else .error e

@[simp] theorem Post_ok {a : α} {E : ε → Prop} {Q : α → Prop} :
    Post (.ok a) E Q ↔ Q a := Iff.rfl

@[simp] theorem Post_error {e : ε} {E : ε → Prop} {Q : α → Prop} :
    Post (.error e) E Q ↔ E e := Iff.rfl

@[simp] theorem Post_pure {a : α} {E : ε → Prop} {Q : α → Prop} :
    Post (pure a : Except ε α) E Q ↔ Q a := Iff.rfl

/-! ### Using a specification -/

/-- The value of a run that returned satisfies the postcondition. -/
theorem Post.of_ok {x : Except ε α} {E : ε → Prop} {Q : α → Prop} {a : α}
    (h : Post x E Q) (hx : x = .ok a) : Q a := by
  subst hx; exact h

/-- A run whose allowed faults are all excluded returns. -/
theorem Post.exists_ok {x : Except ε α} {E : ε → Prop} {Q : α → Prop}
    (h : Post x E Q) (hE : ∀ e, x = .error e → ¬ E e) : ∃ a, x = .ok a ∧ Q a := by
  cases x with
  | ok a => exact ⟨a, rfl, h⟩
  | error e => exact absurd h (hE e rfl)

theorem Post.mono {x : Except ε α} {E E' : ε → Prop} {Q Q' : α → Prop}
    (h : Post x E Q) (hE : ∀ e, E e → E' e) (hQ : ∀ a, Q a → Q' a) : Post x E' Q' := by
  cases x with
  | ok a => exact hQ a h
  | error e => exact hE e h

theorem Post.imp {x : Except ε α} {E : ε → Prop} {Q Q' : α → Prop}
    (h : Post x E Q) (hQ : ∀ a, Q a → Q' a) : Post x E Q' :=
  h.mono (fun _ he => he) hQ

/-- The allowed faults of one specification and the values of another. -/
theorem Post.and {x : Except ε α} {E E' : ε → Prop} {Q Q' : α → Prop} (h : Post x E Q)
    (h' : Post x E' Q') : Post x E Q' := by
  cases x with
  | ok a => exact h'
  | error e => exact h

/-- Two specifications of one run. -/
theorem Post.both {x : Except ε α} {E E' : ε → Prop} {Q Q' : α → Prop} (h : Post x E Q)
    (h' : Post x E' Q') : Post x E (fun a => Q a ∧ Q' a) := by
  cases x with
  | ok a => exact ⟨h, h'⟩
  | error e => exact h

/-- A specification that promises nothing. -/
theorem Post.top (x : Except ε α) : Post x (fun _ => True) (fun _ => True) := by
  cases x <;> trivial

/-- A test that a run returns a value that passes `p`. -/
def returns (x : Except ε α) (p : α → Bool) : Bool :=
  match x with
  | .ok a => p a
  | .error _ => false

theorem exists_of_returns {x : Except ε α} {p : α → Bool} (h : returns x p = true) :
    ∃ a, x = .ok a ∧ p a = true := by
  cases x with
  | ok a => exact ⟨a, rfl, h⟩
  | error e => exact nomatch h

/-- A test that a run ends in the fault `e`. -/
def faultsWith [DecidableEq ε] (x : Except ε α) (e : ε) : Bool :=
  match x with
  | .ok _ => false
  | .error e' => decide (e' = e)

theorem eq_error_of_faultsWith [DecidableEq ε] {x : Except ε α} {e : ε}
    (h : faultsWith x e = true) : x = .error e := by
  cases x with
  | ok a => exact nomatch h
  | error e' => exact congrArg Except.error (of_decide_eq_true h)

/-- A specification may also record the value of the run. -/
theorem Post.and_eq {x : Except ε α} {E : ε → Prop} {Q : α → Prop} (h : Post x E Q) :
    Post x E (fun a => Q a ∧ x = .ok a) := by
  cases x with
  | ok a => exact ⟨h, rfl⟩
  | error e => exact h

/-! ### Sequences and assertions -/

theorem Post.bind {x : Except ε α} {f : α → Except ε β} {E : ε → Prop} {P : α → Prop}
    {Q : β → Prop} (hx : Post x E P) (hf : ∀ a, P a → Post (f a) E Q) :
    Post (x >>= f) E Q := by
  cases x with
  | ok a => exact hf a hx
  | error e => exact hx

@[simp] theorem ok_bind (a : α) (f : α → Except ε β) : Except.ok a >>= f = f a := rfl

@[simp] theorem error_bind (e : ε) (f : α → Except ε β) :
    Except.error e >>= f = .error e := rfl

theorem bind_eq_ok {x : Except ε α} {f : α → Except ε β} {b : β} :
    x >>= f = .ok b ↔ ∃ a, x = .ok a ∧ f a = .ok b := by
  cases x with
  | ok a =>
    constructor
    · intro h
      exact ⟨a, rfl, h⟩
    · intro h
      obtain ⟨a', ha, hf⟩ := h
      cases ha
      exact hf
  | error e =>
    constructor
    · exact fun h => nomatch h
    · exact fun ⟨_, h, _⟩ => nomatch h

theorem Post.require {p : Prop} [Decidable p] {e : ε} {E : ε → Prop} {Q : Unit → Prop}
    (h : ¬ p → E e) (hQ : p → Q ()) : Post (require p e) E Q := by
  unfold Foundation.require
  split
  · exact hQ ‹_›
  · exact h ‹_›

/-- What follows an assertion may rely on it. -/
theorem Post.require_bind {γ : Type} {p : Prop} [Decidable p] {e : ε} {f : Unit → Except ε γ}
    {E : ε → Prop} {Q : γ → Prop} (h : ¬ p → E e) (hf : p → Post (f ()) E Q) :
    Post (Foundation.require p e >>= f) E Q :=
  Post.bind (Post.require h id) (fun _ hp => hf hp)

@[simp] theorem require_pos {p : Prop} [Decidable p] {e : ε} (h : p) :
    require p e = .ok () := if_pos h

/-- An assertion that did not stop the run holds. -/
theorem of_require {p : Prop} [Decidable p] {e : ε} {u : Unit} (h : require p e = .ok u) : p := by
  by_contra hp
  rw [Foundation.require, if_neg hp] at h
  cases h

/-! ### Loops -/

/-- Loop rule with an invariant that also speaks about the elements still to come. -/
theorem Post.foldlM_rest {f : σ → α → Except ε σ} {E : ε → Prop} (I : List α → σ → Prop)
    (l : List α) (s : σ) (h0 : I l s)
    (hstep : ∀ a rest s, I (a :: rest) s → Post (f s a) E (I rest)) :
    Post (l.foldlM f s) E (I []) := by
  induction l generalizing s with
  | nil => exact h0
  | cons a rest ih =>
    -- The state after `a` satisfies the invariant for `rest`, where the loop goes on.
    rw [List.foldlM_cons]
    exact (hstep a rest s h0).bind (fun s' hs' => ih s' hs')

/-- Loop rule: an invariant kept by each element's step holds after the loop. -/
theorem Post.foldlM {f : σ → α → Except ε σ} {E : ε → Prop} {I : σ → Prop}
    {l : List α} {s : σ} (h0 : I s)
    (hstep : ∀ a ∈ l, ∀ s, I s → Post (f s a) E I) : Post (l.foldlM f s) E I := by
  induction l generalizing s with
  | nil => exact h0
  | cons a rest ih =>
    rw [List.foldlM_cons]
    exact (hstep a (by simp) s h0).bind
      (fun s' hs' => ih hs' (fun b hb => hstep b (by simp [hb])))

/-- The states of a loop that returned. -/
theorem exists_of_foldlM_range {f : σ → ℕ → Except ε σ} {s s' : σ} {k : ℕ}
    (h : (List.range k).foldlM f s = .ok s') :
    ∃ w : ℕ → σ, w 0 = s ∧ w k = s' ∧ ∀ it < k, f (w it) it = .ok (w (it + 1)) := by
  induction k generalizing s' with
  | zero =>
    cases h
    exact ⟨fun _ => s, rfl, rfl, nofun⟩
  | succ k ih =>
    rw [List.range_succ, List.foldlM_append] at h
    obtain ⟨mid, hmid, hlast⟩ := bind_eq_ok.mp h
    obtain ⟨w, h0, hk, hstep⟩ := ih hmid
    obtain ⟨s'', hstep', hs''⟩ := bind_eq_ok.mp hlast
    cases hs''
    refine ⟨fun it => if it ≤ k then w it else s', by simpa using h0, if_neg (by omega),
      fun it hit => ?_⟩
    dsimp only
    rw [if_pos (by omega : it ≤ k)]
    by_cases hlt : it < k
    · rw [if_pos (by omega : it + 1 ≤ k)]
      exact hstep it hlt
    · obtain rfl : it = k := by omega
      rw [if_neg (by omega), hk]
      exact hstep'

/-- Loops whose steps agree on the elements of the list agree. -/
theorem foldlM_congr {f g : σ → α → Except ε σ} {l : List α} (h : ∀ a ∈ l, ∀ s, f s a = g s a)
    (s : σ) : l.foldlM f s = l.foldlM g s := by
  induction l generalizing s with
  | nil => rfl
  | cons a rest ih =>
    rw [List.foldlM_cons, List.foldlM_cons, h a (by simp)]
    exact congrArg _ (funext (fun s' => ih (fun b hb => h b (by simp [hb])) s'))

/-- A map whose steps may fault returns what the steps return. -/
theorem mapM_eq_ok {f : α → Except ε β} {l : List α} {bs : List β} :
    l.mapM f = .ok bs ↔ List.Forall₂ (fun a b => f a = .ok b) l bs := by
  induction l generalizing bs with
  | nil =>
    rw [List.mapM_nil, List.forall₂_nil_left_iff]
    exact ⟨fun h => (Except.ok.inj h).symm, fun h => h ▸ rfl⟩
  | cons a rest ih =>
    rw [List.mapM_cons, List.forall₂_cons_left_iff]
    constructor
    · intro h
      obtain ⟨b, hb, h⟩ := bind_eq_ok.mp h
      obtain ⟨bs', hbs', h⟩ := bind_eq_ok.mp h
      exact ⟨b, bs', hb, ih.mp hbs', (Except.ok.inj h).symm⟩
    · rintro ⟨b, bs', hb, hbs', rfl⟩
      exact bind_eq_ok.mpr ⟨b, hb, bind_eq_ok.mpr ⟨bs', ih.mpr hbs', rfl⟩⟩

/-- Loop rule for a map: the values are those that the steps may return. -/
theorem Post.mapM {f : α → Except ε β} {E : ε → Prop} {Q : α → β → Prop} {l : List α}
    (h : ∀ a ∈ l, Post (f a) E (Q a)) : Post (l.mapM f) E (List.Forall₂ Q l) := by
  induction l with
  | nil => exact List.Forall₂.nil
  | cons a rest ih =>
    rw [List.mapM_cons]
    refine (h a (by simp)).bind (fun b hb => ?_)
    refine (ih (fun a' ha' => h a' (by simp [ha']))).bind (fun bs hbs => ?_)
    exact List.Forall₂.cons hb hbs

/-- A loop inside a loop is one loop over the pairs. -/
theorem foldlM_product {ι κ : Type*} (f : σ → ι × κ → Except ε σ) (is : List ι) (ks : List κ)
    (s : σ) : (is ×ˢ ks).foldlM f s
      = is.foldlM (fun s i => ks.foldlM (fun s k => f s (i, k)) s) s := by
  induction is generalizing s with
  | nil => rfl
  | cons i rest ih =>
    rw [List.product_cons, List.foldlM_append, List.foldlM_map, List.foldlM_cons]
    exact congrArg _ (funext ih)

/-- Loop rule for steps that each work on a part of their own: what `view` shows of the part `i` is
    changed by step `i` only. -/
theorem Post.foldlM_parts {ι : Type*} {β : Type*} {f : σ → ι → Except ε σ} {E : ε → Prop}
    (view : σ → ι → β) {P Q : ι → β → Prop} {l : List ι} (hl : l.Nodup) {s : σ}
    (h0 : ∀ i ∈ l, P i (view s i))
    (hstep : ∀ i ∈ l, ∀ s, P i (view s i) →
      Post (f s i) E (fun s' => Q i (view s' i) ∧ ∀ j, j ≠ i → view s' j = view s j)) :
    Post (l.foldlM f s) E
      (fun s' => (∀ i ∈ l, Q i (view s' i)) ∧ ∀ j, j ∉ l → view s' j = view s j) := by
  induction l generalizing s with
  | nil => exact ⟨fun _ hi => absurd hi List.not_mem_nil, fun _ _ => rfl⟩
  | cons a rest ih =>
    obtain ⟨ha, hrest⟩ := List.nodup_cons.mp hl
    rw [List.foldlM_cons]
    refine (hstep a (by simp) s (h0 a (by simp))).bind (fun s₁ h₁ => ?_)
    -- The parts of `rest` are as they were before step `a`.
    have hP : ∀ i ∈ rest, P i (view s₁ i) := fun i hi => by
      rw [h₁.2 i (fun he => ha (he ▸ hi))]
      exact h0 i (by simp [hi])
    refine (ih hrest hP (fun i hi => hstep i (by simp [hi]))).imp (fun s₂ h₂ => ⟨?_, ?_⟩)
    · intro i hi
      rcases List.mem_cons.mp hi with rfl | hi
      · rw [h₂.2 i ha]
        exact h₁.1
      · exact h₂.1 i hi
    · intro j hj
      rw [List.mem_cons, not_or] at hj
      rw [h₂.2 j hj.2, h₁.2 j hj.1]

/-- Every step of a loop meets `C` on the state in which it starts. -/
def StepsMeet (f : σ → α → Except ε σ) (C : σ → α → Prop) : List α → σ → Prop
  | [], _ => True
  | a :: rest, s => C s a ∧
    match f s a with
    | .ok s' => StepsMeet f C rest s'
    | .error _ => True

instance decidableStepsMeet (f : σ → α → Except ε σ) (C : σ → α → Prop)
    [∀ s a, Decidable (C s a)] : ∀ l s, Decidable (StepsMeet f C l s)
  | [], _ => .isTrue trivial
  | a :: rest, s =>
    have : Decidable (match f s a with
        | .ok s' => StepsMeet f C rest s'
        | .error _ => True) :=
      match f s a with
      | .ok s' => decidableStepsMeet f C rest s'
      | .error _ => .isTrue trivial
    inferInstanceAs (Decidable (_ ∧ _))

theorem stepsMeet_cons_of_ok {f : σ → α → Except ε σ} {C : σ → α → Prop} {s s' : σ} {a : α}
    (h : f s a = .ok s') (rest : List α) :
    StepsMeet f C (a :: rest) s ↔ C s a ∧ StepsMeet f C rest s' := by
  show C s a ∧ (match f s a with
    | .ok s' => StepsMeet f C rest s'
    | .error _ => True) ↔ _
  rw [h]

/-- Loop rule for a loop whose steps meet a condition. -/
theorem Post.foldlM_meeting {f : σ → α → Except ε σ} {C : σ → α → Prop} {E : ε → Prop}
    {I : σ → Prop} {l : List α} {s : σ} (h0 : I s) (hC : StepsMeet f C l s)
    (hstep : ∀ s a, I s → C s a → Post (f s a) E I) : Post (l.foldlM f s) E I := by
  induction l generalizing s with
  | nil => exact h0
  | cons a rest ih =>
    rw [List.foldlM_cons]
    -- The condition on the steps to come is about the state that this step returned.
    refine ((hstep s a h0 hC.1).and_eq).bind (fun s' h' => ?_)
    obtain ⟨hs', hok⟩ := h'
    have hrest := hC.2
    rw [hok] at hrest
    exact ih hs' hrest

/-- The steps of a loop meet a condition that follows from an invariant. -/
theorem StepsMeet.of_invariant {f : σ → α → Except ε σ} {C : σ → α → Prop} (I : σ → Prop)
    {l : List α} {s : σ} (h0 : I s)
    (hstep : ∀ s a, I s → C s a ∧ Post (f s a) (fun _ => True) I) : StepsMeet f C l s := by
  induction l generalizing s with
  | nil => trivial
  | cons a rest ih =>
    obtain ⟨hC, hpost⟩ := hstep s a h0
    refine ⟨hC, ?_⟩
    cases hok : f s a with
    | ok s' => exact ih (hpost.of_ok hok)
    -- After a fault there are no further steps.
    | error e => trivial

/-! ### Faults that never happen -/

/-- A run does not end in the fault `e`. -/
def Avoids (e : ε) (x : Except ε α) : Prop := Post x (· ≠ e) (fun _ => True)

theorem avoids_iff {e : ε} {x : Except ε α} : Avoids e x ↔ x ≠ .error e := by
  cases x with
  | ok a => exact iff_of_true trivial (fun h => nomatch h)
  | error e' => exact not_congr ⟨congrArg Except.error, Except.error.inj⟩

@[simp] theorem avoids_ok {e : ε} {a : α} : Avoids e (.ok a : Except ε α) := trivial

@[simp] theorem avoids_error {e e' : ε} : Avoids e (.error e' : Except ε α) ↔ e' ≠ e := Iff.rfl

/-- What a specification allows at most is not done beyond it. -/
theorem Post.avoids {x : Except ε α} {E : ε → Prop} {Q : α → Prop} {e : ε} (h : Post x E Q)
    (he : ¬ E e) : Avoids e x :=
  h.mono (fun _ he' heq => he (heq ▸ he')) (fun _ _ => trivial)

/-- An assertion with another fault, or one that holds. -/
theorem avoids_require {p : Prop} [Decidable p] {e e' : ε} (h : e' = e → p) :
    Avoids e (require p e') :=
  Post.require (fun hp he => hp (h he)) (fun _ => trivial)

theorem Avoids.bind {e : ε} {x : Except ε α} {f : α → Except ε β} (hx : Avoids e x)
    (hf : ∀ a, Avoids e (f a)) : Avoids e (x >>= f) :=
  Post.bind hx (fun a _ => hf a)

theorem Avoids.foldlM {e : ε} {f : σ → α → Except ε σ} {l : List α} {s : σ}
    (h : ∀ a ∈ l, ∀ s, Avoids e (f s a)) : Avoids e (l.foldlM f s) :=
  Post.foldlM trivial (fun a ha s _ => h a ha s)

/-! ### Runs of a system -/

/-- The state after `T` steps from `s`, where step `t` is `f t`. -/
def steps (f : ℕ → σ → Except ε σ) (s : σ) : ℕ → Except ε σ
  | 0 => .ok s
  | T + 1 => do
    let s' ← steps f s T
    f T s'

section

variable {f : ℕ → σ → Except ε σ} {s s' : σ}

/-- A run of `T + 1` steps is one of `T` steps followed by a step. -/
theorem steps_succ_eq_ok {T : ℕ} :
    steps f s (T + 1) = .ok s' ↔ ∃ mid, steps f s T = .ok mid ∧ f T mid = .ok s' :=
  bind_eq_ok

/-- It is also a step followed by a run of `T` steps. -/
theorem steps_succ_eq_bind (f : ℕ → σ → Except ε σ) (s : σ) (T : ℕ) :
    steps f s (T + 1) = (do
      let s' ← f 0 s
      steps (fun t => f (t + 1)) s' T) := by
  induction T with
  | zero =>
    rw [steps, steps, ok_bind]
    cases f 0 s with
    | ok s' => rfl
    | error e => rfl
  | succ T ih =>
    rw [steps, ih]
    cases f 0 s with
    | ok s' => rfl
    | error e => rfl

/-- A run passes through its earlier states. -/
theorem exists_steps {T d : ℕ} (h : steps f s (T + d) = .ok s') : ∃ mid, steps f s T = .ok mid := by
  induction d generalizing s' with
  | zero => exact ⟨s', h⟩
  | succ d ih =>
    obtain ⟨mid, hmid, -⟩ := steps_succ_eq_ok.mp h
    exact ih hmid

/-- Cells that are used one after the other, cell `t` by the step at `T + t`: those still to be used
    are as the state at `T` found them. -/
theorem steps_keep {ρ : Type*} (view : σ → ℕ → ρ) {T L : ℕ} {first : σ}
    (hfirst : steps f s T = .ok first)
    (hstep : ∀ t mid next, t + 1 < L → steps f s (T + t) = .ok mid → f (T + t) mid = .ok next →
      ∀ j, j ≠ t → view next j = view mid j)
    {t : ℕ} (ht : t < L) (h : steps f s (T + t) = .ok s') :
    ∀ j, t ≤ j → view s' j = view first j := by
  induction t generalizing s' with
  | zero =>
    cases hfirst.symm.trans h
    exact fun _ _ => rfl
  | succ t ih =>
    obtain ⟨mid, hmid, hnext⟩ := steps_succ_eq_ok.mp h
    intro j hj
    rw [hstep t mid s' ht hmid hnext j (by omega)]
    exact ih (by omega) hmid j (by omega)

/-- A run that cannot make its first step returns no state after it. -/
theorem steps_eq_error {e : ε} (h : f 0 s = .error e) (T : ℕ) :
    steps f s (T + 1) = .error e := by
  induction T with
  | zero => exact h
  | succ T ih => rw [steps, ih, error_bind]

/-- Run rule: what holds at the start and is kept by every step holds after `T` steps. -/
theorem Post.steps {E : ε → Prop} (I : ℕ → σ → Prop) (h0 : I 0 s)
    (hstep : ∀ T s, I T s → Post (f T s) E (I (T + 1))) (T : ℕ) :
    Post (steps f s T) E (I T) := by
  induction T with
  | zero => exact h0
  | succ T ih => exact ih.bind (hstep T)

end

end SschedSimulator.Foundation
