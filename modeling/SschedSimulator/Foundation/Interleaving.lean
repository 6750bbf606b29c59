import Mathlib.Logic.Relation
import Mathlib.Order.Basic

namespace SschedSimulator.Foundation

/-!
# Interleaved runs of several actors

A step belongs to one actor.  It may fault, be blocked (`none`), or lead to the next state; which
actor steps next is arbitrary.

* `Interleaving.invariant` — the rule for what holds in every state that is reached;
* `exists_run_to` — without deadlock and with a bound on the length of runs, a run completes;
* `not_transGen_self` — actors that wait upwards only do not wait in a cycle.
-/

variable {σ A ε : Type*}

/-- `s'` is reached from `s` in `k` steps. -/
inductive Interleaving (step : σ → A → Except ε (Option σ)) (s : σ) : ℕ → σ → Prop
  | start : Interleaving step s 0 s
  | next {k : ℕ} {mid s' : σ} {a : A} : Interleaving step s k mid → step mid a = .ok (some s') →
      Interleaving step s (k + 1) s'

variable {step : σ → A → Except ε (Option σ)} {s : σ}

/-- What holds at the start and is kept by every step holds in every state that is reached. -/
theorem Interleaving.invariant {I : ℕ → σ → Prop} (h0 : I 0 s)
    (hstep : ∀ k mid a s', I k mid → step mid a = .ok (some s') → I (k + 1) s') {k : ℕ} {s' : σ}
    (h : Interleaving step s k s') : I k s' := by
  induction h with
  | start => exact h0
  | next _ hnext ih => exact hstep _ _ _ _ ih hnext

/-- If some actor can step in every state that is not `done`, and no run is longer than `bound`,
    then some run gets `done`. -/
theorem exists_run_to {done : σ → Prop} {bound : ℕ}
    (hprogress : ∀ k mid, Interleaving step s k mid → ¬ done mid →
      ∃ a s', step mid a = .ok (some s'))
    (hbound : ∀ k mid, Interleaving step s k mid → k ≤ bound) :
    ∃ k s', Interleaving step s k s' ∧ done s' := by
  by_contra hnever
  -- Otherwise there are runs of every length.
  have hlong : ∀ k, ∃ s', Interleaving step s k s' := by
    intro k
    induction k with
    | zero => exact ⟨s, .start⟩
    | succ k ih =>
      obtain ⟨mid, hmid⟩ := ih
      obtain ⟨a, s', hs'⟩ := hprogress k mid hmid (fun hdone => hnever ⟨k, mid, hmid, hdone⟩)
      exact ⟨s', hmid.next hs'⟩
  obtain ⟨s', hs'⟩ := hlong (bound + 1)
  exact absurd (hbound _ _ hs') (Nat.not_succ_le_self bound)

/-- Where waiting goes upwards there is no cycle of it. -/
theorem not_transGen_self {ρ : Type*} [Preorder ρ] {waits : A → A → Prop} (rank : A → ρ)
    (h : ∀ a b, waits a b → rank a < rank b) (a : A) : ¬ Relation.TransGen waits a a := by
  intro hcycle
  have hlt : ∀ b, Relation.TransGen waits a b → rank a < rank b := by
    intro b hb
    induction hb with
    | single hab => exact h _ _ hab
    | tail _ hbc ih => exact ih.trans (h _ _ hbc)
  exact lt_irrefl _ (hlt a hcycle)

end SschedSimulator.Foundation
