import Mathlib.Data.List.Basic
import Mathlib.Data.List.Forall2
import Mathlib.Data.List.Nodup

namespace SschedSimulator.Foundation

/-!
# First in, first out

`Fifo R keep accepted sent queue` relates the history of a queue to its content: the elements that
were accepted first have been sent, in order, as `R` says they leave; the others wait in the queue,
in order, as `keep` says they are kept.  Every accepted element is therefore either still waiting or
was sent exactly once.
-/

variable {α β γ : Type*}

/-- The first of the accepted elements were sent, the others wait. -/
def Fifo (R : α → γ → Prop) (keep : α → β) (accepted : List α) (sent : List γ)
    (queue : List β) : Prop :=
  ∃ served waiting, accepted = served ++ waiting ∧ List.Forall₂ R served sent ∧
    queue = waiting.map keep

namespace Fifo

variable {R : α → γ → Prop} {keep : α → β} {accepted : List α} {sent : List γ} {queue : List β}

theorem empty : Fifo R keep [] [] [] := ⟨[], [], rfl, .nil, rfl⟩

/-- Accepted elements join the queue at its end. -/
theorem enqueue (h : Fifo R keep accepted sent queue) (new : List α) :
    Fifo R keep (accepted ++ new) sent (queue ++ new.map keep) := by
  obtain ⟨served, waiting, rfl, hserved, rfl⟩ := h
  exact ⟨served, waiting ++ new, List.append_assoc .., hserved, (List.map_append ..).symm⟩

/-- The head of the queue leaves. -/
theorem dequeue {q : β} {rest : List β} {c : γ} (h : Fifo R keep accepted sent (q :: rest))
    (hc : ∀ a ∈ accepted, keep a = q → R a c) : Fifo R keep accepted (sent ++ [c]) rest := by
  obtain ⟨served, waiting, rfl, hserved, hqueue⟩ := h
  cases waiting with
  | nil => exact nomatch hqueue
  | cons a waiting =>
    obtain ⟨hq, hrest⟩ := List.cons.inj hqueue
    refine ⟨served ++ [a], waiting, by simp, ?_, hrest⟩
    have ha : a ∈ served ++ a :: waiting := List.mem_append_right _ List.mem_cons_self
    exact List.rel_append hserved (.cons (hc a ha hq.symm) .nil)

end Fifo

/-- Only one element of the list has a value. -/
theorem filterMap_eq_toList {f : α → Option β} {l : List α} (hl : l.Nodup) {a : α} (ha : a ∈ l)
    (h : ∀ b ∈ l, b ≠ a → f b = none) : l.filterMap f = (f a).toList := by
  induction l with
  | nil => exact absurd ha List.not_mem_nil
  | cons b rest ih =>
    obtain ⟨hb, hrest⟩ := List.nodup_cons.mp hl
    by_cases hba : b = a
    · subst hba
      have hnone : rest.filterMap f = [] :=
        List.filterMap_eq_nil_iff.mpr (fun c hc =>
          h c (List.mem_cons_of_mem _ hc) (fun he => hb (he ▸ hc)))
      cases hfb : f b with
      | none => rw [List.filterMap_cons_none hfb, hnone, Option.toList_none]
      | some v => rw [List.filterMap_cons_some hfb, hnone, Option.toList_some]
    · rw [List.filterMap_cons_none (h b List.mem_cons_self hba)]
      refine ih hrest ((List.mem_cons.mp ha).resolve_left (Ne.symm hba)) (fun c hc => ?_)
      exact h c (List.mem_cons_of_mem _ hc)

end SschedSimulator.Foundation
