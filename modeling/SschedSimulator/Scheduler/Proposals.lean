import SschedSimulator.Foundation.Arrangement
import SschedSimulator.Foundation.Outcome
import SschedSimulator.Saber.Utils

namespace SschedSimulator

open Foundation

/-!
# The proposing step of queue-proportional sampling

In shuffled order every input that has a packet samples one output and proposes to it; what an
output keeps of its proposals is a parameter `keep`.  `propose_post` describes the outcome of
the loop without the loop: each output has folded `keep` over its `proposers`, and every
proposer has a packet for the output it sampled.
-/

/-- The random choices of one round: the shuffled inputs and the output each would sample. -/
structure Draws (n m : ℕ) where
  shuffle : Shuffle n
  sample : Fin n → Option (Fin m)

variable {n m : ℕ} {κ : Type}

/-- Every input with a packet samples an output for which it has one. -/
def GoodSample (len : Fin n → ℤ) (count : Fin n → Fin m → ℤ)
    (sample : Fin n → Option (Fin m)) : Prop :=
  ∀ i, len i ≠ 0 → ∃ o, sample i = some o ∧ 0 < count i o

/-- Step 1 of a round.  A sampled output that is out of range or without a packet fails an
    assertion. -/
def propose (len : Fin n → ℤ) (count : Fin n → Fin m → ℤ) (sample : Fin n → Option (Fin m))
    (keep : Fin n → Fin m → κ → κ) (inputs : List (Fin n)) (init : Fin m → κ) :
    Except Fault (Fin m → κ) :=
  inputs.foldlM (fun acc i =>
    if len i = 0 then .ok acc
    else
      match sample i with
      | none => .error .badSample
      | some o => do
        require (0 < count i o) .badSample
        .ok (Function.update acc o (keep i o (acc o)))) init

/-- The inputs that propose to an output, in the order in which they do. -/
def proposers (len : Fin n → ℤ) (sample : Fin n → Option (Fin m)) (inputs : List (Fin n))
    (o : Fin m) : List (Fin n) :=
  inputs.filter (fun i => decide (len i ≠ 0 ∧ sample i = some o))

section

variable {len : Fin n → ℤ} {count : Fin n → Fin m → ℤ} {sample : Fin n → Option (Fin m)}

@[simp] theorem mem_proposers {inputs : List (Fin n)} {o : Fin m} {i : Fin n} :
    i ∈ proposers len sample inputs o ↔ i ∈ inputs ∧ len i ≠ 0 ∧ sample i = some o := by
  simp [proposers]

/-- An input without packets proposes to nobody. -/
theorem proposers_cons_of_zero {inputs : List (Fin n)} {i : Fin n} (h : len i = 0) (o : Fin m) :
    proposers len sample (i :: inputs) o = proposers len sample inputs o := by
  simp [proposers, h]

/-- An input with packets proposes to the output it sampled... -/
theorem proposers_cons_self {inputs : List (Fin n)} {i : Fin n} {p : Fin m} (h : len i ≠ 0)
    (hs : sample i = some p) :
    proposers len sample (i :: inputs) p = i :: proposers len sample inputs p := by
  simp [proposers, h, hs]

/-- ...and to no other. -/
theorem proposers_cons_of_ne {inputs : List (Fin n)} {i : Fin n} {o p : Fin m}
    (hs : sample i = some p) (ho : o ≠ p) :
    proposers len sample (i :: inputs) o = proposers len sample inputs o := by
  simp [proposers, hs, Ne.symm ho]

theorem nodup_proposers {inputs : List (Fin n)} (h : inputs.Nodup) (o : Fin m) :
    (proposers len sample inputs o).Nodup := h.filter _

/-- Only the sample can fail the step; otherwise each output has folded `keep` over its
    proposers, all of which have a packet for it. -/
theorem propose_post (keep : Fin n → Fin m → κ → κ) (inputs : List (Fin n)) (init : Fin m → κ) :
    Post (propose len count sample keep inputs init)
      (fun e => e = .badSample ∧ ¬ GoodSample len count sample)
      (fun acc => (∀ o, acc o
          = (proposers len sample inputs o).foldl (fun k i => keep i o k) (init o)) ∧
        ∀ o, ∀ i ∈ proposers len sample inputs o, 0 < count i o) := by
  unfold propose
  induction inputs generalizing init with
  | nil => simp [proposers]
  | cons i rest ih =>
    rw [List.foldlM_cons]
    by_cases hlen : len i = 0
    · rw [if_pos hlen, ok_bind]
      simpa only [proposers_cons_of_zero hlen] using ih init
    · rw [if_neg hlen]
      cases hs : sample i with
      | none =>
        refine ⟨rfl, fun hgood => ?_⟩
        obtain ⟨o, ho, -⟩ := hgood i hlen
        rw [hs] at ho
        cases ho
      | some p =>
        by_cases hpos : 0 < count i p
        · simp only [require_pos hpos, ok_bind]
          refine (ih _).imp (fun acc hacc => ⟨fun o => ?_, fun o j hj => ?_⟩)
          · by_cases ho : o = p
            · subst ho
              rw [hacc.1, proposers_cons_self hlen hs, List.foldl_cons, Function.update_self]
            · rw [hacc.1, proposers_cons_of_ne hs ho, Function.update_of_ne ho]
          · by_cases ho : o = p
            · subst ho
              rw [proposers_cons_self hlen hs, List.mem_cons] at hj
              rcases hj with rfl | hj
              · exact hpos
              · exact hacc.2 o j hj
            · rw [proposers_cons_of_ne hs ho] at hj
              exact hacc.2 o j hj
        · -- The assertion fails, and the sample of `i` was not good.
          simp only [Foundation.require, if_neg hpos, error_bind]
          refine ⟨rfl, fun hgood => ?_⟩
          obtain ⟨o, ho, hpos'⟩ := hgood i hlen
          rw [hs, Option.some.injEq] at ho
          subst ho
          exact hpos hpos'

/-- Without packets nobody proposes. -/
theorem propose_of_no_packets (h : ∀ i, len i = 0) (keep : Fin n → Fin m → κ → κ)
    (inputs : List (Fin n)) (init : Fin m → κ) :
    propose len count sample keep inputs init = .ok init := by
  unfold propose
  induction inputs with
  | nil => rfl
  | cons i rest ih => rw [List.foldlM_cons, if_pos (h i), ok_bind, ih]

end

/-! ### What an output keeps -/

/-- If keeping a new proposal drops some of the old ones or none, what is kept in the end are
    distinct elements of the list of all proposals. -/
theorem foldl_keep_subperm (list : κ → List (Fin n)) (keep : Fin n → κ → κ)
    (h : ∀ i k, (list (keep i k)).Subperm (i :: list k)) (ins : List (Fin n)) (k : κ) :
    (list (ins.foldl (fun k i => keep i k) k)).Subperm (ins ++ list k) := by
  induction ins generalizing k with
  | nil => exact List.Subperm.refl _
  | cons i rest ih =>
    rw [List.foldl_cons]
    refine (ih _).trans ?_
    -- What `i` added stands behind `rest`; move it to the front.
    have hmove : (rest ++ i :: list k).Perm (i :: rest ++ list k) := List.perm_middle
    exact ((List.subperm_append_left rest).mpr (h i k)).trans hmove.subperm

/-- An output keeps the proposal it has unless the new one is `better`. -/
def challenge (better : Fin n → Fin n → Bool) (kept : Option (Fin n)) (i : Fin n) :
    Option (Fin n) :=
  match kept with
  | none => some i
  | some j => if better i j then some i else some j

/-- The proposal kept in the end is one of those made. -/
theorem mem_of_foldl_challenge (better : Fin n → Fin n → Bool) {ins : List (Fin n)}
    {kept : Option (Fin n)} {i : Fin n} (h : ins.foldl (challenge better) kept = some i) :
    i ∈ ins ∨ kept = some i := by
  induction ins generalizing kept with
  | nil => exact .inr h
  | cons j rest ih =>
    rw [List.foldl_cons] at h
    rcases ih h with hmem | hkept
    · exact .inl (List.mem_cons_of_mem j hmem)
    · -- The proposal kept after the challenge of `j` is `j` itself or the one kept before.
      cases kept with
      | none =>
        cases hkept
        exact .inl (List.mem_cons_self ..)
      | some k =>
        unfold challenge at hkept
        dsimp only at hkept
        split at hkept
        · cases hkept
          exact .inl (List.mem_cons_self ..)
        · exact .inr hkept

/-- No proposal made is higher than the one kept in the end. -/
theorem le_of_foldl_challenge {key : Fin n → ℤ} {ins : List (Fin n)} {kept : Option (Fin n)}
    {i : Fin n} (h : ins.foldl (challenge (fun i j => decide (key i > key j))) kept = some i) :
    (∀ j ∈ ins, key j ≤ key i) ∧ ∀ j, kept = some j → key j ≤ key i := by
  induction ins generalizing kept with
  | nil => exact ⟨fun j hj => absurd hj List.not_mem_nil, fun j hj => by cases hj.symm.trans h; rfl⟩
  | cons a rest ih =>
    rw [List.foldl_cons] at h
    obtain ⟨hrest, hstep⟩ := ih h
    have hle : key a ≤ key i ∧ ∀ j, kept = some j → key j ≤ key i := by
      cases kept with
      | none => exact ⟨hstep a rfl, fun j hj => by cases hj⟩
      | some k =>
        by_cases hlt : key a > key k
        · have hak := hstep a (by simp [challenge, hlt])
          exact ⟨hak, fun j hj => by cases hj; omega⟩
        · have hki := hstep k (by simp [challenge, hlt])
          exact ⟨by omega, fun j hj => by cases hj; exact hki⟩
    refine ⟨fun j hj => ?_, hle.2⟩
    rcases List.mem_cons.mp hj with rfl | hj
    · exact hle.1
    · exact hrest j hj

/-! ### The list of all proposals -/

/-- The pairs proposed to the outputs `outs`, where `ins out` are the inputs kept by `out`. -/
def proposalPairs (ins : Fin m → List (Fin n)) (outs : List (Fin m)) : List (Fin n × Fin m) :=
  outs.flatMap (fun out => (ins out).map (·, out))

@[simp] theorem mem_proposalPairs {ins : Fin m → List (Fin n)} {outs : List (Fin m)} {i : Fin n}
    {o : Fin m} : (i, o) ∈ proposalPairs ins outs ↔ o ∈ outs ∧ i ∈ ins o := by
  simp [proposalPairs]

theorem nodup_proposalPairs {ins : Fin m → List (Fin n)} {outs : List (Fin m)}
    (houts : outs.Nodup) (hins : ∀ o, (ins o).Nodup) : (proposalPairs ins outs).Nodup := by
  refine List.nodup_flatMap.mpr ⟨fun o _ => ?_, houts.imp ?_⟩
  · exact (hins o).map (fun a b h => congrArg Prod.fst h)
  · -- Pairs of different outputs differ in their second component.
    intro o o' hne p hp hp'
    obtain ⟨i, -, rfl⟩ := List.mem_map.mp hp
    obtain ⟨i', -, hi'⟩ := List.mem_map.mp hp'
    exact hne (congrArg Prod.snd hi').symm

/-- Distinct pairs that all have a packet depart at most as often as they have packets. -/
theorem count_le_of_nodup {gs : List (Fin n × Fin m)} {count : Fin n → Fin m → ℤ}
    (hnodup : gs.Nodup) (hpos : ∀ p ∈ gs, 0 < count p.1 p.2) (h0 : ∀ i o, 0 ≤ count i o)
    (i : Fin n) (o : Fin m) : (gs.count (i, o) : ℤ) ≤ count i o := by
  by_cases hmem : (i, o) ∈ gs
  · have hone := List.nodup_iff_count_le_one.mp hnodup (i, o)
    have hio : 0 < count i o := hpos _ hmem
    omega
  · rw [List.count_eq_zero_of_not_mem hmem]
    exact h0 i o

end SschedSimulator
