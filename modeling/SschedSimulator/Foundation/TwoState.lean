import SschedSimulator.Foundation.DrawStream

namespace SschedSimulator.Foundation

open MeasureTheory

/-!
# Two states and random draws

`step s x` is the state after the draw `x` in state `s`.

* `settle` — draws are taken until one leaves the state as it is;
* `settleProb_eq` — what the first draw does, and from it the probabilities to settle in a state;
* `stationary_iff` — a chain on two states has one stationary distribution, given by balance.
-/

variable {α : Type*}

/-- Take draws until one leaves the state as it is: the state in the end; the fuel bounds their
    number. -/
def settle (step : Bool → α → Bool) : ℕ → Bool → (ℕ → α) → Option Bool
  | 0, _, _ => none
  | fuel + 1, s, ω =>
    if step s (ω 0) ≠ s then settle step fuel (step s (ω 0)) (rest ω) else some (step s (ω 0))

/-- With enough fuel the draws end in state `b`. -/
def Settles (step : Bool → α → Bool) (s b : Bool) (ω : ℕ → α) : Prop :=
  ∃ fuel, settle step fuel s ω = some b

/-- The first draw leaves the state as it is, or the others decide. -/
theorem settles_iff {step : Bool → α → Bool} {s b : Bool} {ω : ℕ → α} :
    Settles step s b ω ↔
      (step s (ω 0) = s ∧ s = b) ∨ (step s (ω 0) ≠ s ∧ Settles step (!s) b (rest ω)) := by
  constructor
  · rintro ⟨fuel, hfuel⟩
    cases fuel with
    | zero => cases hfuel
    | succ fuel =>
      unfold settle at hfuel
      split at hfuel
      next hmove =>
        refine .inr ⟨hmove, fuel, ?_⟩
        rw [← hfuel, Bool.eq_not_of_ne hmove]
      next hstay =>
        rw [not_not] at hstay
        exact .inl ⟨hstay, hstay.symm.trans (Option.some.inj hfuel)⟩
  · rintro (⟨hstay, rfl⟩ | ⟨hmove, fuel, hfuel⟩)
    · refine ⟨1, ?_⟩
      rw [settle, if_neg (not_not.mpr hstay), hstay]
    · refine ⟨fuel + 1, ?_⟩
      rw [settle, if_pos hmove, Bool.eq_not_of_ne hmove]
      exact hfuel

section

variable [MeasurableSpace α] {step : Bool → α → Bool}

theorem measurableSet_settle (hstep : ∀ s, MeasurableSet {x | step s x = s}) (fuel : ℕ)
    (s b : Bool) : MeasurableSet {ω | settle step fuel s ω = some b} := by
  induction fuel generalizing s with
  | zero =>
    simp only [settle, reduceCtorEq]
    exact MeasurableSet.const False
  | succ fuel ih =>
    have hstay : MeasurableSet {ω : ℕ → α | step s (ω 0) = s} :=
      measurableSet_head (A := {x | step s x = s}) (hstep s)
    have hsplit : {ω | settle step (fuel + 1) s ω = some b}
        = ({ω | step s (ω 0) = s} ∩ {_ω | s = b})
          ∪ ({ω | step s (ω 0) = s}ᶜ ∩
            Set.preimage rest {ω | settle step fuel (!s) ω = some b}) := by
      ext ω
      by_cases hs : step s (ω 0) = s
      · simp [settle, hs]
      · have hmove := Bool.eq_not_of_ne hs
        simp [settle, hmove]
    rw [hsplit]
    exact (hstay.inter (MeasurableSet.const _)).union
      (hstay.compl.inter (measurable_rest (ih (!s))))

theorem measurableSet_settles (hstep : ∀ s, MeasurableSet {x | step s x = s}) (s b : Bool) :
    MeasurableSet {ω | Settles step s b ω} := by
  have hunion : {ω | Settles step s b ω} = ⋃ fuel, {ω | settle step fuel s ω = some b} := by
    ext ω
    simp [Settles]
  rw [hunion]
  exact MeasurableSet.iUnion (fun fuel => measurableSet_settle hstep fuel s b)

variable (μ : Measure α) [IsProbabilityMeasure μ]

/-- The probability that a draw in state `s` changes the state. -/
noncomputable def moveProb (step : Bool → α → Bool) (s : Bool) : ℝ := μ.real {x | step s x ≠ s}

/-- The state after one draw is the same... -/
theorem measureReal_step_self (hstep : ∀ s, MeasurableSet {x | step s x = s}) (s : Bool) :
    μ.real {x | step s x = s} = 1 - moveProb μ step s := by
  have hmove : MeasurableSet {x | step s x ≠ s} := (hstep s).compl
  rw [moveProb, ← probReal_compl_eq_one_sub hmove]
  congr 1
  ext x
  simp

omit [IsProbabilityMeasure μ] in
/-- ...or the other one. -/
theorem measureReal_step_not (s : Bool) : μ.real {x | step s x = !s} = moveProb μ step s := by
  rw [moveProb]
  congr 1
  ext x
  exact Bool.eq_not

/-- The probability that the draws in state `s` end in state `b`. -/
noncomputable def settleProb (step : Bool → α → Bool) (s b : Bool) : ℝ :=
  (drawStream μ).real {ω | Settles step s b ω}

/-- The first draw decides, or the following ones from the other state. -/
theorem settleProb_eq (hstep : ∀ s, MeasurableSet {x | step s x = s}) (s b : Bool) :
    settleProb μ step s b = moveProb μ step s * settleProb μ step (!s) b
      + if s = b then 1 - moveProb μ step s else 0 := by
  have hmove : MeasurableSet {x | step s x ≠ s} := (hstep s).compl
  have htail := measurableSet_settles hstep (!s) b
  have hstay : (drawStream μ).real {ω | ω 0 ∈ {x | step s x = s}} = 1 - moveProb μ step s := by
    rw [drawStream_real_head μ (hstep s), measureReal_step_self μ hstep s]
  -- The first draw moves to the other state, or it is the last one.
  by_cases hb : s = b
  · have hsplit : {ω | Settles step s b ω}
        = ({ω | ω 0 ∈ {x | step s x ≠ s}} ∩ Set.preimage rest {ω | Settles step (!s) b ω})
          ∪ {ω | ω 0 ∈ {x | step s x = s}} := by
      ext ω
      show Settles step s b ω ↔
        (step s (ω 0) ≠ s ∧ Settles step (!s) b (rest ω)) ∨ step s (ω 0) = s
      rw [settles_iff, or_comm, and_iff_left hb]
    have hdisj : Disjoint
        ({ω | ω 0 ∈ {x | step s x ≠ s}} ∩ Set.preimage rest {ω | Settles step (!s) b ω})
        {ω | ω 0 ∈ {x | step s x = s}} :=
      Set.disjoint_left.mpr (fun ω hω hstay => hω.1 hstay)
    rw [settleProb, hsplit,
      measureReal_union hdisj (measurableSet_head (hstep s)), hstay,
      drawStream_real_head_tail μ hmove htail, if_pos hb]
    rfl
  · have hsplit : {ω | Settles step s b ω}
        = {ω | ω 0 ∈ {x | step s x ≠ s}} ∩ Set.preimage rest {ω | Settles step (!s) b ω} := by
      ext ω
      show Settles step s b ω ↔ step s (ω 0) ≠ s ∧ Settles step (!s) b (rest ω)
      rw [settles_iff, or_iff_right (fun h => hb h.2)]
    rw [settleProb, hsplit, drawStream_real_head_tail μ hmove htail, if_neg hb, add_zero]
    rfl

/-- The draws end almost surely, unless each of them changes the state. -/
theorem settleProb_sum (hstep : ∀ s, MeasurableSet {x | step s x = s})
    (hmove : moveProb μ step true * moveProb μ step false ≠ 1) (s : Bool) :
    settleProb μ step s true + settleProb μ step s false = 1 := by
  have htt := settleProb_eq μ hstep true true
  have htf := settleProb_eq μ hstep true false
  have hft := settleProb_eq μ hstep false true
  have hff := settleProb_eq μ hstep false false
  simp only [Bool.not_true, Bool.not_false, if_true, Bool.false_eq_true, Bool.true_eq_false,
    if_false, add_zero] at htt htf hft hff
  generalize moveProb μ step true = a at *
  generalize moveProb μ step false = c at *
  -- The two sums solve `u = c * v + 1 - c` and `v = a * u + 1 - a`.
  have hu : (1 - a * c) * (settleProb μ step false true + settleProb μ step false false - 1)
      = 0 := by
    linear_combination hft + hff + c * htt + c * htf
  have hv : (1 - a * c) * (settleProb μ step true true + settleProb μ step true false - 1)
      = 0 := by
    linear_combination htt + htf + a * hft + a * hff
  have hne : 1 - a * c ≠ 0 := sub_ne_zero.mpr (Ne.symm hmove)
  cases s with
  | false => exact sub_eq_zero.mp ((mul_eq_zero.mp hu).resolve_left hne)
  | true => exact sub_eq_zero.mp ((mul_eq_zero.mp hv).resolve_left hne)

/-- The probability to settle in the other state. -/
theorem settleProb_false_true (hstep : ∀ s, MeasurableSet {x | step s x = s}) :
    (1 - moveProb μ step true * moveProb μ step false) * settleProb μ step false true
      = moveProb μ step false * (1 - moveProb μ step true) := by
  have htt := settleProb_eq μ hstep true true
  have hft := settleProb_eq μ hstep false true
  simp only [Bool.not_true, Bool.not_false, if_true, Bool.false_eq_true, if_false,
    add_zero] at htt hft
  linear_combination hft + moveProb μ step false * htt

theorem settleProb_true_false (hstep : ∀ s, MeasurableSet {x | step s x = s}) :
    (1 - moveProb μ step true * moveProb μ step false) * settleProb μ step true false
      = moveProb μ step true * (1 - moveProb μ step false) := by
  have htf := settleProb_eq μ hstep true false
  have hff := settleProb_eq μ hstep false false
  simp only [Bool.not_true, Bool.not_false, if_true, Bool.true_eq_false, if_false,
    add_zero] at htf hff
  linear_combination htf + moveProb μ step true * hff

end

/-! ### The stationary distribution -/

/-- Two states, `up` the probability to go up and `down` to go down: with the balance
    `r * down = (1 - r) * up` the distribution with weight `r` on the upper state is stationary,
    and no other is. -/
theorem stationary_iff {up down r p : ℝ} (hup : 0 < up) (hdown : 0 < down)
    (hbalance : r * down = (1 - r) * up) : p = p * (1 - down) + (1 - p) * up ↔ p = r := by
  have hne : up + down ≠ 0 := (add_pos hup hdown).ne'
  constructor
  · intro hp
    have hzero : (p - r) * (up + down) = 0 := by linear_combination hp - hbalance
    exact sub_eq_zero.mp ((mul_eq_zero.mp hzero).resolve_right hne)
  · rintro rfl
    linear_combination hbalance

end SschedSimulator.Foundation
