import Mathlib.Tactic.FieldSimp
import Mathlib.Tactic.LinearCombination
import SschedSimulator.Foundation.Outcome
import SschedSimulator.Foundation.TwoState

namespace SschedSimulator

open Foundation MeasureTheory

/-!
# `onoff_injection_model.cc` — bursty arrivals

A source is `ON` or `OFF` and changes between the two at random.  Its behaviour is given by one of
the probability `alpha` to leave `ON`, the probability `beta` to leave `OFF` and the mean length of
a burst; the constructors compute the other two from the rate.  The extended model goes on drawing
in one slot until a draw leaves the state as it is.  The arithmetic is exact; a division by zero
happens only for the rate `1` and for `beta = 0`.

* `OnOffKind.Agree` — how the three parameters depend on each other and on the rate;
* `derive_agree`, `derive_of_agree` — the constructors compute such parameters, and give them back
  from any one of them;
* `balances_onOff`, `balances_extended` — the transition probabilities of one slot;
* `delivers_rate` — in the long run the fraction of slots in `ON` is the rate.
-/

/-- The assertions of the constructors. -/
inductive InjectionFault where
  /-- `assert(num_nodes > 0)` -/
  | numNodes
  /-- `assert(rate > 0 && rate <= 1.0)` -/
  | rate
  /-- "Exact one argument of alpha, beta, or burst_size_avg should be set." -/
  | parameters
  /-- `assert(_alpha < 1.0)` and `assert(_beta < 1.0)` -/
  | probability
  deriving DecidableEq, Repr

/-- `InjectionState`. -/
inductive InjectionState where
  | off
  | on
  | onAndChange
  deriving DecidableEq, Repr

/-- `_alpha`, `_beta` and `_burst_size_avg`; among the arguments of a constructor `-1` stands for
    one that is not given. -/
@[ext] structure OnOffParameters (K : Type) where
  alpha : K
  beta : K
  burstSizeAvg : K

/-- The fields of both models. -/
structure OnOffInjection (K : Type) (n : ℕ) extends OnOffParameters K where
  rate : K
  initial : Fin n → Bool
  state : Fin n → Bool

section

variable {K : Type} [Field K] [LinearOrder K] {n : ℕ}

/-! ### The constructors -/

/-- Exactly one of the parameters is given. -/
def OnOffParameters.OneGiven (given : OnOffParameters K) : Prop :=
  (given.alpha = -1 ∧ given.beta = -1 ∧ given.burstSizeAvg > 1) ∨
  (given.alpha = -1 ∧ given.beta ≥ 0 ∧ given.beta < 1 ∧ given.burstSizeAvg = -1) ∨
  (given.alpha > 0 ∧ given.alpha ≤ 1 ∧ given.beta = -1 ∧ given.burstSizeAvg = -1)

instance (given : OnOffParameters K) : Decidable given.OneGiven :=
  inferInstanceAs (Decidable (
    (given.alpha = -1 ∧ given.beta = -1 ∧ given.burstSizeAvg > 1) ∨
    (given.alpha = -1 ∧ given.beta ≥ 0 ∧ given.beta < 1 ∧ given.burstSizeAvg = -1) ∨
    (given.alpha > 0 ∧ given.alpha ≤ 1 ∧ given.beta = -1 ∧ given.burstSizeAvg = -1)))

/-- What both constructors do; `derive` computes the parameters that are not given. -/
def OnOffInjection.constructWith (derive : K → OnOffParameters K → OnOffParameters K) (rate : K)
    (given : OnOffParameters K) (initial : Fin n → Bool) :
    Except InjectionFault (OnOffInjection K n) := do
  require (0 < n) .numNodes
  require (rate > 0 ∧ rate ≤ 1) .rate
  require given.OneGiven .parameters
  let parameters := derive rate given
  require (parameters.alpha < 1 ∧ parameters.beta < 1) .probability
  .ok { parameters with rate := rate, initial := initial, state := initial }

/-- The parameters that `OnOffInjectionModel::OnOffInjectionModel` computes. -/
def OnOffInjectionModel.derive (rate : K) (given : OnOffParameters K) : OnOffParameters K :=
  if given.alpha ≠ -1 then
    { alpha := given.alpha
      beta := (rate * given.alpha) / (1 - rate)
      burstSizeAvg := 1 / given.alpha }
  else if given.beta ≠ -1 then
    let alpha := (1 - rate) * given.beta / rate
    { alpha := alpha, beta := given.beta, burstSizeAvg := 1 / alpha }
  else
    let alpha := 1 / given.burstSizeAvg
    { alpha := alpha, beta := (rate * alpha) / (1 - rate), burstSizeAvg := given.burstSizeAvg }

/-- `OnOffInjectionModel::OnOffInjectionModel`. -/
def OnOffInjectionModel.construct (rate : K) (given : OnOffParameters K)
    (initial : Fin n → Bool) : Except InjectionFault (OnOffInjection K n) :=
  OnOffInjection.constructWith OnOffInjectionModel.derive rate given initial

/-- The parameters that `ExtendedOnOffInjection::ExtendedOnOffInjection` computes. -/
def ExtendedOnOffInjection.derive (rate : K) (given : OnOffParameters K) : OnOffParameters K :=
  let onOffRatio := rate / (1 - rate)
  if given.alpha ≠ -1 then
    let x := (1 - given.alpha) / given.alpha
    { alpha := given.alpha
      beta := onOffRatio / (onOffRatio + x)
      burstSizeAvg := 1 / given.alpha }
  else if given.beta ≠ -1 then
    let offSize := (1 - given.beta) / given.beta
    { alpha := 1 / (1 + onOffRatio * offSize)
      beta := given.beta
      burstSizeAvg := onOffRatio * offSize + 1 }
  else
    let alpha := 1 / given.burstSizeAvg
    let x := (1 - alpha) / alpha
    { alpha := alpha, beta := onOffRatio / (onOffRatio + x), burstSizeAvg := given.burstSizeAvg }

/-- `ExtendedOnOffInjection::ExtendedOnOffInjection`. -/
def ExtendedOnOffInjection.construct (rate : K) (given : OnOffParameters K)
    (initial : Fin n → Bool) : Except InjectionFault (OnOffInjection K n) :=
  OnOffInjection.constructWith ExtendedOnOffInjection.derive rate given initial

/-! ### Injecting -/

/-- The state after one draw. -/
def OnOffParameters.flip (p : OnOffParameters K) (state : Bool) (draw : K) : Bool :=
  if state then decide (draw ≥ p.alpha) else decide (draw < p.beta)

/-- `OnOffInjectionModel::inject`. -/
def OnOffInjectionModel.inject (source : ℤ) (draw : K) (m : OnOffInjection K n) :
    InjectionState × OnOffInjection K n :=
  if h : source < 0 ∨ source ≥ n then (.off, m)
  else
    let i : Fin n := ⟨source.toNat, by omega⟩
    let state := m.flip (m.state i) draw
    (if state then .on else .off, { m with state := Function.update m.state i state })

/-- The `do` loop of `ExtendedOnOffInjection::inject`: the state in the end, and whether it went
    from `OFF` to `ON`.  The fuel bounds the number of draws. -/
def OnOffParameters.flipLoop (p : OnOffParameters K) :
    ℕ → Bool → Bool → (ℕ → K) → Option (Bool × Bool)
  | 0, _, _, _ => none
  | fuel + 1, stateBk, changed, draws =>
    let state := p.flip stateBk (draws 0)
    let changed := if stateBk = false ∧ state = true then true else changed
    if state ≠ stateBk then p.flipLoop fuel state changed (rest draws) else some (state, changed)

/-- `ExtendedOnOffInjection::inject`. -/
def ExtendedOnOffInjection.inject (source : ℤ) (fuel : ℕ) (draws : ℕ → K)
    (m : OnOffInjection K n) : Option (InjectionState × OnOffInjection K n) :=
  if h : source < 0 ∨ source ≥ n then some (.off, m)
  else
    let i : Fin n := ⟨source.toNat, by omega⟩
    (m.flipLoop fuel (m.state i) false draws).map (fun (state, changed) =>
      (if state then (if changed then .onAndChange else .on) else .off,
        { m with state := Function.update m.state i state }))

/-- The two models. -/
inductive OnOffKind where
  | onOff
  | extended
  deriving DecidableEq, Repr

namespace OnOffKind

/-- The parameters that the constructor computes. -/
def derive : OnOffKind → K → OnOffParameters K → OnOffParameters K
  | onOff => OnOffInjectionModel.derive
  | extended => ExtendedOnOffInjection.derive

/-- The constructor. -/
def construct : OnOffKind → K → OnOffParameters K → (Fin n → Bool) →
    Except InjectionFault (OnOffInjection K n)
  | onOff => OnOffInjectionModel.construct
  | extended => ExtendedOnOffInjection.construct

/-- The parameters belong together: the transitions balance at the rate, and the mean length of a
    burst is that of the stays in `ON`. -/
structure Agree (kind : OnOffKind) (rate : K) (p : OnOffParameters K) : Prop where
  alpha_pos : 0 < p.alpha
  alpha_lt : p.alpha < 1
  beta_pos : 0 < p.beta
  beta_lt : p.beta < 1
  burst : p.burstSizeAvg * p.alpha = 1
  balance : match kind with
    | onOff => rate * p.alpha = (1 - rate) * p.beta
    | extended => rate * (p.alpha * (1 - p.beta)) = (1 - rate) * (p.beta * (1 - p.alpha))

/-! ### The parameters -/

variable [IsStrictOrderedRing K]

/-- A burst lasts longer than one slot on average. -/
theorem Agree.one_lt_burst {kind : OnOffKind} {rate : K} {p : OnOffParameters K}
    (h : kind.Agree rate p) : 1 < p.burstSizeAvg := by
  have hburst := eq_div_of_mul_eq h.alpha_pos.ne' h.burst
  rw [hburst]
  exact one_lt_one_div h.alpha_pos h.alpha_lt

theorem ne_neg_one_of_pos {x : K} (hx : 0 < x) : x ≠ -1 := by
  intro he
  rw [he] at hx
  linarith

section

variable {rate alpha beta : K}

/-- `beta` of the first model, from `alpha`... -/
theorem beta_eq_iff_onOff (h1 : rate < 1) :
    beta = (rate * alpha) / (1 - rate) ↔ rate * alpha = (1 - rate) * beta := by
  rw [eq_div_iff (sub_pos.mpr h1).ne', mul_comm beta, eq_comm]

omit [IsStrictOrderedRing K] in
/-- ...and `alpha` from `beta`. -/
theorem alpha_eq_iff_onOff (h0 : 0 < rate) :
    alpha = (1 - rate) * beta / rate ↔ rate * alpha = (1 - rate) * beta := by
  rw [eq_div_iff h0.ne', mul_comm alpha]

/-- `beta` of the extended model, from `alpha`... -/
theorem beta_eq_iff_extended (h0 : 0 < rate) (h1 : rate < 1) (ha : 0 < alpha) (ha' : alpha < 1) :
    beta = rate / (1 - rate) / (rate / (1 - rate) + (1 - alpha) / alpha) ↔
      rate * (alpha * (1 - beta)) = (1 - rate) * (beta * (1 - alpha)) := by
  have hrate := sub_pos.mpr h1
  have hsum : 0 < rate / (1 - rate) + (1 - alpha) / alpha :=
    add_pos (div_pos h0 hrate) (div_pos (sub_pos.mpr ha') ha)
  rw [eq_div_iff hsum.ne']
  have ha0 := ha.ne'
  have hr0 := hrate.ne'
  constructor
  · intro h
    field_simp at h
    linear_combination -h
  · intro h
    field_simp
    linear_combination -h

/-- ...and `alpha` from `beta`. -/
theorem alpha_eq_iff_extended (h0 : 0 < rate) (h1 : rate < 1) (hb : 0 < beta) (hb' : beta < 1) :
    alpha = 1 / (1 + rate / (1 - rate) * ((1 - beta) / beta)) ↔
      rate * (alpha * (1 - beta)) = (1 - rate) * (beta * (1 - alpha)) := by
  have hrate := sub_pos.mpr h1
  have hsum : 0 < 1 + rate / (1 - rate) * ((1 - beta) / beta) :=
    add_pos one_pos (mul_pos (div_pos h0 hrate) (div_pos (sub_pos.mpr hb') hb))
  rw [eq_div_iff hsum.ne']
  have hb0 := hb.ne'
  have hr0 := hrate.ne'
  constructor
  · intro h
    field_simp at h
    linear_combination h
  · intro h
    field_simp
    linear_combination h

/-- Parameters with `beta` computed from `alpha` by the first model... -/
theorem agree_of_alpha_onOff (h0 : 0 < rate) (h1 : rate < 1) {p : OnOffParameters K}
    (ha : 0 < p.alpha) (ha' : p.alpha < 1) (hb' : p.beta < 1)
    (hburst : p.burstSizeAvg * p.alpha = 1) (hbeta : p.beta = (rate * p.alpha) / (1 - rate)) :
    onOff.Agree rate p where
  alpha_pos := ha
  alpha_lt := ha'
  beta_pos := hbeta ▸ div_pos (mul_pos h0 ha) (sub_pos.mpr h1)
  beta_lt := hb'
  burst := hburst
  balance := (beta_eq_iff_onOff h1).mp hbeta

/-- ...and by the extended one. -/
theorem agree_of_alpha_extended (h0 : 0 < rate) (h1 : rate < 1) {p : OnOffParameters K}
    (ha : 0 < p.alpha) (ha' : p.alpha < 1) (hb' : p.beta < 1)
    (hburst : p.burstSizeAvg * p.alpha = 1)
    (hbeta : p.beta
      = rate / (1 - rate) / (rate / (1 - rate) + (1 - p.alpha) / p.alpha)) :
    extended.Agree rate p where
  alpha_pos := ha
  alpha_lt := ha'
  beta_pos := by
    have hratio := div_pos h0 (sub_pos.mpr h1)
    rw [hbeta]
    exact div_pos hratio (add_pos hratio (div_pos (sub_pos.mpr ha') ha))
  beta_lt := hb'
  burst := hburst
  balance := (beta_eq_iff_extended h0 h1 ha ha').mp hbeta

/-- Parameters with the others computed from `beta` by the first model... -/
theorem agree_of_beta_onOff (h0 : 0 < rate) (h1 : rate < 1) (hb : 0 < beta) (hb' : beta < 1)
    (ha' : (1 - rate) * beta / rate < 1) :
    onOff.Agree rate ⟨(1 - rate) * beta / rate, beta, 1 / ((1 - rate) * beta / rate)⟩ where
  alpha_pos := div_pos (mul_pos (sub_pos.mpr h1) hb) h0
  alpha_lt := ha'
  beta_pos := hb
  beta_lt := hb'
  burst := one_div_mul_cancel (div_pos (mul_pos (sub_pos.mpr h1) hb) h0).ne'
  balance := (alpha_eq_iff_onOff h0).mp rfl

/-- ...and by the extended one. -/
theorem agree_of_beta_extended (h0 : 0 < rate) (h1 : rate < 1) (hb : 0 < beta) (hb' : beta < 1) :
    extended.Agree rate ⟨1 / (1 + rate / (1 - rate) * ((1 - beta) / beta)), beta,
      rate / (1 - rate) * ((1 - beta) / beta) + 1⟩ := by
  have hoff : 0 < rate / (1 - rate) * ((1 - beta) / beta) :=
    mul_pos (div_pos h0 (sub_pos.mpr h1)) (div_pos (sub_pos.mpr hb') hb)
  have hsum := add_pos one_pos hoff
  exact {
    alpha_pos := one_div_pos.mpr hsum
    alpha_lt := (div_lt_one hsum).mpr (lt_add_of_pos_right 1 hoff)
    beta_pos := hb
    beta_lt := hb'
    burst := by
      dsimp only
      rw [add_comm _ (1 : K), mul_one_div_cancel hsum.ne']
    balance := (alpha_eq_iff_extended h0 h1 hb hb').mp rfl }

end

/-- Positive parameters below one that are computed from one of them belong together. -/
theorem derive_agree (kind : OnOffKind) {rate : K} (h0 : 0 < rate) (h1 : rate < 1)
    {given : OnOffParameters K} (hone : given.OneGiven)
    (hpos : 0 < given.alpha ∨ 0 < given.beta ∨ 0 < given.burstSizeAvg)
    (halpha : (kind.derive rate given).alpha < 1) (hbeta : (kind.derive rate given).beta < 1) :
    kind.Agree rate (kind.derive rate given) := by
  obtain ⟨alpha, beta, burst⟩ := given
  simp only [OnOffParameters.OneGiven] at hone hpos
  rcases hone with ⟨rfl, rfl, hb⟩ | ⟨rfl, -, hb', rfl⟩ | ⟨ha, ha', rfl, rfl⟩
  · -- From the mean length of a burst.
    have hburst : 0 < burst := one_pos.trans hb
    have ha := one_div_pos.mpr hburst
    have hmean := mul_one_div_cancel hburst.ne'
    cases kind with
    | onOff =>
      simp only [derive, OnOffInjectionModel.derive, ne_eq, not_true_eq_false, if_false]
        at halpha hbeta ⊢
      exact agree_of_alpha_onOff h0 h1 ha halpha hbeta hmean rfl
    | extended =>
      simp only [derive, ExtendedOnOffInjection.derive, ne_eq, not_true_eq_false, if_false]
        at halpha hbeta ⊢
      exact agree_of_alpha_extended h0 h1 ha halpha hbeta hmean rfl
  · -- From the probability to leave `OFF`.
    have hb : 0 < beta := (hpos.resolve_left (by linarith)).resolve_right (by linarith)
    have hne := ne_neg_one_of_pos hb
    cases kind with
    | onOff =>
      simp only [derive, OnOffInjectionModel.derive, ne_eq, not_true_eq_false, if_false, hne,
        not_false_eq_true, if_true] at halpha ⊢
      exact agree_of_beta_onOff h0 h1 hb hb' halpha
    | extended =>
      simp only [derive, ExtendedOnOffInjection.derive, ne_eq, not_true_eq_false, if_false, hne,
        not_false_eq_true, if_true]
      exact agree_of_beta_extended h0 h1 hb hb'
  · -- From the probability to leave `ON`.
    have hne := ne_neg_one_of_pos ha
    have hmean := one_div_mul_cancel ha.ne'
    cases kind with
    | onOff =>
      simp only [derive, OnOffInjectionModel.derive, ne_eq, hne, not_false_eq_true, if_true]
        at halpha hbeta ⊢
      exact agree_of_alpha_onOff h0 h1 ha halpha hbeta hmean rfl
    | extended =>
      simp only [derive, ExtendedOnOffInjection.derive, ne_eq, hne, not_false_eq_true, if_true]
        at halpha hbeta ⊢
      exact agree_of_alpha_extended h0 h1 ha halpha hbeta hmean rfl

/-- Parameters that belong together are computed from each of them. -/
theorem derive_of_agree (kind : OnOffKind) {rate : K} (h0 : 0 < rate) (h1 : rate < 1)
    {p : OnOffParameters K} (h : kind.Agree rate p) :
    kind.derive rate ⟨p.alpha, -1, -1⟩ = p ∧ kind.derive rate ⟨-1, p.beta, -1⟩ = p ∧
      kind.derive rate ⟨-1, -1, p.burstSizeAvg⟩ = p := by
  have ha := ne_neg_one_of_pos h.alpha_pos
  have hb := ne_neg_one_of_pos h.beta_pos
  have hburst := eq_div_of_mul_eq h.alpha_pos.ne' h.burst
  have halpha : p.alpha = 1 / p.burstSizeAvg := by rw [hburst, one_div_one_div]
  obtain ⟨alpha, beta, burst⟩ := p
  dsimp only at ha hb hburst halpha ⊢
  -- Each of the parameters determines the other two.
  cases kind with
  | onOff =>
    have hbeta := (beta_eq_iff_onOff h1).mpr h.balance
    have halpha' := (alpha_eq_iff_onOff h0).mpr h.balance
    dsimp only at hbeta halpha'
    refine ⟨?_, ?_, ?_⟩
    · simp only [derive, OnOffInjectionModel.derive, ne_eq, ha, not_false_eq_true, if_true]
      rw [← hbeta, ← hburst]
    · simp only [derive, OnOffInjectionModel.derive, ne_eq, hb, not_true_eq_false, if_false,
        not_false_eq_true, if_true]
      rw [← halpha', ← hburst]
    · simp only [derive, OnOffInjectionModel.derive, ne_eq, not_true_eq_false, if_false]
      rw [← halpha, ← hbeta]
  | extended =>
    have hbeta := (beta_eq_iff_extended h0 h1 h.alpha_pos h.alpha_lt).mpr h.balance
    have halpha' := (alpha_eq_iff_extended h0 h1 h.beta_pos h.beta_lt).mpr h.balance
    dsimp only at hbeta halpha'
    refine ⟨?_, ?_, ?_⟩
    · simp only [derive, ExtendedOnOffInjection.derive, ne_eq, ha, not_false_eq_true, if_true]
      rw [← hbeta, ← hburst]
    · simp only [derive, ExtendedOnOffInjection.derive, ne_eq, hb, not_true_eq_false, if_false,
        not_false_eq_true, if_true]
      rw [← halpha', add_comm, hburst, halpha', one_div_one_div]
    · simp only [derive, ExtendedOnOffInjection.derive, ne_eq, not_true_eq_false, if_false]
      rw [← halpha, ← hbeta]

omit [IsStrictOrderedRing K] in
/-- The constructors differ in the parameters they compute. -/
theorem construct_eq (kind : OnOffKind) (rate : K) (given : OnOffParameters K)
    (initial : Fin n → Bool) :
    kind.construct rate given initial
      = OnOffInjection.constructWith kind.derive rate given initial := by
  cases kind <;> rfl

omit [IsStrictOrderedRing K] in
/-- What a constructor accepts, and what it makes of it. -/
theorem construct_eq_ok_iff {kind : OnOffKind} {rate : K} {given : OnOffParameters K}
    {initial : Fin n → Bool} {m : OnOffInjection K n} :
    kind.construct rate given initial = .ok m ↔
      0 < n ∧ (rate > 0 ∧ rate ≤ 1) ∧ given.OneGiven ∧
        ((kind.derive rate given).alpha < 1 ∧ (kind.derive rate given).beta < 1) ∧
        m = { kind.derive rate given with rate := rate, initial := initial, state := initial } := by
  rw [construct_eq, OnOffInjection.constructWith]
  constructor
  · intro h
    obtain ⟨_, hn, h⟩ := bind_eq_ok.mp h
    obtain ⟨_, hrate, h⟩ := bind_eq_ok.mp h
    obtain ⟨_, hone, h⟩ := bind_eq_ok.mp h
    obtain ⟨_, hlt, h⟩ := bind_eq_ok.mp h
    exact ⟨of_require hn, of_require hrate, of_require hone, of_require hlt,
      (Except.ok.inj h).symm⟩
  · rintro ⟨hn, hrate, hone, hlt, rfl⟩
    simp only [require_pos hn, require_pos hrate, require_pos hone, require_pos hlt, ok_bind]

/-- Each of the three parameters of a model builds the same model again. -/
theorem construct_of_agree {kind : OnOffKind} {rate : K} (hlt : rate < 1)
    {given : OnOffParameters K} {initial : Fin n → Bool} {m : OnOffInjection K n}
    (hm : kind.construct rate given initial = .ok m) (h : kind.Agree rate m.toOnOffParameters) :
    kind.construct rate ⟨m.alpha, -1, -1⟩ initial = .ok m ∧
      kind.construct rate ⟨-1, m.beta, -1⟩ initial = .ok m ∧
      kind.construct rate ⟨-1, -1, m.burstSizeAvg⟩ initial = .ok m := by
  obtain ⟨hn, hrate, -, -, hfields⟩ := construct_eq_ok_iff.mp hm
  obtain ⟨halpha, hbeta, hburst⟩ := kind.derive_of_agree hrate.1 hlt h
  have hsame : m = { m.toOnOffParameters with
      rate := rate, initial := initial, state := initial } := by
    rw [hfields]
  refine ⟨construct_eq_ok_iff.mpr ?_, construct_eq_ok_iff.mpr ?_, construct_eq_ok_iff.mpr ?_⟩
  · rw [halpha]
    exact ⟨hn, hrate, .inr (.inr ⟨h.alpha_pos, h.alpha_lt.le, rfl, rfl⟩),
      ⟨h.alpha_lt, h.beta_lt⟩, hsame⟩
  · rw [hbeta]
    exact ⟨hn, hrate, .inr (.inl ⟨rfl, h.beta_pos.le, h.beta_lt, rfl⟩),
      ⟨h.alpha_lt, h.beta_lt⟩, hsame⟩
  · rw [hburst]
    exact ⟨hn, hrate, .inl ⟨rfl, rfl, h.one_lt_burst⟩, ⟨h.alpha_lt, h.beta_lt⟩, hsame⟩

end OnOffKind

end

/-! ### The transitions of one slot -/

section

variable {n : ℕ}

/-- Source `i` in the state `s`. -/
def OnOffInjection.setState {K : Type} (m : OnOffInjection K n) (i : Fin n) (s : Bool) :
    OnOffInjection K n :=
  { m with state := Function.update m.state i s }

/-- The probability that a call of `inject` for source `i` leaves it in the state `b`. -/
noncomputable def OnOffKind.slotProb (kind : OnOffKind) (m : OnOffInjection ℝ n) (i : Fin n)
    (b : Bool) : ℝ :=
  match kind with
  | .onOff => (uniformDraw 1).real
      {draw | (OnOffInjectionModel.inject (i : ℕ) draw m).2.state i = b}
  | .extended => (drawStream (uniformDraw 1)).real
      {draws | ∃ fuel r, ExtendedOnOffInjection.inject (i : ℕ) fuel draws m = some r ∧
        r.2.state i = b}

theorem measurableSet_flip (p : OnOffParameters ℝ) (s : Bool) :
    MeasurableSet {draw | p.flip s draw = s} := by
  cases s with
  | false =>
    have hset : {draw | p.flip false draw = false} = Set.Ici p.beta := by
      ext draw
      simp [OnOffParameters.flip]
    rw [hset]
    exact measurableSet_Ici
  | true =>
    have hset : {draw | p.flip true draw = true} = Set.Ici p.alpha := by
      ext draw
      simp [OnOffParameters.flip]
    rw [hset]
    exact measurableSet_Ici

/-- A draw leaves `ON` with the probability `alpha`... -/
theorem moveProb_true {p : OnOffParameters ℝ} (h0 : 0 ≤ p.alpha) (h1 : p.alpha ≤ 1) :
    moveProb (uniformDraw 1) p.flip true = p.alpha := by
  have hset : {draw | p.flip true draw ≠ true} = {draw | draw < p.alpha} := by
    ext draw
    simp [OnOffParameters.flip]
  rw [moveProb, hset, uniformDraw_real_lt h0 h1]

/-- ...and `OFF` with the probability `beta`. -/
theorem moveProb_false {p : OnOffParameters ℝ} (h0 : 0 ≤ p.beta) (h1 : p.beta ≤ 1) :
    moveProb (uniformDraw 1) p.flip false = p.beta := by
  have hset : {draw | p.flip false draw ≠ false} = {draw | draw < p.beta} := by
    ext draw
    simp [OnOffParameters.flip]
  rw [moveProb, hset, uniformDraw_real_lt h0 h1]

/-- In a slot of the first model one draw decides. -/
theorem OnOffInjectionModel.inject_state {K : Type} [Field K] [LinearOrder K] (i : Fin n) (draw : K)
    (m : OnOffInjection K n) :
    (OnOffInjectionModel.inject (i : ℕ) draw m).2.state i = m.flip (m.state i) draw := by
  have hi : ¬ (((i : ℕ) : ℤ) < 0 ∨ ((i : ℕ) : ℤ) ≥ n) := by omega
  rw [inject, dif_neg hi]
  exact Function.update_self ..

/-- A source is injected a packet exactly in the state `ON`. -/
theorem OnOffInjectionModel.inject_eq_off_iff {K : Type} [Field K] [LinearOrder K] (i : Fin n)
    (draw : K) (m : OnOffInjection K n) :
    (OnOffInjectionModel.inject (i : ℕ) draw m).1 = .off ↔
      (OnOffInjectionModel.inject (i : ℕ) draw m).2.state i = false := by
  have hi : ¬ (((i : ℕ) : ℤ) < 0 ∨ ((i : ℕ) : ℤ) ≥ n) := by omega
  rw [OnOffInjectionModel.inject_state, inject, dif_neg hi]
  show (if m.flip (m.state i) draw then InjectionState.on else .off) = .off ↔ _
  cases m.flip (m.state i) draw <;> simp

/-- The loop of the extended model settles, whatever `changed` was before. -/
theorem OnOffParameters.map_flipLoop {K : Type} [Field K] [LinearOrder K] (p : OnOffParameters K)
    (fuel : ℕ) (s changed : Bool) (draws : ℕ → K) :
    (p.flipLoop fuel s changed draws).map Prod.fst = settle p.flip fuel s draws := by
  induction fuel generalizing s changed draws with
  | zero => rfl
  | succ fuel ih =>
    simp only [flipLoop, settle]
    split
    · exact ih _ _ _
    · rfl

theorem ExtendedOnOffInjection.inject_state_iff {K : Type} [Field K] [LinearOrder K] (i : Fin n)
    (draws : ℕ → K) (m : OnOffInjection K n) (b : Bool) :
    (∃ fuel r, ExtendedOnOffInjection.inject (i : ℕ) fuel draws m = some r ∧ r.2.state i = b) ↔
      Settles m.flip (m.state i) b draws := by
  have hi : ¬ (((i : ℕ) : ℤ) < 0 ∨ ((i : ℕ) : ℤ) ≥ n) := by omega
  have hmem : (⟨((i : ℕ) : ℤ).toNat, by omega⟩ : Fin n) = i := Fin.ext (Int.toNat_natCast i)
  refine exists_congr (fun fuel => ?_)
  rw [← m.map_flipLoop fuel (m.state i) false, inject, dif_neg hi, Option.map_eq_some_iff]
  dsimp only
  rw [hmem]
  constructor
  · rintro ⟨r, hr, rfl⟩
    obtain ⟨loop, hloop, rfl⟩ := Option.map_eq_some_iff.mp hr
    refine ⟨loop, hloop, ?_⟩
    show loop.1 = Function.update m.state i loop.1 i
    rw [Function.update_self]
  · rintro ⟨loop, hloop, rfl⟩
    exact ⟨_, Option.map_eq_some_iff.mpr ⟨loop, hloop, rfl⟩, Function.update_self ..⟩

/-- In the extended model it is told as well whether the burst is a new one. -/
theorem ExtendedOnOffInjection.inject_eq_off_iff {K : Type} [Field K] [LinearOrder K] {i : Fin n}
    {fuel : ℕ} {draws : ℕ → K} {m : OnOffInjection K n} {r : InjectionState × OnOffInjection K n}
    (h : ExtendedOnOffInjection.inject (i : ℕ) fuel draws m = some r) :
    r.1 = .off ↔ r.2.state i = false := by
  have hi : ¬ (((i : ℕ) : ℤ) < 0 ∨ ((i : ℕ) : ℤ) ≥ n) := by omega
  rw [inject, dif_neg hi] at h
  obtain ⟨⟨state, changed⟩, -, rfl⟩ := Option.map_eq_some_iff.mp h
  show (if state then (if changed then InjectionState.onAndChange else .on) else .off) = .off ↔
    Function.update m.state i state i = false
  rw [Function.update_self]
  cases state <;> cases changed <;> simp

namespace OnOffKind

@[simp] theorem setState_state {K : Type} (m : OnOffInjection K n) (i : Fin n) (s : Bool) :
    (m.setState i s).state i = s := Function.update_self ..

/-- The transitions of a slot of source `i`: they are probabilities, neither of the two changes is
    excluded, and the changes balance at the rate. -/
structure Balances (kind : OnOffKind) (rate : ℝ) (m : OnOffInjection ℝ n) (i : Fin n) : Prop where
  sum : ∀ s, kind.slotProb (m.setState i s) i true + kind.slotProb (m.setState i s) i false = 1
  up_pos : 0 < kind.slotProb (m.setState i false) i true
  down_pos : 0 < kind.slotProb (m.setState i true) i false
  balance : rate * kind.slotProb (m.setState i true) i false
    = (1 - rate) * kind.slotProb (m.setState i false) i true

theorem slotProb_onOff (m : OnOffInjection ℝ n) (i : Fin n) (s b : Bool) :
    onOff.slotProb (m.setState i s) i b = (uniformDraw 1).real {draw | m.flip s draw = b} := by
  show (uniformDraw 1).real _ = _
  simp only [OnOffInjectionModel.inject_state, setState_state]
  rfl

theorem slotProb_extended (m : OnOffInjection ℝ n) (i : Fin n) (s b : Bool) :
    extended.slotProb (m.setState i s) i b = settleProb (uniformDraw 1) m.flip s b := by
  show (drawStream (uniformDraw 1)).real _ = _
  simp only [ExtendedOnOffInjection.inject_state_iff, setState_state]
  rfl

/-- In the first model the transitions have the probabilities `alpha` and `beta`. -/
theorem balances_onOff {rate : ℝ} {m : OnOffInjection ℝ n}
    (h : onOff.Agree rate m.toOnOffParameters) (i : Fin n) : onOff.Balances rate m i := by
  have hup : onOff.slotProb (m.setState i false) i true = m.beta :=
    (slotProb_onOff m i false true).trans ((measureReal_step_not _ false).trans
      (moveProb_false h.beta_pos.le h.beta_lt.le))
  have hdown : onOff.slotProb (m.setState i true) i false = m.alpha :=
    (slotProb_onOff m i true false).trans ((measureReal_step_not _ true).trans
      (moveProb_true h.alpha_pos.le h.alpha_lt.le))
  have hstay : ∀ s, onOff.slotProb (m.setState i s) i s
      = 1 - moveProb (uniformDraw 1) m.flip s :=
    fun s => (slotProb_onOff m i s s).trans
      (measureReal_step_self _ (measurableSet_flip m.toOnOffParameters) s)
  refine ⟨fun s => ?_, hup ▸ h.beta_pos, hdown ▸ h.alpha_pos, ?_⟩
  · cases s with
    | false => rw [hup, hstay, moveProb_false h.beta_pos.le h.beta_lt.le, add_sub_cancel]
    | true => rw [hdown, hstay, moveProb_true h.alpha_pos.le h.alpha_lt.le, sub_add_cancel]
  · rw [hup, hdown]
    exact h.balance

/-- In the extended model the flips of one slot add up. -/
theorem balances_extended {rate : ℝ} {m : OnOffInjection ℝ n}
    (h : extended.Agree rate m.toOnOffParameters) (i : Fin n) : extended.Balances rate m i := by
  have hmeas := measurableSet_flip m.toOnOffParameters
  have hprod : m.alpha * m.beta < 1 :=
    mul_lt_one_of_nonneg_of_lt_one_left h.alpha_pos.le h.alpha_lt h.beta_lt.le
  have hpos := sub_pos.mpr hprod
  have hup := settleProb_false_true (uniformDraw 1) hmeas
  have hdown := settleProb_true_false (uniformDraw 1) hmeas
  rw [moveProb_true h.alpha_pos.le h.alpha_lt.le, moveProb_false h.beta_pos.le h.beta_lt.le,
    ← slotProb_extended m i] at hup hdown
  refine ⟨fun s => ?_, ?_, ?_, ?_⟩
  · rw [slotProb_extended, slotProb_extended]
    apply settleProb_sum _ hmeas
    rw [moveProb_true h.alpha_pos.le h.alpha_lt.le, moveProb_false h.beta_pos.le h.beta_lt.le]
    exact hprod.ne
  · apply (mul_pos_iff_of_pos_left hpos).mp
    rw [hup]
    exact mul_pos h.beta_pos (sub_pos.mpr h.alpha_lt)
  · apply (mul_pos_iff_of_pos_left hpos).mp
    rw [hdown]
    exact mul_pos h.alpha_pos (sub_pos.mpr h.beta_lt)
  · have hbalance := h.balance
    apply mul_left_cancel₀ hpos.ne'
    linear_combination rate * hdown - (1 - rate) * hup + hbalance

theorem balances_of_agree (kind : OnOffKind) {rate : ℝ} {m : OnOffInjection ℝ n}
    (h : kind.Agree rate m.toOnOffParameters) (i : Fin n) : kind.Balances rate m i := by
  cases kind with
  | onOff => exact balances_onOff h i
  | extended => exact balances_extended h i

/-- For every rate below one and every parameterisation that the constructor accepts: the
    transitions of a slot of source `i` have the rate as their only stationary probability of
    `ON`, and each of the three parameters of the model builds it again. -/
theorem delivers_rate (kind : OnOffKind) {rate : ℝ} (hlt : rate < 1)
    {given : OnOffParameters ℝ}
    (hpos : 0 < given.alpha ∨ 0 < given.beta ∨ 0 < given.burstSizeAvg) {initial : Fin n → Bool}
    {m : OnOffInjection ℝ n} (hm : kind.construct rate given initial = .ok m) (i : Fin n) :
    (∀ s, kind.slotProb (m.setState i s) i true + kind.slotProb (m.setState i s) i false = 1) ∧
    (∀ p, p = p * kind.slotProb (m.setState i true) i true
        + (1 - p) * kind.slotProb (m.setState i false) i true ↔ p = rate) ∧
    kind.construct rate ⟨m.alpha, -1, -1⟩ initial = .ok m ∧
    kind.construct rate ⟨-1, m.beta, -1⟩ initial = .ok m ∧
    kind.construct rate ⟨-1, -1, m.burstSizeAvg⟩ initial = .ok m := by
  obtain ⟨-, hrate, hone, ⟨halpha, hbeta⟩, hfields⟩ := construct_eq_ok_iff.mp hm
  have hagree : kind.Agree rate m.toOnOffParameters := by
    rw [hfields]
    exact kind.derive_agree hrate.1 hlt hone hpos halpha hbeta
  have hslot := kind.balances_of_agree hagree i
  refine ⟨hslot.sum, fun p => ?_, construct_of_agree hlt hm hagree⟩
  rw [eq_sub_of_add_eq (hslot.sum true)]
  exact stationary_iff hslot.up_pos hslot.down_pos hslot.balance

/-- The extended model for the rate `1/3`, built from `alpha = 1/2`. -/
theorem delivers_rate_extended :
    ∃ m : OnOffInjection ℝ 1,
      extended.construct (1 / 3) ⟨1 / 2, -1, -1⟩ (fun _ => false) = .ok m ∧
      (∀ p, p = p * extended.slotProb (m.setState 0 true) 0 true
        + (1 - p) * extended.slotProb (m.setState 0 false) 0 true ↔ p = 1 / 3) ∧
      extended.construct (1 / 3) ⟨-1, -1, m.burstSizeAvg⟩ (fun _ => false) = .ok m := by
  have hm : extended.construct (1 / 3) ⟨1 / 2, -1, -1⟩ (fun _ : Fin 1 => false)
      = .ok { extended.derive (1 / 3 : ℝ) ⟨1 / 2, -1, -1⟩ with
          rate := 1 / 3, initial := fun _ => false, state := fun _ => false } := by
    refine construct_eq_ok_iff.mpr ⟨one_pos, by norm_num, .inr (.inr (by norm_num)), ?_, rfl⟩
    norm_num [derive, ExtendedOnOffInjection.derive]
  have h := delivers_rate extended (by norm_num) (.inl (by norm_num)) hm 0
  exact ⟨_, hm, h.2.1, h.2.2.2.2⟩

end OnOffKind

end

end SschedSimulator
