import Mathlib.Data.Fintype.Card
import Mathlib.Data.Nat.Notation

namespace SschedSimulator.Foundation

/-!
# Tokens on a ring

Tokens are on the sites of a ring of `n` sites.  In every step each site that is occupied sends one
of its tokens to the next site, and the others stay.

A site that is empty after a step was empty behind, one site back, and held at most one token; and a
site with at most one token never gets more than one.  So after `n - 1` steps the tokens have spread
out: they are on different sites, or they cover all sites (`injective_or_covers`).  If they are on
different sites, then all of them move in every step (`rotates`).
-/

variable {τ : Type*}

/-- One step from the positions `pos` to `pos'`: from site `i` the token `mover i` moves on. -/
structure Circulates (n : ℕ) (pos pos' : τ → ℕ) (mover : ℕ → Option τ) : Prop where
  range : ∀ x, pos x < n
  occupied : ∀ x, ∃ y, mover (pos x) = some y
  at_site : ∀ {i y}, mover i = some y → pos y = i
  moved : ∀ {x}, mover (pos x) = some x → pos' x = (pos x + 1) % n
  stayed : ∀ {x}, mover (pos x) ≠ some x → pos' x = pos x

/-- No token is on the site. -/
def Deserted (pos : τ → ℕ) (i : ℕ) : Prop := ∀ x, pos x ≠ i

/-- At most one token is on the site. -/
def Uncrowded (pos : τ → ℕ) (i : ℕ) : Prop := ∀ x y, pos x = i → pos y = i → x = y

theorem Deserted.uncrowded {pos : τ → ℕ} {i : ℕ} (h : Deserted pos i) : Uncrowded pos i :=
  fun x _ hx _ => absurd hx (h x)

/-! ### One step -/

namespace Circulates

variable {n : ℕ} {pos pos' : τ → ℕ} {mover : ℕ → Option τ}

/-- A deserted site has not got a token from the site behind it. -/
theorem deserted_behind (h : Circulates n pos pos' mover) {i : ℕ}
    (hempty : Deserted pos' ((i + 1) % n)) : Deserted pos i := by
  intro x hx
  obtain ⟨y, hy⟩ := h.occupied x
  rw [hx] at hy
  have hmoved := h.moved (x := y) (by rw [h.at_site hy]; exact hy)
  rw [h.at_site hy] at hmoved
  exact hempty y hmoved

/-- The token that moves to a site leaves a site that is determined. -/
theorem behind_unique {i j : ℕ} (hi : i < n) (hj : j < n) (h : (i + 1) % n = (j + 1) % n) :
    i = j := by
  rcases Nat.lt_or_ge (i + 1) n with hi' | hi' <;> rcases Nat.lt_or_ge (j + 1) n with hj' | hj'
  · rw [Nat.mod_eq_of_lt hi', Nat.mod_eq_of_lt hj'] at h
    omega
  · rw [Nat.mod_eq_of_lt hi', show j + 1 = n by omega, Nat.mod_self] at h
    omega
  · rw [Nat.mod_eq_of_lt hj', show i + 1 = n by omega, Nat.mod_self] at h
    omega
  · omega

/-- A site with at most one token sends it on before it gets another. -/
theorem uncrowded (h : Circulates n pos pos' mover) {i : ℕ} (hone : Uncrowded pos i) :
    Uncrowded pos' i := by
  -- A token that stays is not the one that its site sends on.
  have hstays : ∀ z, pos' z = i → mover (pos z) = some z := by
    intro z hz
    by_contra hne
    rw [h.stayed hne] at hz
    obtain ⟨y, hy⟩ := h.occupied z
    have heq : y = z := hone y z ((h.at_site hy).trans hz) hz
    exact hne (heq ▸ hy)
  intro x y hx hy
  have hsite : pos x = pos y := by
    refine behind_unique (h.range x) (h.range y) ?_
    rw [← h.moved (hstays x hx), ← h.moved (hstays y hy), hx, hy]
  exact Option.some.inj ((hstays x hx).symm.trans ((congrArg mover hsite).trans (hstays y hy)))

/-- A token that is alone on its site moves on. -/
theorem sent_of_uncrowded (h : Circulates n pos pos' mover) {x : τ}
    (hone : Uncrowded pos (pos x)) : mover (pos x) = some x := by
  obtain ⟨y, hy⟩ := h.occupied x
  rw [hy, hone y x (h.at_site hy) rfl]

end Circulates

/-! ### Many steps -/

section

variable {n T : ℕ} {pos : ℕ → τ → ℕ} {mover : ℕ → ℕ → Option τ}

theorem uncrowded_later (h : ∀ t < T, Circulates n (pos t) (pos (t + 1)) (mover t)) {i t : ℕ}
    (ht : t ≤ T) (hone : Uncrowded (pos t) i) : Uncrowded (pos T) i := by
  induction T with
  | zero =>
    obtain rfl := Nat.le_zero.mp ht
    exact hone
  | succ T ih =>
    rcases Nat.lt_or_ge T t with hlt | hge
    · obtain rfl : t = T + 1 := by omega
      exact hone
    · exact (h T (Nat.lt_succ_self T)).uncrowded (ih (fun s hs => h s (by omega)) hge)

/-- The site that is `k` sites back. -/
def back (n k i : ℕ) : ℕ := (i + (n - k)) % n

theorem back_succ (i : ℕ) {k : ℕ} (hk : k < n) : (back n (k + 1) i + 1) % n = back n k i := by
  unfold back
  rw [Nat.mod_add_mod, show i + (n - (k + 1)) + 1 = i + (n - k) by omega]

/-- A deserted site was deserted further back, the earlier the further. -/
theorem deserted_back (h : ∀ t < T, Circulates n (pos t) (pos (t + 1)) (mover t)) {i k : ℕ}
    (hi : i < n) (hempty : Deserted (pos T) i) (hkT : k ≤ T) (hk : k ≤ n) :
    Deserted (pos (T - k)) (back n k i) := by
  induction k with
  | zero =>
    have hback : back n 0 i = i := by
      rw [back, Nat.sub_zero, Nat.add_mod_right, Nat.mod_eq_of_lt hi]
    rwa [hback, Nat.sub_zero]
  | succ k ih =>
    have hstep := h (T - (k + 1)) (by omega)
    have hlater : T - (k + 1) + 1 = T - k := by omega
    rw [hlater] at hstep
    refine hstep.deserted_behind ?_
    rw [back_succ i (by omega)]
    exact ih (by omega) (by omega)

/-- Going back, every site is met. -/
theorem exists_back {i j : ℕ} (hi : i < n) (hj : j < n) : ∃ k < n, back n k i = j := by
  rcases Nat.lt_or_ge i j with hlt | hge
  · refine ⟨i + n - j, by omega, ?_⟩
    rw [back, show i + (n - (i + n - j)) = j by omega, Nat.mod_eq_of_lt hj]
  · refine ⟨i - j, by omega, ?_⟩
    rw [back, show i + (n - (i - j)) = j + n by omega, Nat.add_mod_right, Nat.mod_eq_of_lt hj]

/-- After `n - 1` steps the tokens are on different sites, or they cover all sites. -/
theorem injective_or_covers (h : ∀ t < T, Circulates n (pos t) (pos (t + 1)) (mover t))
    (hrange : ∀ x, pos T x < n) (hT : n - 1 ≤ T) :
    Function.Injective (pos T) ∨ ∀ i < n, ∃ x, pos T x = i := by
  by_cases hempty : ∃ i < n, Deserted (pos T) i
  · obtain ⟨i, hi, hdeserted⟩ := hempty
    left
    intro x y hxy
    -- The site of the two was deserted, or had at most one token, when the desertion passed by.
    obtain ⟨k, hk, hback⟩ := exists_back hi (hrange x)
    have hthen : Uncrowded (pos (T - k)) (pos T x) := by
      rw [← hback]
      exact (deserted_back h hi hdeserted (by omega) (by omega)).uncrowded
    exact uncrowded_later h (by omega) hthen x y rfl hxy.symm
  · right
    intro i hi
    by_contra hnone
    exact hempty ⟨i, hi, fun x hx => hnone ⟨x, hx⟩⟩

/-- So they are on as many sites as there can be. -/
theorem card_sites [Fintype τ] (h : ∀ t < T, Circulates n (pos t) (pos (t + 1)) (mover t))
    (hrange : ∀ x, pos T x < n) (hT : n - 1 ≤ T) :
    (Finset.univ.image (pos T)).card = min n (Fintype.card τ) := by
  have hsub : Finset.univ.image (pos T) ⊆ Finset.range n := by
    intro i hi
    obtain ⟨x, -, rfl⟩ := Finset.mem_image.mp hi
    exact Finset.mem_range.mpr (hrange x)
  have hle := Finset.card_le_card hsub
  rw [Finset.card_range] at hle
  have hle' : (Finset.univ.image (pos T)).card ≤ Fintype.card τ := Finset.card_image_le
  rcases injective_or_covers h hrange hT with hinj | hcover
  · rw [Finset.card_image_of_injective _ hinj, Finset.card_univ] at hle ⊢
    omega
  · have hall : Finset.univ.image (pos T) = Finset.range n := by
      refine Finset.Subset.antisymm hsub (fun i hi => ?_)
      obtain ⟨x, hx⟩ := hcover i (Finset.mem_range.mp hi)
      exact Finset.mem_image.mpr ⟨x, Finset.mem_univ x, hx⟩
    rw [hall, Finset.card_range] at hle' ⊢
    omega

/-- If there are at most as many tokens as sites, then they get to different sites. -/
theorem injective_of_card_le [Fintype τ]
    (h : ∀ t < T, Circulates n (pos t) (pos (t + 1)) (mover t)) (hrange : ∀ x, pos T x < n)
    (hT : n - 1 ≤ T) (hcard : Fintype.card τ ≤ n) : Function.Injective (pos T) := by
  have hsites := card_sites h hrange hT
  rw [min_eq_right hcard, ← Finset.card_univ] at hsites
  have hinj := Finset.card_image_iff.mp hsites
  rwa [Finset.coe_univ, Set.injOn_univ] at hinj

/-- Tokens that are on different sites stay so, and all of them move. -/
theorem rotates {k : ℕ} (h : ∀ t < T + k, Circulates n (pos t) (pos (t + 1)) (mover t))
    (hinj : Function.Injective (pos T)) (hrange : ∀ x, pos T x < n) :
    Function.Injective (pos (T + k)) ∧ ∀ x, pos (T + k) x = (pos T x + k) % n := by
  induction k with
  | zero => exact ⟨hinj, fun x => (Nat.mod_eq_of_lt (hrange x)).symm⟩
  | succ k ih =>
    obtain ⟨hthen, hpos⟩ := ih (fun t ht => h t (by omega))
    have hstep := h (T + k) (by omega)
    have hmoved : ∀ x, pos (T + k + 1) x = (pos (T + k) x + 1) % n := by
      intro x
      apply hstep.moved
      apply hstep.sent_of_uncrowded
      exact fun y z hy hz => hthen (hy.trans hz.symm)
    refine ⟨fun x y hxy => hthen (Circulates.behind_unique (hstep.range x) (hstep.range y) ?_),
      fun x => ?_⟩
    · rw [← hmoved, ← hmoved]
      exact hxy
    · rw [← Nat.add_assoc, hmoved, hpos, Nat.mod_add_mod, ← Nat.add_assoc]

end

end SschedSimulator.Foundation
