import SschedSimulator.Matching.SbQpsFrames

namespace SschedSimulator

open Foundation Alternation

/-!
# What `SB_QPS_Fixed` returns

The frames fall into groups of neighbours, each merged by itself; then the heaviest group is taken,
or the groups are merged.  A merging of two matchings weighs at least what either of them does, so
that no frame is heavier than the result.  A matching is weighed before it is returned: where it is
too heavy for `int`, the sum overflows.

* `flatMap_groupFrames` — every frame is in one group, also where the last group is shorter;
* `KeepsWeight` — the selection is a permutation that no frame outweighs, and its weight fits;
* `merging_keeps_weight_iff` — the three ways to merge, and the heaviest single frame;
* `schedule_perfect_iff` — the frames are partial matchings, completed, and combined to a permutation,
  if the weights fit.
-/

namespace Matching.SbQpsFixed

variable {n : ℕ} {cfg : MatchingConfiguration} {weights : Weights n} {schedules : ℕ → MatchingRow n}
  {frames : ℕ → Equiv.Perm (Fin n)} {P : Equiv.Perm (Fin n) → Prop}

/-! ### The groups -/

/-- The frames of a group, in the order in which they are merged. -/
def groupFrames (cfg : MatchingConfiguration) (g : ℕ) : List ℕ :=
  List.range' (g * cfg.groupSize)
    (min cfg.frameSize ((g + 1) * cfg.groupSize) - g * cfg.groupSize)

theorem mem_groupFrames {g f : ℕ} :
    f ∈ groupFrames cfg g ↔
      g * cfg.groupSize ≤ f ∧ f < min cfg.frameSize ((g + 1) * cfg.groupSize) := by
  rw [groupFrames, List.mem_range'_1]
  omega

/-- The first groups hold the first frames. -/
theorem flatMap_range_groupFrames (cfg : MatchingConfiguration) (k : ℕ) :
    (List.range k).flatMap (groupFrames cfg)
      = List.range (min cfg.frameSize (k * cfg.groupSize)) := by
  induction k with
  | zero => simp
  | succ k ih =>
    have hsucc : (k + 1) * cfg.groupSize = k * cfg.groupSize + cfg.groupSize := Nat.succ_mul _ _
    rw [List.range_succ, List.flatMap_append, ih, List.flatMap_singleton, groupFrames]
    rcases Nat.le_total (k * cfg.groupSize) cfg.frameSize with hle | hge
    · have hsum : min cfg.frameSize ((k + 1) * cfg.groupSize)
          = k * cfg.groupSize
            + (min cfg.frameSize ((k + 1) * cfg.groupSize) - k * cfg.groupSize) := by
        omega
      rw [min_eq_right hle, List.range_eq_range', List.range_eq_range']
      conv_rhs => rw [hsum]
      simpa using @List.range'_append 0 (k * cfg.groupSize) _ 1
    · rw [min_eq_left hge, min_eq_left (by omega), Nat.sub_eq_zero_of_le hge, List.range'_zero,
        List.append_nil]

theorem frameSize_le_groups (hgroup : 0 < cfg.groupSize) :
    cfg.frameSize ≤ groupNum cfg * cfg.groupSize := by
  have hdiv := Nat.div_add_mod cfg.frameSize cfg.groupSize
  have hmod := Nat.mod_lt cfg.frameSize hgroup
  rw [mul_comm] at hdiv
  unfold groupNum
  rw [Nat.add_mul]
  split <;> omega

/-- The groups together hold every frame once. -/
theorem flatMap_groupFrames (hgroup : 0 < cfg.groupSize) :
    (List.range (groupNum cfg)).flatMap (groupFrames cfg) = List.range cfg.frameSize := by
  rw [flatMap_range_groupFrames, min_eq_left (frameSize_le_groups hgroup)]

/-- The frames are permutations in `P`, and so are their merges. -/
structure Perfect (cfg : MatchingConfiguration) (weights : Weights n)
    (schedules : ℕ → MatchingRow n) (frames : ℕ → Equiv.Perm (Fin n))
    (P : Equiv.Perm (Fin n) → Prop) : Prop where
  row : ∀ f < cfg.frameSize, schedules f = Serena.rowOf (frames f)
  mem : ∀ f < cfg.frameSize, P (frames f)
  closed : ∀ p q, P p → P q → P (heavier weights p q)
  nonneg : ∀ i o, 0 ≤ weights i o

/-- Merged perfect frames: the result weighs at least what each of them does. -/
theorem mergeFrames_post (h : Perfect cfg weights schedules frames P) {i j : ℕ} (hij : i < j)
    (hj : j ≤ cfg.frameSize) :
    Post (mergeFrames cfg weights schedules i j) (fun _ => Heavy P weights) (fun merged =>
      ∃ p, P p ∧ merged = Serena.rowOf p ∧ ∀ f, i ≤ f → f < j →
        weight weights (frames f) ≤ weight weights p) := by
  have hi := hij.trans_le hj
  have hloop : Post ((List.range' (i + 1) (j - (i + 1))).foldlM (fun merged f => do
      let S ← frameAt cfg schedules f
      mergeInto weights merged S) (schedules i)) (fun _ => Heavy P weights)
      (fun merged => (∀ f ∈ ([] : List ℕ), f < j) ∧ ∃ p, P p ∧ merged = Serena.rowOf p ∧
        ∀ f, i ≤ f → f < j → f ∈ ([] : List ℕ) ∨
          weight weights (frames f) ≤ weight weights p) := by
    refine Post.foldlM_rest (fun rest merged => (∀ f ∈ rest, f < j) ∧
      ∃ p, P p ∧ merged = Serena.rowOf p ∧ ∀ f, i ≤ f → f < j → f ∈ rest ∨
        weight weights (frames f) ≤ weight weights p) _ _ ?_ ?_
    · refine ⟨fun f hf => ?_, frames i, h.mem i hi, h.row i hi, fun f hf hfj => ?_⟩
      · rw [List.mem_range'_1] at hf
        omega
      · rcases Nat.eq_or_lt_of_le hf with rfl | hlt
        · exact .inr (le_refl _)
        · exact .inl (List.mem_range'_1.mpr (by omega))
    · rintro f rest merged ⟨hrest, q, hq, rfl, hle⟩
      have hf := (hrest f (by simp)).trans_le hj
      -- a merge is at least as heavy as each of the two
      have hmax := max_le_iff.mp (le_sum_heavier weights q (frames f))
      rw [frameAt_eq_ok hf, ok_bind, h.row f hf]
      refine (mergeInto_post h.nonneg hq (h.mem f hf)).imp (fun merged hmerged => ?_)
      refine ⟨fun f' hf' => hrest f' (by simp [hf']), _, h.closed _ _ hq (h.mem f hf), hmerged,
        fun f' hif' hf'j => ?_⟩
      rcases hle f' hif' hf'j with hmem | hle
      · rcases List.mem_cons.mp hmem with rfl | hmem
        · exact .inr hmax.2
        · exact .inl hmem
      · exact .inr (hle.trans hmax.1)
  rw [mergeFrames, frameAt_eq_ok hi, ok_bind]
  refine hloop.imp (fun merged hmerged => ?_)
  obtain ⟨-, p, hp, hrow, hle⟩ := hmerged
  exact ⟨p, hp, hrow, fun f hf hfj => (hle f hf hfj).resolve_left List.not_mem_nil⟩

/-- A merged group weighs at least what each frame of it does. -/
theorem mergeGroup_post (h : Perfect cfg weights schedules frames P) (hgroup : 0 < cfg.groupSize)
    {g : ℕ} (hg : g < groupNum cfg) :
    Post (mergeGroup cfg weights schedules g) (fun _ => Heavy P weights) (fun merged =>
      ∃ p, P p ∧ merged = Serena.rowOf p ∧ ∀ f ∈ groupFrames cfg g,
        weight weights (frames f) ≤ weight weights p) := by
  have hsucc : (g + 1) * cfg.groupSize = g * cfg.groupSize + cfg.groupSize := Nat.succ_mul _ _
  have hbegin : g * cfg.groupSize < min cfg.frameSize ((g + 1) * cfg.groupSize) :=
    lt_min (groupBegin_lt hgroup hg) (by omega)
  refine (mergeFrames_post h hbegin (min_le_left _ _)).imp (fun merged hmerged => ?_)
  obtain ⟨p, hp, hrow, hle⟩ := hmerged
  refine ⟨p, hp, hrow, fun f hf => ?_⟩
  obtain ⟨hfirst, hlast⟩ := mem_groupFrames.mp hf
  exact hle f hfirst hlast

/-- Every frame is in one of the groups. -/
theorem exists_groupFrames (hgroup : 0 < cfg.groupSize) {f : ℕ} (hf : f < cfg.frameSize) :
    ∃ g < groupNum cfg, f ∈ groupFrames cfg g := by
  have hmem : f ∈ (List.range (groupNum cfg)).flatMap (groupFrames cfg) := by
    rw [flatMap_groupFrames hgroup]
    exact List.mem_range.mpr hf
  obtain ⟨g, hg, hfg⟩ := List.mem_flatMap.mp hmem
  exact ⟨g, List.mem_range.mp hg, hfg⟩

/-! ### What is returned -/

/-- The selection is a permutation that no frame outweighs, with its weight, unless some permutation
    is too heavy. -/
def KeepsWeight (cfg : MatchingConfiguration) (weights : Weights n)
    (frames : ℕ → Equiv.Perm (Fin n)) (P : Equiv.Perm (Fin n) → Prop)
    (selected : Except MatchingFault (Selected n)) : Prop :=
  Post selected (fun _ => Heavy P weights) (fun r => ∃ p,
    r = (some (Serena.rowOf p), weight weights p) ∧ weight weights p ≤ largestInt ∧
    ∀ f < cfg.frameSize, weight weights (frames f) ≤ weight weights p)

theorem serenaMerge_keeps (h : Perfect cfg weights schedules frames P) (hframe : 0 < cfg.frameSize) :
    KeepsWeight cfg weights frames P (serenaMerge cfg weights schedules) := by
  refine (mergeFrames_post h hframe (le_refl _)).bind (fun merged hmerged => ?_)
  obtain ⟨p, hp, rfl, hle⟩ := hmerged
  refine (weightComputation_post h.nonneg hp).bind (fun w hw => ?_)
  exact ⟨p, by rw [hw.1], hw.2, fun f hf => hle f (Nat.zero_le f) hf⟩

/-- The frames of the groups that are done weigh no more than `w`. -/
def GroupsBelow (cfg : MatchingConfiguration) (weights : Weights n)
    (frames : ℕ → Equiv.Perm (Fin n)) (rest : List ℕ) (w : ℤ) : Prop :=
  ∀ g < groupNum cfg, g ∉ rest → ∀ f ∈ groupFrames cfg g, weight weights (frames f) ≤ w

/-- One more group is done. -/
theorem GroupsBelow.next {g : ℕ} {rest : List ℕ} {w w' : ℤ}
    (h : GroupsBelow cfg weights frames (g :: rest) w) (hw : w ≤ w')
    (hg : ∀ f ∈ groupFrames cfg g, weight weights (frames f) ≤ w') :
    GroupsBelow cfg weights frames rest w' := by
  intro g' hg' hmem f hf
  by_cases hsame : g' = g
  · subst hsame
    exact hg f hf
  · exact (h g' hg' (by simp [hsame, hmem]) f hf).trans hw

/-- When all groups are done, no frame weighs more. -/
theorem GroupsBelow.all {w : ℤ} (h : GroupsBelow cfg weights frames [] w)
    (hgroup : 0 < cfg.groupSize) : ∀ f < cfg.frameSize, weight weights (frames f) ≤ w := by
  intro f hf
  obtain ⟨g, hg, hfg⟩ := exists_groupFrames hgroup hf
  exact h g hg List.not_mem_nil f hfg

theorem groupsBelow_start (w : ℤ) :
    GroupsBelow cfg weights frames (List.range (groupNum cfg)) w :=
  fun _ hg hmem => absurd (List.mem_range.mpr hg) hmem

/-- The heaviest group.  No weight is negative, so that the first group replaces the empty vector.
    -/
theorem mixedMaxMerge_keeps (h : Perfect cfg weights schedules frames P)
    (hframe : 0 < cfg.frameSize) (hgroup : 0 < cfg.groupSize) :
    KeepsWeight cfg weights frames P (mixedMaxMerge cfg weights schedules) := by
  have hloop := Post.foldlM_rest (E := fun _ => Heavy P weights)
    (f := fun (best : Selected n) g => do
      let merged ← mergeGroup cfg weights schedules g
      let weight ← weightComputation merged weights
      if best.2 < weight then .ok (some merged, weight) else .ok best)
    (fun rest best => (∀ g ∈ rest, g < groupNum cfg) ∧
      GroupsBelow cfg weights frames rest best.2 ∧
        ((∃ p, best = (some (Serena.rowOf p), weight weights p) ∧
          weight weights p ≤ largestInt) ∨ best = (none, -1)))
    (List.range (groupNum cfg)) (none, -1)
    ⟨fun g hg => List.mem_range.mp hg, groupsBelow_start _, .inr rfl⟩
    (fun g rest best hbest => ?_)
  · refine hloop.imp (fun best hbest => ?_)
    obtain ⟨-, hbelow, ⟨p, rfl, hfits⟩ | rfl⟩ := hbest
    · exact ⟨p, rfl, hfits, hbelow.all hgroup⟩
    · -- The first frame does not weigh less than nothing.
      have hneg := hbelow.all hgroup 0 hframe
      have hpos : 0 ≤ weight weights (frames 0) :=
        Finset.sum_nonneg (fun i _ => h.nonneg i (frames 0 i))
      exact absurd (show (0 : ℤ) ≤ -1 from hpos.trans hneg) (by decide)
  · obtain ⟨hbound, hbelow, hbest⟩ := hbest
    have hrest : ∀ g' ∈ rest, g' < groupNum cfg := fun g' hg' => hbound g' (by simp [hg'])
    refine (mergeGroup_post h hgroup (hbound g (by simp))).bind (fun merged hmerged => ?_)
    obtain ⟨p, hp, rfl, hle⟩ := hmerged
    refine (weightComputation_post h.nonneg hp).bind (fun w hw => ?_)
    obtain ⟨rfl, hfits⟩ := hw
    split
    · rename_i hlt
      exact ⟨hrest, hbelow.next hlt.le hle, .inl ⟨p, rfl, hfits⟩⟩
    · rename_i hge
      exact ⟨hrest, hbelow.next (le_refl _) (fun f hf => (hle f hf).trans (not_lt.mp hge)), hbest⟩

/-- The groups merged; the first one is where the merging starts. -/
theorem mergeGroups_post (h : Perfect cfg weights schedules frames P) (hframe : 0 < cfg.frameSize)
    (hgroup : 0 < cfg.groupSize) :
    Post (mergeGroups cfg weights schedules) (fun _ => Heavy P weights) (fun result =>
      ∃ p, P p ∧ result = some (Serena.rowOf p) ∧
        GroupsBelow cfg weights frames [] (weight weights p)) := by
  have hpos := groupNum_pos hframe hgroup
  -- The first group is taken as it is, and the others are merged into it.
  have hgroups : List.range (groupNum cfg) = 0 :: List.range' 1 (groupNum cfg - 1) := by
    conv_lhs => rw [← Nat.sub_add_cancel hpos, List.range_eq_range', List.range'_succ]
  rw [mergeGroups, hgroups, List.foldlM_cons]
  refine Post.bind (P := fun result => ∃ p, P p ∧ result = some (Serena.rowOf p) ∧
      ∀ f ∈ groupFrames cfg 0, weight weights (frames f) ≤ weight weights p) ?_ ?_
  · refine (mergeGroup_post h hgroup hpos).bind (fun merged hmerged => ?_)
    obtain ⟨p, hp, rfl, hle⟩ := hmerged
    exact ⟨p, hp, rfl, hle⟩
  · rintro _ ⟨p₀, hp₀, rfl, hle₀⟩
    refine (Post.foldlM_rest (fun rest result => (∀ g ∈ rest, 0 < g ∧ g < groupNum cfg) ∧
      ∃ p, P p ∧ result = some (Serena.rowOf p) ∧
        GroupsBelow cfg weights frames rest (weight weights p)) _ _
      ⟨fun g hg => ?_, p₀, hp₀, rfl, GroupsBelow.next ?_ (le_refl _) hle₀⟩
      (fun g rest result hresult => ?_)).imp (fun result hresult => hresult.2)
    · rw [List.mem_range'_1] at hg
      omega
    · rw [← hgroups]
      exact groupsBelow_start _
    · obtain ⟨hbound, q, hq, rfl, hbelow⟩ := hresult
      obtain ⟨hg0, hg⟩ := hbound g (by simp)
      refine (mergeGroup_post h hgroup hg).bind (fun merged hmerged => ?_)
      obtain ⟨p, hp, rfl, hle⟩ := hmerged
      have hmax := max_le_iff.mp (le_sum_heavier weights q p)
      rw [if_neg hg0.ne']
      refine (mergeInto_post h.nonneg hq hp).bind (fun r hr => ?_)
      exact ⟨fun g' hg' => hbound g' (by simp [hg']), _, h.closed q p hq hp, by rw [hr],
        hbelow.next hmax.1 (fun f hf => (hle f hf).trans hmax.2)⟩

theorem mixedMergeMerge_keeps (h : Perfect cfg weights schedules frames P)
    (hframe : 0 < cfg.frameSize) (hgroup : 0 < cfg.groupSize) :
    KeepsWeight cfg weights frames P (mixedMergeMerge cfg weights schedules) := by
  refine (mergeGroups_post h hframe hgroup).bind (fun result hresult => ?_)
  obtain ⟨p, hp, rfl, hbelow⟩ := hresult
  refine (weightComputation_post h.nonneg hp).bind (fun w hw => ?_)
  exact ⟨p, by rw [hw.1], hw.2, hbelow.all hgroup⟩

/-- The running maximum of `max_element` is at least every weight passed. -/
theorem le_heaviestFrame (matchingWeights : List ℤ) {f : ℕ} (hf : f < cfg.frameSize) :
    matchingWeights.getD f 0 ≤ matchingWeights.getD (heaviestFrame cfg matchingWeights) 0 :=
  Ranking.le_foldl_highest (fun f => matchingWeights.getD f 0) (List.range cfg.frameSize) 0 f
    (List.mem_cons_of_mem 0 (List.mem_range.mpr hf))

/-- `select_heaviest` weighs all frames and returns one that no frame outweighs. -/
theorem selectHeaviest_post (h : Perfect cfg weights schedules frames P)
    (hframe : 0 < cfg.frameSize) :
    Post (selectHeaviest cfg weights schedules) (fun _ => Heavy P weights) (fun r =>
      ∃ f < cfg.frameSize, r = (some (Serena.rowOf (frames f)), weight weights (frames f)) ∧
        weight weights (frames f) ≤ largestInt ∧
        ∀ f' < cfg.frameSize, weight weights (frames f') ≤ weight weights (frames f)) := by
  have hweigh : Post ((List.range cfg.frameSize).mapM (fun f => do
      let schedule ← frameAt cfg schedules f
      weightComputation schedule weights)) (fun _ => Heavy P weights)
      (List.Forall₂ (fun f w => w = weight weights (frames f) ∧
        weight weights (frames f) ≤ largestInt) (List.range cfg.frameSize)) := by
    refine Post.mapM (fun f hf => ?_)
    have hf' := List.mem_range.mp hf
    rw [frameAt_eq_ok hf', ok_bind, h.row f hf']
    exact weightComputation_post h.nonneg (h.mem f hf')
  refine hweigh.bind (fun ws hws => ?_)
  have hget : ∀ f < cfg.frameSize, ws.getD f 0 = weight weights (frames f) ∧
      weight weights (frames f) ≤ largestInt := by
    intro f hf
    have hlen := hws.length_eq
    rw [List.length_range] at hlen
    have hpair := List.Forall₂.get hws (by rwa [List.length_range]) (hlen ▸ hf)
    rw [List.get_eq_getElem, List.get_eq_getElem, List.getElem_range] at hpair
    rw [List.getD_eq_getElem?_getD, List.getElem?_eq_getElem (hlen ▸ hf), Option.getD_some]
    exact hpair
  have hlt := heaviestFrame_lt hframe ws
  dsimp only
  rw [frameAt_eq_ok hlt, ok_bind, h.row _ hlt]
  obtain ⟨hw, hfits⟩ := hget _ hlt
  refine ⟨heaviestFrame cfg ws, hlt, by rw [hw], hfits, fun f' hf' => ?_⟩
  rw [← hw, ← (hget f' hf').1]
  exact le_heaviestFrame ws hf'

/-- Whatever the selection method, perfect frames give a perfect matching; and the first frame has
    been weighed, by itself or in a merge. -/
theorem select_post (h : Perfect cfg weights schedules frames P) (hframe : 0 < cfg.frameSize)
    (hgroup : 0 < cfg.groupSize) :
    Post (select cfg weights schedules) (fun _ => Heavy P weights) (fun r =>
      (∃ p w, r = (some (Serena.rowOf p), w)) ∧ weight weights (frames 0) ≤ largestInt) := by
  have hkept : ∀ {selected : Except MatchingFault (Selected n)},
      KeepsWeight cfg weights frames P selected →
      Post selected (fun _ => Heavy P weights) (fun r =>
        (∃ p w, r = (some (Serena.rowOf p), w)) ∧ weight weights (frames 0) ≤ largestInt) := by
    refine fun hkeeps => hkeeps.imp (fun r hr => ?_)
    obtain ⟨p, rfl, hfits, hle⟩ := hr
    exact ⟨⟨p, _, rfl⟩, (hle 0 hframe).trans hfits⟩
  unfold select
  cases cfg.slm with
  | first =>
    show Post (selectFirst cfg weights schedules) _ _
    rw [selectFirst, frameAt_eq_ok hframe, ok_bind, h.row 0 hframe]
    refine (weightComputation_post h.nonneg (h.mem 0 hframe)).bind (fun w hw => ?_)
    exact ⟨⟨_, w, rfl⟩, hw.2⟩
  | max =>
    refine (selectHeaviest_post h hframe).imp (fun r hr => ?_)
    obtain ⟨f, -, rfl, hfits, hmax⟩ := hr
    exact ⟨⟨_, _, rfl⟩, (hmax 0 hframe).trans hfits⟩
  | merge => exact hkept (serenaMerge_keeps h hframe)
  | mixed => exact hkept (mixedMaxMerge_keeps h hframe hgroup)
  | twoLayer => exact hkept (mixedMergeMerge_keeps h hframe hgroup)

/-- What is claimed for a matrix of weights, whatever is sampled and whatever state the scheduler was
    in: at any point of any round the frames are partial matchings and no assertion has failed; each
    frame is completed to a permutation that keeps its pairs; and a permutation is returned. -/
def PerfectSchedules (cfg : MatchingConfiguration) (weights : Weights n) : Prop :=
  (∃ st : State n, construct n cfg = .ok st) ∧
  ∀ (draws : ℕ → Fin n → Fin n) (st : State n),
    (∀ round k j, ∃ st', insideRound cfg weights draws st round k j = .ok st' ∧
      ∀ f, IsMatching (st'.schedules f)) ∧
    ∃ matched fixed p w,
      runRounds cfg weights draws st cfg.rounds = .ok matched ∧
      fixMatchings cfg matched.schedules = .ok fixed ∧
      (∀ f < cfg.frameSize, ∃ q, fixed f = Serena.rowOf q ∧
        ∀ i o, matched.schedules f i = some o → q i = o) ∧
      schedule cfg weights draws st
        = .ok ({ matched with schedules := fixed }, some (Serena.rowOf p), w)

/-- The sums that may be formed are in the range of `int`: those of the rows, and those of the perfect
    matchings.  Where nothing is booked every frame is completed to the identity. -/
def WeightsFit (cfg : MatchingConfiguration) (weights : Weights n) : Prop :=
  (∀ i, ∑ o, weights i o ≤ largestInt) ∧
    ∀ p : Equiv.Perm (Fin n), (cfg.Books ∨ p = 1) → weight weights p ≤ largestInt

theorem heavier_self (weights : Weights n) (p : Equiv.Perm (Fin n)) : heavier weights p p = p :=
  Equiv.ext (fun _ => heavier_of_le (le_refl _))

/-- After the rounds the frames are completed to permutations, of which all merges are either
    arbitrary or the identity. -/
theorem runRounds_perfect (hsize : cfg.frameSize ≤ 1024) (hweights : ∀ i o, 0 ≤ weights i o)
    (draws : ℕ → Fin n → Fin n) (st : State n) :
    Post (runRounds cfg weights draws st cfg.rounds)
      (fun _ => ∃ i, largestInt < ∑ o, weights i o) (fun matched =>
      ∃ fixed frames, fixMatchings cfg matched.schedules = .ok fixed ∧
        Perfect cfg weights fixed frames (fun p => cfg.Books ∨ p = 1) ∧
        ∀ f < cfg.frameSize, ∀ i o, matched.schedules f i = some o → frames f i = o) := by
  have hrounds : Post (runRounds cfg weights draws st cfg.rounds)
      (fun _ => ∃ i, largestInt < ∑ o, weights i o) (fun matched =>
        (∀ f, IsMatching (matched.schedules f)) ∧
          (¬ cfg.Books → ∀ f i, matched.schedules f i = none)) := by
    by_cases hbooks : cfg.Books
    · exact (runRounds_post hsize hweights draws st cfg.rounds).imp
        (fun matched h => ⟨h.matching, fun hc => absurd hbooks hc⟩)
    · exact ((runRounds_post hsize hweights draws st cfg.rounds).both
        (runRounds_none hbooks hweights draws st)).imp
          (fun matched h => ⟨h.1.matching, fun _ => h.2⟩)
  refine hrounds.imp (fun matched hmatched => ?_)
  have hpost : Post (fixMatchings cfg matched.schedules) _ _ := fixMatchings_post hmatched.1
  obtain ⟨fixed, hfix, hfixed⟩ := hpost.exists_ok (fun _ _ => not_false)
  choose! frames hrow hkeep hnone using hfixed
  refine ⟨fixed, frames, hfix, ⟨hrow, fun f hf => ?_, fun p q hp hq => ?_, hweights⟩, hkeep⟩
  · by_cases hbooks : cfg.Books
    · exact .inl hbooks
    · exact .inr (hnone f hf (hmatched.2 hbooks f))
  · rcases hp with hbooks | rfl
    · exact .inl hbooks
    · rcases hq with hbooks | rfl
      · exact .inl hbooks
      · exact .inr (heavier_self weights 1)

/-- A matrix whose sums fit. -/
theorem perfectSchedules (hframe : 0 < cfg.frameSize) (hsize : cfg.frameSize ≤ 1024)
    (hgroup : 0 < cfg.groupSize) (hweights : ∀ i o, 0 ≤ weights i o)
    (hfit : WeightsFit cfg weights) : PerfectSchedules cfg weights := by
  have hrows : ¬ ∃ i, largestInt < ∑ o, weights i o := fun ⟨i, hi⟩ =>
    absurd (hfit.1 i) (not_le.mpr hi)
  have hlight : ¬ Heavy (fun p => cfg.Books ∨ p = 1) weights := fun ⟨p, hp, hlt⟩ =>
    absurd (hfit.2 p hp) (not_le.mpr hlt)
  refine ⟨?_, fun draws st => ⟨fun round k j => ?_, ?_⟩⟩
  · obtain ⟨m, hm, -⟩ := AvailabilityTemplate.ofFrames_eq_ok AvailabilityMap.memory hsize
    rw [construct, hm, ok_bind]
    exact ⟨_, rfl⟩
  · exact (insideRound_post hsize hweights draws st round k j).exists_ok (fun _ _ => hrows)
  · obtain ⟨matched, hrounds, fixed, frames, hfix, hperfect, hkeep⟩ :=
      (runRounds_perfect hsize hweights draws st).exists_ok (fun _ _ => hrows)
    obtain ⟨r, hselect, ⟨p, w, rfl⟩, -⟩ :=
      (select_post hperfect hframe hgroup).exists_ok (fun _ _ => hlight)
    refine ⟨matched, fixed, p, w, hrounds, hfix, fun f hf => ⟨frames f, hperfect.row f hf,
      hkeep f hf⟩, ?_⟩
    rw [schedule, hrounds, ok_bind, hfix, ok_bind, hselect, ok_bind]

/-- Inputs that weigh nothing may be matched in any way. -/
theorem weight_congr (hweights : ∀ i o, 0 ≤ weights i o) {p q : Equiv.Perm (Fin n)}
    (h : ∀ i, ∑ o, weights i o ≠ 0 → q i = p i) : weight weights q = weight weights p := by
  refine Finset.sum_congr rfl (fun i _ => ?_)
  by_cases hi : ∑ o, weights i o = 0
  · have hzero := (Finset.sum_eq_zero_iff_of_nonneg (fun o _ => hweights i o)).mp hi
    rw [hzero (q i) (Finset.mem_univ _), hzero (p i) (Finset.mem_univ _)]
  · rw [h i hi]

/-- Where the property holds, every sum has been formed in some run. -/
theorem weightsFit_of_perfectSchedules (hframe : 0 < cfg.frameSize) (hsize : cfg.frameSize ≤ 1024)
    (hgroup : 0 < cfg.groupSize) (hcutoff : 0 < cfg.cutoff) (hweights : ∀ i o, 0 ≤ weights i o)
    (h : PerfectSchedules cfg weights) : WeightsFit cfg weights := by
  obtain ⟨⟨st, hst⟩, hruns⟩ := h
  -- The first frame of any run has been weighed.
  have hfirst : ∀ (draws : ℕ → Fin n → Fin n), ∃ matched, ∃ q : Equiv.Perm (Fin n),
      runRounds cfg weights draws st cfg.rounds = .ok matched ∧ (cfg.Books ∨ q = 1) ∧
      weight weights q ≤ largestInt ∧ ∀ i o, matched.schedules 0 i = some o → q i = o := by
    intro draws
    obtain ⟨-, matched, fixed, p, w, hrounds, hfix, -, hschedule⟩ := hruns draws st
    obtain ⟨fixed', frames, hfix', hperfect, hkeep⟩ :=
      (runRounds_perfect hsize hweights draws st).of_ok hrounds
    cases hfix.symm.trans hfix'
    rw [schedule, hrounds, ok_bind, hfix, ok_bind] at hschedule
    obtain ⟨selected, hselect, -⟩ := bind_eq_ok.mp hschedule
    exact ⟨matched, frames 0, hrounds, hperfect.mem 0 hframe,
      ((select_post hperfect hframe hgroup).of_ok hselect).2, hkeep 0 hframe⟩
  constructor
  · intro i
    obtain ⟨matched, -, hrounds, -⟩ := hfirst (fun _ => id)
    obtain ⟨st', harrive, -⟩ := bind_eq_ok.mp hrounds
    exact ((handleArrivals_post cfg hweights st).of_ok harrive).1 i
  · intro p hp
    by_cases hbooks : cfg.Books
    · -- the inputs may sample `p` in every round
      obtain ⟨matched, q, hrounds, -, hfits, hkeep⟩ := hfirst (fun _ => p)
      have hchosen := (runRounds_chosen hframe hsize hcutoff hbooks hweights p hst).of_ok hrounds
      rwa [weight_congr hweights (fun i hi => hkeep i (p i) (hchosen i hi))] at hfits
    · obtain ⟨matched, q, -, hone, hfits, -⟩ := hfirst (fun _ => id)
      rwa [hp.resolve_left hbooks, ← hone.resolve_left hbooks]

/-- For weights that are not negative, the schedules are as claimed exactly if the sums of the rows
    and those of the perfect matchings that the frames can become are in the range of `int`. -/
theorem schedule_perfect_iff {cfg : MatchingConfiguration} (hframe : 0 < cfg.frameSize)
    (hsize : cfg.frameSize ≤ 1024) (hgroup : 0 < cfg.groupSize) (hcutoff : 0 < cfg.cutoff)
    {weights : Weights n} (hweights : ∀ i o, 0 ≤ weights i o) :
    PerfectSchedules cfg weights ↔ WeightsFit cfg weights :=
  ⟨weightsFit_of_perfectSchedules hframe hsize hgroup hcutoff hweights,
    perfectSchedules hframe hsize hgroup hweights⟩

/-- Two ports, three frames in groups of two, first fit. -/
theorem schedule_perfect_three :
    let cfg : MatchingConfiguration :=
      { frameSize := 3, groupSize := 2, numRounds := 2, cutoff := 1, slm := .mixed,
        rqpsSerena := false, useAvailmap := true }
    let weights : Weights 2 := fun i o => if i = o then 3 else 1
    ∃ st st' p w, construct 2 cfg = .ok st ∧
      schedule cfg weights (fun round i => if round = 0 then 0 else i) st
        = .ok (st', some (Serena.rowOf p), w) := by
  intro cfg weights
  have hfit : WeightsFit cfg weights :=
    ⟨by decide, fun p _ => (show ∀ p : Equiv.Perm (Fin 2), weight weights p ≤ largestInt by decide) p⟩
  obtain ⟨⟨st, hst⟩, hrun⟩ := (schedule_perfect_iff (show 0 < cfg.frameSize by decide)
    (show cfg.frameSize ≤ 1024 by decide) (show 0 < cfg.groupSize by decide)
    (show 0 < cfg.cutoff by decide) (show ∀ i o, 0 ≤ weights i o by decide)).mpr hfit
  obtain ⟨-, matched, fixed, p, w, -, -, -, hschedule⟩ :=
    hrun (fun round i => if round = 0 then 0 else i) st
  exact ⟨st, _, p, w, hst, hschedule⟩

/-- Two ports and weights of 2 ^ 30: when both inputs sample their own port, no schedule is
    returned. -/
theorem schedule_overflows :
    let cfg : MatchingConfiguration :=
      { frameSize := 1, groupSize := 1, numRounds := 1, cutoff := 1, slm := .mixed,
        rqpsSerena := false, useAvailmap := true }
    let weights : Weights 2 := fun i o => if i = o then 2 ^ 30 else 0
    ¬ PerfectSchedules cfg weights := by
  intro cfg weights h
  have hfit := weightsFit_of_perfectSchedules (show 0 < cfg.frameSize by decide)
    (show cfg.frameSize ≤ 1024 by decide) (show 0 < cfg.groupSize by decide)
    (show 0 < cfg.cutoff by decide) (show ∀ i o, 0 ≤ weights i o by decide) h
  exact absurd (hfit.2 1 (.inr rfl)) (by decide)

end Matching.SbQpsFixed

end SschedSimulator
