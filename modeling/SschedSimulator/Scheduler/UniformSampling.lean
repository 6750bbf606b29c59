import Mathlib.Data.Set.Function
import SschedSimulator.Scheduler.QpSampler

namespace SschedSimulator

open Foundation

/-!
# `qp_sampler.cpp` — the sampling tree of `Queue_Sampler`

The leaves of the tree are the packet counts.  `sample` rebuilds the inner nodes, in the uniform
mode with every non-empty leaf counted as one, and searches the leaf that contains the drawn index;
the search compares the index with the inner nodes and, on the last level, with the counts
themselves.

* `buildTree_eq_ok` — the inner nodes are the sums of the weights of the leaves;
* `Indicator` — the tree of a uniform sample beside the one with leaves 0 and 1, and what the search
  returns in it;
* `samplesUniformly_iff` — exactly when each non-empty output has one index.
-/

variable {m : ℕ}

/-- `Sample_Type`. -/
inductive SampleType where
  | none
  | qps
  | uniform
  deriving DecidableEq, Repr

/-- The members `_queue` and `_state`. -/
structure SamplerTree (m : ℕ) where
  queue : Bst
  state : SampleType

/-- `_leaf_num`. -/
def leafNum (m : ℕ) : ℕ := BST.nearestPowerOfTwo m

namespace SamplerTree

/-- The constructor. -/
def construct (m : ℕ) : SamplerTree m := ⟨fun _ => 0, .none⟩

/-- `get_packet_number`. -/
def getPacketNumber (st : SamplerTree m) (dst : Fin m) : ℤ := st.queue (dst + leafNum m)

/-- `add_item`. -/
def addItem (st : SamplerTree m) (dst : Fin m) : SamplerTree m :=
  { queue := Function.update st.queue (leafNum m + dst) (st.queue (leafNum m + dst) + 1)
    state := .none }

/-- `remove_item`. -/
def removeItem (st : SamplerTree m) (dst : Fin m) : Except Fault (SamplerTree m) := do
  let queue := Function.update st.queue (leafNum m + dst) (st.queue (leafNum m + dst) - 1)
  require (0 ≤ queue (leafNum m + dst)) .negativeCount
  .ok { queue := queue, state := .none }

/-- `reset`. -/
def reset (st : SamplerTree m) : SamplerTree m := { st with queue := fun _ => 0 }

/-- What a leaf with the given count adds to the nodes above it. -/
def weight (tp : SampleType) (count : ℤ) : ℤ :=
  if tp = .uniform ∧ 1 ≤ count then 1 else count

/-- One leaf of the loop of `build_tree`. -/
def addLeaf (m : ℕ) (tp : SampleType) (queue : Bst) (k : ℕ) : Except Fault Bst :=
  BST.update queue ((leafNum m + k) / 2) (weight tp (queue (leafNum m + k)))

/-- `build_tree`; it does not set `_state`. -/
def buildTree (m : ℕ) (tp : SampleType) (queue : Bst) : Except Fault Bst :=
  if tp = .none then .ok queue
  else
    (List.range (leafNum m)).foldlM (addLeaf m tp)
      (fun i => if 1 ≤ i ∧ i < leafNum m then 0 else queue i)

/-- `search`, in a tree with `L` leaves; the fuel bounds the levels. -/
def search (L : ℕ) (queue : Bst) : ℕ → ℕ → ℤ → ℕ
  | 0, cur, _ => cur
  | fuel + 1, cur, idx =>
    if 2 * L ≤ 2 * cur then cur
    else if idx < queue (2 * cur) then search L queue fuel (2 * cur) idx
    else search L queue fuel (2 * cur + 1) (idx - queue (2 * cur))

/-- `sample`: the sampled output, or none for the result `-1`; `draw k` is the index drawn from
    `[0, k)`. -/
def sample (tp : SampleType) (draw : ℕ → ℕ) (st : SamplerTree m) :
    Except Fault (Option (Fin m) × SamplerTree m) :=
  if tp = .none then .ok (none, st)
  else do
    let queue ← if tp ≠ st.state then buildTree m tp st.queue else .ok st.queue
    if queue 1 = 0 then .ok (none, { st with queue := queue })
    else
      let leaf := search (leafNum m) queue (2 * leafNum m) 1 (draw (queue 1).toNat)
      if h : leafNum m ≤ leaf ∧ leaf - leafNum m < m then
        .ok (some ⟨leaf - leafNum m, h.2⟩, { st with queue := queue })
      else .error .badSample

/-- The samplers that a sequence of calls can lead to. -/
inductive Reachable : SamplerTree m → Prop where
  | construct : Reachable (construct m)
  | addItem {st : SamplerTree m} (dst : Fin m) : Reachable st → Reachable (st.addItem dst)
  | removeItem {st st' : SamplerTree m} (dst : Fin m) : Reachable st →
      st.removeItem dst = .ok st' → Reachable st'
  | sample {st st' : SamplerTree m} {out : Option (Fin m)} (tp : SampleType) (draw : ℕ → ℕ) :
      Reachable st → st.sample tp draw = .ok (out, st') → Reachable st'
  | reset {st : SamplerTree m} : Reachable st → Reachable st.reset

/-! ### Rebuilding the tree -/

/-- The inner nodes of `tree` over the leaves `leaf`. -/
def overlay (L : ℕ) (leaf : ℕ → ℤ) (tree : Bst) : Bst := fun j =>
  if j = 0 ∨ 2 * L ≤ j then 0 else if L ≤ j then leaf j else tree j

theorem overlay_inner {L : ℕ} {leaf : ℕ → ℤ} {tree : Bst} {j : ℕ} (h1 : 1 ≤ j) (hj : j < L) :
    overlay L leaf tree j = tree j := by
  rw [overlay, if_neg (by omega), if_neg (by omega)]

theorem overlay_leaf {L : ℕ} {leaf : ℕ → ℤ} {tree : Bst} {j : ℕ} (h1 : 1 ≤ j) (hj : L ≤ j)
    (hj' : j < 2 * L) : overlay L leaf tree j = leaf j := by
  rw [overlay, if_neg (by omega), if_pos hj]

/-- A climb above the leaves reads and writes inner nodes only. -/
theorem updateFrom_congr {L fuel : ℕ} {a b a' : Bst} {i : ℕ} {δ : ℤ}
    (hab : ∀ j, 1 ≤ j → j < L → a j = b j) (h1 : 1 ≤ i) (hi : i < L)
    (hrun : BST.updateFrom fuel a i δ = .ok a') :
    ∃ b', BST.updateFrom fuel b i δ = .ok b' ∧ ∀ j, 1 ≤ j → j < L → a' j = b' j := by
  induction fuel generalizing a b i with
  | zero =>
    cases hrun
    exact ⟨b, rfl, hab⟩
  | succ fuel ih =>
    unfold BST.updateFrom at hrun ⊢
    obtain ⟨⟨⟩, hreq, hrun⟩ := bind_eq_ok.mp hrun
    rw [hab i h1 hi] at hreq
    rw [hreq, ok_bind]
    have hset : ∀ j, 1 ≤ j → j < L →
        Function.update a i (a i + δ) j = Function.update b i (b i + δ) j := by
      intro j hj1 hj
      rw [Function.update_apply, Function.update_apply, hab i h1 hi, hab j hj1 hj]
    by_cases hroot : i = 1
    · rw [if_pos hroot] at hrun
      cases hrun
      exact ⟨Function.update b i (b i + δ), by rw [if_pos hroot], hset⟩
    · rw [if_neg hroot] at hrun
      obtain ⟨b', hrun', hsame⟩ := ih hset (by omega) (by omega) hrun
      exact ⟨b', by rw [if_neg hroot]; exact hrun', hsame⟩

/-- Adding a leaf of the given weight to a tree that does not count it yet. -/
theorem addLeaf_eq_ok {tp : SampleType} (hL : 2 ≤ leafNum m) {tree : Bst} {leaf : ℕ → ℤ} {k : ℕ}
    (hk : k < leafNum m) (h : IsSumTree (leafNum m) (overlay (leafNum m) leaf tree))
    (hleaf : leaf (leafNum m + k) = 0) (hweight : 0 ≤ weight tp (tree (leafNum m + k))) :
    ∃ tree', addLeaf m tp tree k = .ok tree' ∧ (∀ l, leafNum m ≤ l → tree' l = tree l) ∧
      IsSumTree (leafNum m) (overlay (leafNum m)
        (Function.update leaf (leafNum m + k) (weight tp (tree (leafNum m + k)))) tree') := by
  generalize hδ : weight tp (tree (leafNum m + k)) = δ at hweight
  have hold : overlay (leafNum m) leaf tree (leafNum m + k) = 0 := by
    rw [overlay_leaf (by omega) (by omega) (by omega), hleaf]
  -- The leaf takes its weight; what its ancestors lack is what the climb adds.
  have hdeficit : Deficit (leafNum m)
      (overlay (leafNum m) (Function.update leaf (leafNum m + k) δ) tree)
      ((leafNum m + k) / 2) δ := by
    have hclimb := (h.deficit (by omega) (by rw [hold]; omega)).climb (δ := δ)
      (i := leafNum m + k) (by omega) (by omega)
    have heq : Function.update (overlay (leafNum m) leaf tree) (leafNum m + k)
        (overlay (leafNum m) leaf tree (leafNum m + k) + δ)
        = overlay (leafNum m) (Function.update leaf (leafNum m + k) δ) tree := by
      ext j
      rw [hold, zero_add, Function.update_apply]
      split
      · rename_i hj
        rw [hj, overlay_leaf (by omega) (by omega) (by omega), Function.update_self]
      · rename_i hj
        unfold overlay
        rw [Function.update_of_ne hj]
    rwa [heq] at hclimb
  obtain ⟨full, hfull, htree, -, -⟩ :=
    BST.updateFrom_eq_ok hdeficit (by omega) (by omega) (le_refl _)
  obtain ⟨tree', hrun, hinner⟩ := updateFrom_congr
    (fun j h1 hj => (overlay_inner h1 hj : overlay _ _ tree j = tree j)) (by omega) (by omega) hfull
  refine ⟨tree', ?_, fun l hl => BST.updateFrom_leaf hrun (by omega) hl, ?_⟩
  · rw [addLeaf, hδ]
    exact hrun
  · have heq : overlay (leafNum m) (Function.update leaf (leafNum m + k) δ) tree' = full := by
      ext j
      by_cases hout : j = 0 ∨ 2 * leafNum m ≤ j
      · rw [htree.outside j hout, overlay, if_pos hout]
      · by_cases hj : j < leafNum m
        · rw [overlay_inner (by omega) hj, hinner j (by omega) hj]
        · rw [BST.updateFrom_leaf hfull (by omega) (by omega : leafNum m ≤ j)]
          rw [overlay_leaf (by omega) (by omega) (by omega),
            overlay_leaf (by omega) (by omega) (by omega)]
    rw [heq]
    exact htree

theorem weight_nonneg (tp : SampleType) {count : ℤ} (h : 0 ≤ count) : 0 ≤ weight tp count := by
  unfold weight
  split <;> omega

/-- After `k` leaves, the tree counts these and no others. -/
theorem addLeaves_eq_ok (tp : SampleType) (hL : 2 ≤ leafNum m) {queue : Bst}
    (hweight : ∀ l, leafNum m ≤ l → l < 2 * leafNum m → 0 ≤ queue l) {k : ℕ} (hk : k ≤ leafNum m) :
    ∃ tree, (List.range k).foldlM (addLeaf m tp)
        (fun i => if 1 ≤ i ∧ i < leafNum m then 0 else queue i) = .ok tree ∧
      (∀ l, leafNum m ≤ l → tree l = queue l) ∧
      IsSumTree (leafNum m) (overlay (leafNum m)
        (fun l => if l < leafNum m + k then weight tp (queue l) else 0) tree) := by
  induction k with
  | zero =>
    refine ⟨_, rfl, fun l hl => if_neg (by omega), ?_⟩
    -- no leaf is added yet, and the inner nodes are cleared
    have hzero : overlay (leafNum m)
        (fun l => if l < leafNum m + 0 then weight tp (queue l) else 0)
        (fun i => if 1 ≤ i ∧ i < leafNum m then 0 else queue i) = fun _ => 0 := by
      ext j
      unfold overlay
      split
      · rfl
      · split
        · exact if_neg (by omega)
        · exact if_pos (by omega)
    rw [hzero]
    exact isSumTree_zero _
  | succ k ih =>
    obtain ⟨tree, hrun, hleaves, htree⟩ := ih (by omega)
    have hcount := hleaves (leafNum m + k) (by omega)
    have hnonneg := weight_nonneg tp (hweight (leafNum m + k) (by omega) (by omega))
    obtain ⟨tree', hrun', hleaves', htree'⟩ := addLeaf_eq_ok (k := k) hL (by omega) htree
      (if_neg (by omega)) (by rwa [hcount])
    refine ⟨tree', ?_, fun l hl => (hleaves' l hl).trans (hleaves l hl), ?_⟩
    · rw [List.range_succ, List.foldlM_append, hrun]
      show addLeaf m tp tree k >>= _ = _
      rw [hrun']
      rfl
    · rw [hcount] at htree'
      -- the leaves up to the new one
      refine cast (congrArg (fun leaf => IsSumTree _ (overlay _ leaf tree')) ?_) htree'
      ext l
      rw [Function.update_apply]
      by_cases hl : l = leafNum m + k
      · rw [if_pos hl, if_pos (by omega), hl]
      · rw [if_neg hl]
        by_cases hlt : l < leafNum m + k
        · rw [if_pos hlt, if_pos (by omega)]
        · rw [if_neg hlt, if_neg (by omega)]

/-- Rebuilding leaves the counts alone and makes the inner nodes the sums of the weights. -/
theorem buildTree_eq_ok {tp : SampleType} (htp : tp ≠ .none) (hL : 2 ≤ leafNum m) {queue : Bst}
    (hweight : ∀ l, leafNum m ≤ l → l < 2 * leafNum m → 0 ≤ queue l) :
    ∃ tree, buildTree m tp queue = .ok tree ∧ (∀ l, leafNum m ≤ l → tree l = queue l) ∧
      IsSumTree (leafNum m) (overlay (leafNum m) (fun l => weight tp (queue l)) tree) := by
  obtain ⟨tree, hrun, hleaves, htree⟩ := addLeaves_eq_ok tp hL hweight (le_refl _)
  refine ⟨tree, by rw [buildTree, if_neg htp, hrun], hleaves, ?_⟩
  refine cast (congrArg (IsSumTree _) ?_) htree
  ext j
  unfold overlay
  split
  · rfl
  · have hlt : j < leafNum m + leafNum m := by omega
    simp only [if_pos hlt]

/-! ### Searching -/

/-- The tree of a uniform sample beside the sum tree in which every non-empty leaf counts as one:
    the inner nodes are the same, the leaves of `queue` are the counts. -/
structure Indicator (L : ℕ) (queue tree : Bst) : Prop where
  even : 2 ∣ L
  sums : IsSumTree L tree
  inner : ∀ j, 1 ≤ j → j < L → tree j = queue j
  leaf : ∀ l, L ≤ l → l < 2 * L → tree l = if 0 < queue l then 1 else 0
  nonneg : ∀ l, L ≤ l → l < 2 * L → 0 ≤ queue l

namespace Indicator

variable {L : ℕ} {queue tree : Bst}

/-- No node counts more in the sum tree. -/
theorem le (h : Indicator L queue tree) {j : ℕ} (h1 : 1 ≤ j) (hj : j < 2 * L) :
    tree j ≤ queue j := by
  by_cases hlt : j < L
  · exact (h.inner j h1 hlt).le
  · have hnonneg := h.nonneg j (by omega) hj
    rw [h.leaf j (by omega) hj]
    split <;> omega

/-- A search for an index below the root ends in a non-empty leaf. -/
theorem search_pos (h : Indicator L queue tree) (fuel cur : ℕ) (idx : ℤ) (h1 : 1 ≤ cur)
    (hcur : cur < 2 * L) (hfuel : L ≤ cur + fuel) (hinner : cur < L → 0 ≤ idx ∧ idx < tree cur)
    (hleaf : L ≤ cur → 0 < queue cur) :
    L ≤ search L queue fuel cur idx ∧ search L queue fuel cur idx < 2 * L ∧
      0 < queue (search L queue fuel cur idx) := by
  induction fuel generalizing cur idx with
  | zero => exact ⟨hfuel, hcur, hleaf hfuel⟩
  | succ fuel ih =>
    unfold search
    by_cases hstop : 2 * L ≤ 2 * cur
    · rw [if_pos hstop]
      exact ⟨by omega, hcur, hleaf (by omega)⟩
    · rw [if_neg hstop]
      obtain ⟨h0, hlt⟩ := hinner (by omega)
      have hsum := h.sums.sum cur h1 (by omega)
      have hle := h.le (j := 2 * cur) (by omega) (by omega)
      split
      · rename_i hleft
        refine ih (2 * cur) idx (by omega) (by omega) (by omega) (fun hlt' => ⟨h0, ?_⟩)
          (fun _ => ?_)
        · rwa [h.inner (2 * cur) (by omega) hlt']
        · omega
      · rename_i hright
        refine ih (2 * cur + 1) _ (by omega) (by omega) (by omega)
          (fun hlt' => ⟨by omega, by omega⟩) (fun hge => ?_)
        -- A leaf on the right is reached with an index that the left one does not cover.
        by_contra hzero
        rw [h.leaf (2 * cur + 1) hge (by omega), if_neg hzero] at hsum
        omega

/-- A leaf on the right is only found beside a leaf with at most one packet. -/
theorem search_right (h : Indicator L queue tree) (fuel cur : ℕ) (idx : ℤ) (h1 : 1 ≤ cur)
    (hcur : cur < L) (hfuel : L ≤ cur + fuel) (hlt : idx < tree cur) {c : ℕ} (hc : L ≤ 2 * c)
    (hsearch : search L queue fuel cur idx = 2 * c + 1) : queue (2 * c) ≤ 1 := by
  obtain ⟨k, hk⟩ := h.even
  induction fuel generalizing cur idx with
  | zero => omega
  | succ fuel ih =>
    unfold search at hsearch
    rw [if_neg (by omega)] at hsearch
    have hsum := h.sums.sum cur h1 hcur
    by_cases hdeep : 2 * cur < L
    · -- Both children are inner nodes.
      have hinner := h.inner (2 * cur) (by omega) hdeep
      split at hsearch
      · exact ih (2 * cur) idx (by omega) hdeep (by omega) (by omega) hsearch
      · exact ih (2 * cur + 1) _ (by omega) (by omega) (by omega) (by omega) hsearch
    · have hstop : ∀ j idx, L ≤ j → search L queue fuel j idx = j := by
        intro j idx hj
        cases fuel with
        | zero => rfl
        | succ fuel => rw [search, if_pos (by omega)]
      split at hsearch
      · rw [hstop _ _ (by omega)] at hsearch
        omega
      · rename_i hright
        rw [hstop _ _ (by omega)] at hsearch
        obtain rfl : cur = c := by omega
        rw [h.leaf (2 * cur) (by omega) (by omega),
          h.leaf (2 * cur + 1) (by omega) (by omega)] at hsum
        split at hsum <;> split at hsum <;> omega

/-- Some index below `tree cur` leads from node `cur` to the leaf `l`. -/
def Reaches (L : ℕ) (queue tree : Bst) (l cur : ℕ) : Prop :=
  ∃ idx, 0 ≤ idx ∧ idx < tree cur ∧ ∀ fuel, L ≤ cur + fuel → search L queue fuel cur idx = l

/-- From a node to its parent; a node on the right needs that its sibling is counted exactly. -/
theorem Reaches.up (h : Indicator L queue tree) {l cur : ℕ} (hcur : 2 ≤ cur)
    (hcur' : cur < 2 * L) (hright : ∀ p, cur = 2 * p + 1 → tree (2 * p) = queue (2 * p))
    (hreach : Reaches L queue tree l cur) : Reaches L queue tree l (cur / 2) := by
  obtain ⟨idx, h0, hlt, hsearch⟩ := hreach
  have hsum := h.sums.sum (cur / 2) (by omega) (by omega)
  rcases (by omega : cur = 2 * (cur / 2) ∨ cur = 2 * (cur / 2) + 1) with hc | hc
  · have hle := h.le (j := cur) (by omega) hcur'
    have hsibling := h.sums.nonneg (2 * (cur / 2) + 1) (by omega) (by omega)
    rw [← hc] at hsum hsibling
    refine ⟨idx, h0, by omega, fun fuel hfuel => ?_⟩
    obtain ⟨fuel, rfl⟩ : ∃ f, fuel = f + 1 := Nat.exists_eq_succ_of_ne_zero (by omega)
    rw [search, if_neg (by omega), ← hc, if_pos (by omega)]
    exact hsearch fuel (by omega)
  · have hsibling := h.sums.nonneg (2 * (cur / 2)) (by omega) (by omega)
    have hexact := hright (cur / 2) hc
    rw [← hc] at hsum
    refine ⟨tree (2 * (cur / 2)) + idx, by omega, by omega, fun fuel hfuel => ?_⟩
    obtain ⟨fuel, rfl⟩ : ∃ f, fuel = f + 1 := Nat.exists_eq_succ_of_ne_zero (by omega)
    rw [search, if_neg (by omega), ← hexact, if_neg (by omega), ← hc, add_sub_cancel_left]
    exact hsearch fuel (by omega)

/-- From an inner node to the root. -/
theorem Reaches.root (h : Indicator L queue tree) {l : ℕ} (cur : ℕ) (h1 : 1 ≤ cur) (hcur : cur < L)
    (hreach : Reaches L queue tree l cur) : Reaches L queue tree l 1 := by
  induction cur using Nat.strong_induction_on with
  | _ cur ih =>
    by_cases hroot : cur = 1
    · rwa [hroot] at hreach
    · refine ih (cur / 2) (by omega) (by omega) (by omega)
        (hreach.up h (by omega) (by omega) (fun p hp => ?_))
      exact h.inner _ (by omega) (by omega)

/-- A non-empty leaf is found unless it stands to the right of one with more than one packet. -/
theorem reaches_leaf (h : Indicator L queue tree) {l : ℕ} (hl : L ≤ l) (hl' : l < 2 * L)
    (hpos : 0 < queue l) (hright : ∀ p, l = 2 * p + 1 → queue (2 * p) ≤ 1) :
    Reaches L queue tree l 1 := by
  obtain ⟨k, hk⟩ := h.even
  have hself : Reaches L queue tree l l := by
    refine ⟨0, le_refl 0, by rw [h.leaf l hl hl', if_pos hpos]; omega, fun fuel _ => ?_⟩
    cases fuel with
    | zero => rfl
    | succ fuel => rw [search, if_pos (by omega)]
  refine Reaches.root h (l / 2) (by omega) (by omega) (hself.up h (by omega) hl' (fun p hp => ?_))
  have hone := hright p hp
  have hnonneg := h.nonneg (2 * p) (by omega) (by omega)
  rw [h.leaf (2 * p) (by omega) (by omega)]
  split <;> omega

end Indicator

/-! ### The counts -/

/-- No count is negative and the leaves beyond the last output are empty; the tree is always taken
    to be out of date. -/
structure Valid (st : SamplerTree m) : Prop where
  state : st.state = .none
  nonneg : ∀ l, leafNum m ≤ l → l < 2 * leafNum m → 0 ≤ st.queue l
  padding : ∀ d, m ≤ d → d < leafNum m → st.queue (leafNum m + d) = 0

theorem le_leafNum (m : ℕ) : m ≤ leafNum m := BST.le_nearestPowerOfTwo m

theorem two_dvd_leafNum (hm : 2 ≤ m) : 2 ∣ leafNum m := by
  unfold leafNum BST.nearestPowerOfTwo
  rw [if_neg (by omega)]
  exact Dvd.intro_left _ rfl

/-- A change of one count that keeps it from being negative. -/
theorem Valid.update {st : SamplerTree m} (h : st.Valid) (dst : Fin m) {c : ℤ} (hc : 0 ≤ c) :
    Valid (m := m) ⟨Function.update st.queue (leafNum m + dst) c, .none⟩ := by
  refine ⟨rfl, fun l hl hl' => ?_, fun d hd hd' => ?_⟩
  · show 0 ≤ Function.update st.queue (leafNum m + dst) c l
    rw [Function.update_apply]
    split
    · exact hc
    · exact h.nonneg l hl hl'
  · have hdst := dst.isLt
    show Function.update st.queue (leafNum m + dst) c (leafNum m + d) = 0
    rw [Function.update_of_ne (by omega), h.padding d hd hd']

/-- The inner nodes do not matter. -/
theorem Valid.of_leaves {st : SamplerTree m} (h : st.Valid) {tree : Bst}
    (htree : ∀ l, leafNum m ≤ l → tree l = st.queue l) :
    Valid (m := m) { st with queue := tree } := by
  refine ⟨h.state, fun l hl hl' => ?_, fun d hd hd' => ?_⟩
  · show 0 ≤ tree l
    rw [htree l hl]
    exact h.nonneg l hl hl'
  · show tree (leafNum m + d) = 0
    rw [htree _ (by omega)]
    exact h.padding d hd hd'

/-- Sampling changes inner nodes only. -/
theorem Valid.sample_leaves {st st' : SamplerTree m} (h : st.Valid) (hm : 2 ≤ m) {tp : SampleType}
    {draw : ℕ → ℕ} {out : Option (Fin m)} (hrun : st.sample tp draw = .ok (out, st')) :
    st' = { st with queue := st'.queue } ∧ ∀ l, leafNum m ≤ l → st'.queue l = st.queue l := by
  unfold sample at hrun
  split at hrun
  · cases hrun
    exact ⟨rfl, fun _ _ => rfl⟩
  · rename_i htp
    rw [h.state, if_pos htp] at hrun
    obtain ⟨tree, hbuild, hleaves, -⟩ := buildTree_eq_ok htp (hm.trans (le_leafNum m)) h.nonneg
    rw [hbuild, ok_bind] at hrun
    dsimp only at hrun
    have hst : st' = { st with queue := tree } := by
      rw [h.state]
      split at hrun
      · cases hrun
        rfl
      · split at hrun
        · cases hrun
          rfl
        · cases hrun
    rw [hst]
    exact ⟨rfl, hleaves⟩

theorem Reachable.valid (hm : 2 ≤ m) {st : SamplerTree m} (h : st.Reachable) : st.Valid := by
  have hL : 2 ≤ leafNum m := hm.trans (le_leafNum m)
  induction h with
  | construct => exact ⟨rfl, fun _ _ _ => le_refl 0, fun _ _ _ => rfl⟩
  | addItem dst _ ih =>
    refine ih.update dst ?_
    have hdst := dst.isLt
    have hnonneg := ih.nonneg (leafNum m + dst) (by omega) (by have := le_leafNum m; omega)
    omega
  | removeItem dst _ hrun ih =>
    obtain ⟨⟨⟩, hreq, hrun'⟩ := bind_eq_ok.mp hrun
    cases hrun'
    have hpos := of_require hreq
    rw [Function.update_self] at hpos
    exact ih.update dst hpos
  | sample tp draw _ hrun ih =>
    obtain ⟨hstate, hleaves⟩ := ih.sample_leaves hm hrun
    exact hstate ▸ ih.of_leaves hleaves
  | reset _ ih => exact ⟨ih.state, fun _ _ _ => le_refl 0, fun _ _ _ => rfl⟩

/-- The packet counts that the leaves hold. -/
def counts (st : SamplerTree m) : QueueSampler m := st.getPacketNumber

/-- Sampling does not change the counts. -/
theorem Valid.counts_sample {st st' : SamplerTree m} (h : st.Valid) (hm : 2 ≤ m) {tp : SampleType}
    {draw : ℕ → ℕ} {out : Option (Fin m)} (hrun : st.sample tp draw = .ok (out, st')) :
    st'.counts = st.counts :=
  funext (fun _ => (h.sample_leaves hm hrun).2 _ (Nat.le_add_left ..))

/-- The outputs with a packet. -/
def positives (st : SamplerTree m) : Finset (Fin m) :=
  Finset.univ.filter (fun dst => 0 < st.getPacketNumber dst)

theorem mem_positives {st : SamplerTree m} {dst : Fin m} :
    dst ∈ st.positives ↔ 0 < st.queue (leafNum m + dst) := by
  rw [positives, Finset.mem_filter, getPacketNumber, add_comm]
  exact and_iff_right (Finset.mem_univ _)

/-- The tree that a uniform sample rebuilds counts every non-empty leaf as one. -/
theorem Valid.indicator {st : SamplerTree m} (h : st.Valid) (hm : 2 ≤ m) {queue : Bst}
    (hleaves : ∀ l, leafNum m ≤ l → queue l = st.queue l)
    (hsums : IsSumTree (leafNum m)
      (overlay (leafNum m) (fun l => weight .uniform (st.queue l)) queue)) :
    Indicator (leafNum m) queue
      (overlay (leafNum m) (fun l => weight .uniform (st.queue l)) queue) := by
  refine ⟨two_dvd_leafNum hm, hsums, fun j h1 hj => overlay_inner h1 hj, fun l hl hl' => ?_,
    fun l hl hl' => ?_⟩
  · have hnonneg := h.nonneg l hl hl'
    rw [overlay_leaf (by omega) hl hl', hleaves l hl, weight]
    by_cases hpos : 0 < st.queue l
    · rw [if_pos hpos, if_pos ⟨rfl, by omega⟩]
    · rw [if_neg hpos, if_neg (fun hc => hpos (by omega))]
      omega
  · rw [hleaves l hl]
    exact h.nonneg l hl hl'

/-- Its root counts the outputs with a packet: the leaves beyond the last output are empty. -/
theorem Valid.root_eq_card {st : SamplerTree m} (h : st.Valid) (hL : 2 ≤ leafNum m)
    {queue tree : Bst} (hind : Indicator (leafNum m) queue tree)
    (hleaves : ∀ l, leafNum m ≤ l → queue l = st.queue l) : tree 1 = st.positives.card := by
  have hleaf : ∀ d, d < leafNum m →
      tree (leafNum m + d) = if 0 < st.queue (leafNum m + d) then 1 else 0 := by
    intro d hd
    rw [hind.leaf _ (by omega) (by omega), hleaves _ (by omega)]
  calc tree 1
      = ∑ d ∈ Finset.range (leafNum m), if 0 < st.queue (leafNum m + d) then (1 : ℤ) else 0 := by
        rw [hind.sums.root_eq_sum (by omega)]
        exact Finset.sum_congr rfl (fun d hd => hleaf d (Finset.mem_range.mp hd))
    _ = ∑ d ∈ Finset.range m, if 0 < st.queue (leafNum m + d) then (1 : ℤ) else 0 := by
        symm
        refine Finset.sum_subset (Finset.range_subset_range.mpr (le_leafNum m)) (fun d hd hd' => ?_)
        rw [Finset.mem_range] at hd hd'
        rw [h.padding d (by omega) hd, if_neg (lt_irrefl 0)]
    _ = ∑ dst : Fin m, if 0 < st.queue (leafNum m + dst) then (1 : ℤ) else 0 :=
        (Fin.sum_univ_eq_sum_range
          (fun d => if 0 < st.queue (leafNum m + d) then (1 : ℤ) else 0) m).symm
    _ = st.positives.card := by
        rw [Finset.sum_boole, positives]
        exact congrArg (fun s => ((Finset.card s : ℕ) : ℤ))
          (Finset.filter_congr (fun dst _ => by rw [getPacketNumber, add_comm]))

/-- A leaf with a packet is the leaf of an output. -/
theorem Valid.exists_output {st : SamplerTree m} (h : st.Valid) {l : ℕ} (hl : leafNum m ≤ l)
    (hl' : l < 2 * leafNum m) (hpos : 0 < st.queue l) :
    ∃ out ∈ st.positives, leafNum m + out = l := by
  have hout : l - leafNum m < m := by
    by_contra hge
    have hpad := h.padding (l - leafNum m) (by omega) (by omega)
    rw [Nat.add_sub_cancel' hl] at hpad
    omega
  refine ⟨⟨l - leafNum m, hout⟩, mem_positives.mpr ?_, Nat.add_sub_cancel' hl⟩
  show 0 < st.queue (leafNum m + (l - leafNum m))
  rwa [Nat.add_sub_cancel' hl]

/-- What a uniform sample works with: the root counts the outputs with a packet, and every index
    below it leads to an output. -/
theorem Valid.sample_uniform {st : SamplerTree m} (h : st.Valid) (hm : 2 ≤ m) :
    ∃ queue tree, Indicator (leafNum m) queue tree ∧
      (∀ l, leafNum m ≤ l → queue l = st.queue l) ∧ tree 1 = st.positives.card ∧
      ∀ idx < st.positives.card, ∃ out ∈ st.positives,
        leafNum m + out = search (leafNum m) queue (2 * leafNum m) 1 idx ∧
        ∀ draw, draw st.positives.card = idx →
          st.sample .uniform draw = .ok (some out, { st with queue := queue }) := by
  have hL : 2 ≤ leafNum m := hm.trans (le_leafNum m)
  obtain ⟨queue, hbuild, hleaves, hsums⟩ := buildTree_eq_ok (nofun : SampleType.uniform ≠ .none) hL
    h.nonneg
  have hind := h.indicator hm hleaves hsums
  have hroot := h.root_eq_card hL hind hleaves
  refine ⟨queue, _, hind, hleaves, hroot, fun idx hidx => ?_⟩
  obtain ⟨hge, hlt, hpos⟩ := hind.search_pos (2 * leafNum m) 1 idx (le_refl 1) (by omega) (by omega)
    (fun _ => ⟨Int.natCast_nonneg idx, by rw [hroot]; exact_mod_cast hidx⟩) (fun hc => by omega)
  obtain ⟨out, hmem, hout⟩ := h.exists_output hge hlt (by rwa [← hleaves _ hge])
  refine ⟨out, hmem, hout, fun draw hdraw => ?_⟩
  have hqueue : queue 1 = st.positives.card := by
    rw [← hroot, hind.inner 1 (le_refl 1) (by omega)]
  have hne : queue 1 ≠ 0 := by
    rw [hqueue]
    exact_mod_cast (by omega : st.positives.card ≠ 0)
  have hdrawn : draw (queue 1).toNat = idx := by
    rw [hqueue, Int.toNat_natCast, hdraw]
  rw [SamplerTree.sample, if_neg nofun, h.state, if_pos nofun, hbuild, ok_bind]
  simp only [if_neg hne, hdrawn, ← hout, Nat.add_sub_cancel_left]
  exact dif_pos ⟨Nat.le_add_right _ _, out.isLt⟩

/-! ### Uniformity -/

/-- The index drawn for a uniform sample ranges over as many values as there are outputs with a
    packet, and each of these is returned for exactly one of them. -/
def SamplesUniformly (st : SamplerTree m) : Prop :=
  ∃ out : ℕ → Fin m,
    (∀ draw : ℕ → ℕ, draw st.positives.card < st.positives.card →
      ∃ st', st.sample .uniform draw = .ok (some (out (draw st.positives.card)), st')) ∧
    Set.BijOn out (Finset.range st.positives.card) st.positives

/-- The right leaf of a pair is reached only when the left one holds at most one packet. -/
theorem Valid.le_one_of_uniform {st : SamplerTree m} (h : st.Valid) (hm : 2 ≤ m)
    (huniform : st.SamplesUniformly) {o o' : Fin m} (ho : 2 ∣ (o : ℕ)) (ho' : (o' : ℕ) = o + 1)
    (hpos : 0 < st.getPacketNumber o') : st.getPacketNumber o ≤ 1 := by
  have hL : 2 ≤ leafNum m := hm.trans (le_leafNum m)
  obtain ⟨k, hk⟩ := two_dvd_leafNum hm
  obtain ⟨a, ha⟩ := ho
  obtain ⟨queue, tree, hind, hleaves, hroot, hsample⟩ := h.sample_uniform hm
  obtain ⟨out, hout, -, -, hsurj⟩ := huniform
  have hmem : o' ∈ st.positives := Finset.mem_filter.mpr ⟨Finset.mem_univ _, hpos⟩
  -- Some index draws the right output, and the search goes down to its leaf.
  obtain ⟨idx, hidx, heq⟩ := hsurj hmem
  rw [Finset.mem_coe, Finset.mem_range] at hidx
  obtain ⟨p, -, hsearch, hrun⟩ := hsample idx hidx
  obtain ⟨st', hrun'⟩ := hout (fun _ => idx) hidx
  rw [hrun _ rfl, Except.ok.injEq, Prod.mk.injEq, Option.some.injEq] at hrun'
  obtain rfl : p = o' := hrun'.1.trans heq
  have hright := hind.search_right (2 * leafNum m) 1 idx (le_refl 1) (by omega) (by omega)
    (by rw [hroot]; exact_mod_cast hidx) (c := k + a) (by omega) (by rw [← hsearch]; omega)
  rw [hleaves _ (by omega), show 2 * (k + a) = o + leafNum m by omega] at hright
  exact hright

/-- If the left leaf of every pair with a packet on the right holds at most one, some index leads to
    each output with a packet. -/
theorem Valid.exists_index {st : SamplerTree m} (h : st.Valid) (hm : 2 ≤ m) {queue tree : Bst}
    (hind : Indicator (leafNum m) queue tree)
    (hleaves : ∀ l, leafNum m ≤ l → queue l = st.queue l) (hroot : tree 1 = st.positives.card)
    (hpairs : ∀ o o' : Fin m, 2 ∣ (o : ℕ) → (o' : ℕ) = o + 1 →
      0 < st.getPacketNumber o' → st.getPacketNumber o ≤ 1) {o : Fin m} (ho : o ∈ st.positives) :
    ∃ idx < st.positives.card,
      search (leafNum m) queue (2 * leafNum m) 1 (idx : ℕ) = leafNum m + o := by
  obtain ⟨k, hk⟩ := two_dvd_leafNum hm
  have hpos := mem_positives.mp ho
  rw [← hleaves _ (by omega)] at hpos
  have ho' := o.isLt
  have hle := le_leafNum m
  have hleft : ∀ p, leafNum m + o = 2 * p + 1 → queue (2 * p) ≤ 1 := by
    intro p hp
    have hcount := hpairs ⟨2 * p - leafNum m, by omega⟩ o
      ⟨p - k, by show 2 * p - leafNum m = 2 * (p - k); omega⟩
      (by show (o : ℕ) = 2 * p - leafNum m + 1; omega)
      (by rw [getPacketNumber, add_comm]; exact mem_positives.mp ho)
    rw [hleaves _ (by omega)]
    rw [getPacketNumber] at hcount
    rwa [show 2 * p - leafNum m + leafNum m = 2 * p by omega] at hcount
  obtain ⟨idx, h0, hlt, hsearch⟩ := hind.reaches_leaf (by omega) (by omega) hpos hleft
  lift idx to ℕ using h0
  rw [hroot] at hlt
  exact ⟨idx, by exact_mod_cast hlt, hsearch _ (by omega)⟩

/-- The search compares the index with the count of the left leaf, so it misses the right leaf of a
    pair exactly when the left one holds several packets. -/
theorem Valid.uniform_iff {st : SamplerTree m} (h : st.Valid) (hm : 2 ≤ m) :
    st.SamplesUniformly ↔ ∀ o o' : Fin m, 2 ∣ (o : ℕ) → (o' : ℕ) = o + 1 →
      0 < st.getPacketNumber o' → st.getPacketNumber o ≤ 1 := by
  constructor
  · intro huniform o o' ho ho' hpos
    exact h.le_one_of_uniform hm huniform ho ho' hpos
  · intro hpairs
    obtain ⟨queue, tree, hind, hleaves, hroot, hsample⟩ := h.sample_uniform hm
    have hall : ∀ idx, ∃ out : Fin m, idx < st.positives.card → out ∈ st.positives ∧
        leafNum m + out = search (leafNum m) queue (2 * leafNum m) 1 idx ∧
        ∀ draw, draw st.positives.card = idx →
          st.sample .uniform draw = .ok (some out, { st with queue := queue }) := by
      intro idx
      by_cases hidx : idx < st.positives.card
      · obtain ⟨out, hout⟩ := hsample idx hidx
        exact ⟨out, fun _ => hout⟩
      · exact ⟨⟨0, by omega⟩, fun hlt => absurd hlt hidx⟩
    choose out hout using hall
    have hmaps : Set.MapsTo out (Finset.range st.positives.card) st.positives :=
      fun idx hidx => (hout idx (Finset.mem_range.mp hidx)).1
    -- a map onto a set of the same size is one-to-one
    have hsurj : Set.SurjOn out (Finset.range st.positives.card) st.positives := by
      intro o ho
      obtain ⟨idx, hidx, hsearch⟩ := h.exists_index hm hind hleaves hroot hpairs ho
      refine ⟨idx, Finset.mem_coe.mpr (Finset.mem_range.mpr hidx), Fin.ext ?_⟩
      have heq := (hout idx hidx).2.1
      omega
    refine ⟨out, fun draw hdraw => ⟨_, (hout _ hdraw).2.2 draw rfl⟩, hmaps, ?_, hsurj⟩
    exact Finset.injOn_of_surjOn_of_card_le out hmaps hsurj (by rw [Finset.card_range])

/-- Every count that the calls of a sampler can lead to is sampled uniformly unless an even output
    has several packets and the next one has a packet. -/
theorem samplesUniformly_iff (hm : 2 ≤ m) {st : SamplerTree m} (h : st.Reachable) :
    st.SamplesUniformly ↔ ∀ o o' : Fin m, 2 ∣ (o : ℕ) → (o' : ℕ) = o + 1 →
      0 < st.getPacketNumber o' → st.getPacketNumber o ≤ 1 :=
  (h.valid hm).uniform_iff hm

/-- One packet for each of two outputs. -/
theorem samplesUniformly_one_one :
    let st := ((construct 2).addItem 0).addItem 1
    st.positives.card = 2 ∧ st.SamplesUniformly := by
  intro st
  refine ⟨by decide, (samplesUniformly_iff (le_refl 2)
    (.addItem 1 (.addItem 0 .construct))).mpr ?_⟩
  decide

/-- Two packets for output 0 and one for output 1: both indices lead to output 0. -/
theorem not_samplesUniformly_two_one :
    let st := (((construct 2).addItem 0).addItem 0).addItem 1
    st.Reachable ∧ st.positives.card = 2 ∧
      (∃ st', st.sample .uniform (fun _ => 0) = .ok (some 0, st')) ∧
      (∃ st', st.sample .uniform (fun _ => 1) = .ok (some 0, st')) ∧ ¬ st.SamplesUniformly := by
  intro st
  have hreach : st.Reachable := .addItem 1 (.addItem 0 (.addItem 0 .construct))
  have hzero : ∀ idx : ℕ, idx < 2 →
      returns (st.sample .uniform (fun _ => idx)) (fun r => decide (r.1 = some 0)) = true := by
    decide
  have hsame : ∀ idx : ℕ, idx < 2 →
      ∃ st', st.sample .uniform (fun _ => idx) = .ok (some 0, st') := by
    intro idx hidx
    obtain ⟨⟨out, st'⟩, hrun, hout⟩ := exists_of_returns (hzero idx hidx)
    obtain rfl : out = some 0 := of_decide_eq_true hout
    exact ⟨st', hrun⟩
  refine ⟨hreach, by decide, hsame 0 (by decide), hsame 1 (by decide), fun h => ?_⟩
  have hle := ((hreach.valid (le_refl 2)).uniform_iff (le_refl 2)).mp h 0 1 (by decide) (by decide)
    (by decide)
  exact absurd hle (by decide)

end SamplerTree

end SschedSimulator
