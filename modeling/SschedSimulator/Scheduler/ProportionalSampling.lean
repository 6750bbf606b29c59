import Mathlib.Order.Interval.Finset.Fin
import SschedSimulator.Saber.ProportionalSearch
import SschedSimulator.Scheduler.TreeSampling
import SschedSimulator.Scheduler.UniformSampling

namespace SschedSimulator

open Foundation

/-!
# Sampling in proportion to the queue lengths

Both sampling trees of the simulator return an output for as many offsets as it has packets.

* `Mirrors.sampleOutput_eq_some_iff` — the output of a tree of `BST` is the one whose range contains
  the offset;
* `SamplerTree.search_eq_descend` — the search of `Queue_Sampler` is the descent in the sum tree
  that `build_tree` has made;
* `SamplerTree.sample_proportional` — what `sample` returns for every index, after any calls.
-/

variable {m : ℕ}

/-- The packets for the outputs before `o`. -/
def lengthBefore (len : Fin m → ℤ) (o : Fin m) : ℤ := ∑ p ∈ Finset.Iio o, len p

/-- They are the weight of the leaves before the one of `o`. -/
theorem cumulative_eq_lengthBefore {L : ℕ} {t : ℕ → ℤ} {len : Fin m → ℤ}
    (hleaf : ∀ o : Fin m, t (L + o) = len o) (o : Fin m) :
    cumulative L t o = lengthBefore len o := by
  unfold cumulative lengthBefore
  rw [← Nat.Iio_eq_range, ← Fin.map_valEmbedding_Iio, Finset.sum_map]
  exact Finset.sum_congr rfl (fun p _ => hleaf p)

/-- The output of a leaf of positive weight is the one whose range contains the offset. -/
theorem Mirrors.sampleOutput_eq_some_iff {b : Bst} {len : Fin m → ℤ} (h : Mirrors b len) {r : ℚ}
    (h0 : 0 ≤ r) (hlt : r < b 1) (o : Fin m) :
    sampleOutput m b r = some o ↔
      (lengthBefore len o : ℚ) ≤ r ∧ r < (lengthBefore len o + len o : ℤ) := by
  have ho := lt_leftStart o
  have hleaf : ∀ p : Fin m, b (leftStart m + p) = len p := fun p => by
    rw [add_comm]
    exact h.leaf p
  have hrange := BST.upperBound_eq_iff (k := if m ≤ 1 then 0 else Nat.log2 (m - 1) + 1) h.tree h0
    hlt ho
  change BST.upperBound (leftStart m) b r = some (leftStart m + o) ↔
    (cumulative (leftStart m) b o : ℚ) ≤ r ∧ r < cumulative (leftStart m) b (o + 1) at hrange
  rw [cumulative_succ, cumulative_eq_lengthBefore hleaf, hleaf] at hrange
  -- The search finds the leaf whose part of the total holds the offset.
  rw [← hrange]
  unfold sampleOutput
  cases hbound : BST.upperBound (leftStart m) b r with
  | none => simp
  | some leaf =>
    rw [Option.some.injEq]
    dsimp only
    split
    · rename_i hout
      rw [Option.some.injEq, Fin.ext_iff]
      dsimp only
      omega
    · rename_i hout
      refine iff_of_false (Option.some_ne_none o).symm (fun hc => hout ?_)
      have := o.isLt
      omega

namespace SamplerTree

/-- `get_queue_length`. -/
def getQueueLength (st : SamplerTree m) : ℤ :=
  ((List.range (leafNum m)).map (fun k => st.queue (leafNum m + k))).sum

/-- The search compares integers where the one of `BST` compares fractions. -/
theorem search_eq_descend (L : ℕ) (queue : Bst) (fuel cur : ℕ) (idx : ℤ) :
    search L queue fuel cur idx = descend L queue fuel cur idx := by
  induction fuel generalizing cur idx with
  | zero => rfl
  | succ fuel ih =>
    unfold search descend
    simp only [ih, Int.cast_lt, Int.cast_sub]

section

variable {st : SamplerTree m}

theorem getPacketNumber_eq (st : SamplerTree m) (dst : Fin m) :
    st.queue (leafNum m + dst) = st.getPacketNumber dst := by
  rw [getPacketNumber, add_comm]

/-- The leaves beyond the last output hold nothing. -/
theorem Valid.getQueueLength_eq_sum (h : st.Valid) :
    st.getQueueLength = ∑ dst, st.getPacketNumber dst := by
  calc st.getQueueLength
      = ∑ k ∈ Finset.range (leafNum m), st.queue (leafNum m + k) := rfl
    _ = ∑ k ∈ Finset.range m, st.queue (leafNum m + k) := by
        symm
        refine Finset.sum_subset (Finset.range_subset_range.mpr (le_leafNum m)) (fun k hk hk' => ?_)
        rw [Finset.mem_range] at hk hk'
        exact h.padding k (by omega) hk
    _ = ∑ dst : Fin m, st.queue (leafNum m + dst) :=
        (Fin.sum_univ_eq_sum_range (fun k => st.queue (leafNum m + k)) m).symm
    _ = ∑ dst, st.getPacketNumber dst :=
        Finset.sum_congr rfl (fun dst _ => getPacketNumber_eq st dst)

theorem Valid.getPacketNumber_nonneg (h : st.Valid) (dst : Fin m) : 0 ≤ st.getPacketNumber dst := by
  have hdst := dst.isLt
  have hle := le_leafNum m
  rw [← getPacketNumber_eq]
  exact h.nonneg _ (by omega) (by omega)

theorem Valid.getQueueLength_eq_zero_iff (h : st.Valid) :
    st.getQueueLength = 0 ↔ ∀ dst, st.getPacketNumber dst = 0 := by
  rw [h.getQueueLength_eq_sum,
    Finset.sum_eq_zero_iff_of_nonneg (fun dst _ => h.getPacketNumber_nonneg dst)]
  simp

/-- The tree that a QPS sample rebuilds is a sum tree over the counts. -/
theorem Valid.buildTree_qps (h : st.Valid) (hm : 2 ≤ m) :
    ∃ queue tree, buildTree m .qps st.queue = .ok queue ∧ IsSumTree (leafNum m) tree ∧
      (∀ j, 1 ≤ j → j < 2 * leafNum m → queue j = tree j) ∧
      ∀ l, leafNum m ≤ l → l < 2 * leafNum m → tree l = st.queue l := by
  have hweight : ∀ c, weight .qps c = c := fun c => if_neg (fun hc => by cases hc.1)
  obtain ⟨queue, hbuild, hleaves, hsums⟩ :=
    buildTree_eq_ok (by decide : SampleType.qps ≠ .none) (hm.trans (le_leafNum m)) h.nonneg
  simp only [hweight] at hsums
  refine ⟨queue, _, hbuild, hsums, fun j h1 hj => ?_, fun l hl hl' => ?_⟩
  · by_cases hlt : j < leafNum m
    · exact (overlay_inner h1 hlt).symm
    · rw [overlay_leaf h1 (not_lt.mp hlt) hj, hleaves j (not_lt.mp hlt)]
  · exact overlay_leaf (by have := le_leafNum m; omega) hl hl'

/-- A QPS sample: nothing if there is no packet, else the output of the leaf where the descent in
    the tree of the counts ends. -/
theorem Valid.sample_qps_eq (h : st.Valid) (hm : 2 ≤ m) :
    ∃ queue tree, IsSumTree (leafNum m) tree ∧
      (∀ l, leafNum m ≤ l → l < 2 * leafNum m → tree l = st.queue l) ∧
      tree 1 = st.getQueueLength ∧
      ∀ draw : ℕ → ℕ, ∀ leaf : ℕ, leaf = descend (leafNum m) tree (2 * leafNum m) 1
          ((draw st.getQueueLength.toNat : ℤ) : ℚ) →
        st.sample .qps draw = if st.getQueueLength = 0 then .ok (none, { st with queue := queue })
          else if hout : leafNum m ≤ leaf ∧ leaf - leafNum m < m then
            .ok (some ⟨leaf - leafNum m, hout.2⟩, { st with queue := queue })
          else .error .badSample := by
  have hL : 2 ≤ leafNum m := hm.trans (le_leafNum m)
  obtain ⟨queue, tree, hbuild, htree, hsame, hleaf⟩ := h.buildTree_qps hm
  have htotal : tree 1 = st.getQueueLength := by
    rw [htree.root_eq_sum (by omega)]
    refine Finset.sum_congr rfl (fun k hk => ?_)
    rw [Finset.mem_range] at hk
    exact hleaf _ (by omega) (by omega)
  have hroot : queue 1 = st.getQueueLength := (hsame 1 (le_refl 1) (by omega)).trans htotal
  refine ⟨queue, tree, htree, hleaf, htotal, fun draw leaf hdescend => ?_⟩
  have hsearch : search (leafNum m) queue (2 * leafNum m) 1 (draw st.getQueueLength.toNat)
      = leaf := by
    rw [search_eq_descend, hdescend]
    exact descend_congr hsame _ _ _ (le_refl 1)
  rw [SamplerTree.sample, if_neg (by decide), h.state, if_pos (by decide), hbuild, ok_bind]
  simp only [hroot, hsearch]

/-- No output is sampled exactly when there is no packet. -/
theorem Valid.sample_qps_none_iff (h : st.Valid) (hm : 2 ≤ m) (draw : ℕ → ℕ) :
    (∃ st', st.sample .qps draw = .ok (none, st')) ↔ st.getQueueLength = 0 := by
  obtain ⟨queue, tree, -, -, -, hrun⟩ := h.sample_qps_eq hm
  rw [hrun draw _ rfl]
  constructor
  · rintro ⟨st', hok⟩
    by_contra hne
    rw [if_neg hne] at hok
    split at hok
    · cases hok
    · cases hok
  · intro hzero
    exact ⟨_, if_pos hzero⟩

/-- Every index below the number of packets leads to the output whose range contains it. -/
theorem Valid.sample_qps_some (h : st.Valid) (hm : 2 ≤ m) {draw : ℕ → ℕ} {idx : ℕ}
    (hidx : draw st.getQueueLength.toNat = idx) (hlt : (idx : ℤ) < st.getQueueLength) :
    ∃ out st', st.sample .qps draw = .ok (some out, st') ∧ 0 < st.getPacketNumber out ∧
      lengthBefore st.getPacketNumber out ≤ idx ∧
      idx < lengthBefore st.getPacketNumber out + st.getPacketNumber out := by
  have hle := le_leafNum m
  obtain ⟨queue, tree, htree, hleaf, htotal, hrun⟩ := h.sample_qps_eq hm
  have hrun := hrun draw
  rw [hidx] at hrun
  have h0 : (0 : ℚ) ≤ ((idx : ℤ) : ℚ) := by positivity
  have hlt' : ((idx : ℤ) : ℚ) < tree 1 := by
    rw [htotal]
    exact_mod_cast hlt
  -- The search ends in a leaf that is not empty, which is one of an output.
  obtain ⟨hge, hend, hpos⟩ := descend_spec htree (2 * leafNum m) 1 _ (le_refl 1) (by omega)
    (by omega) h0 hlt'
  rw [hleaf _ hge hend] at hpos
  obtain ⟨out, -, hout⟩ := h.exists_output hge hend hpos
  have hin : out < leafNum m := lt_of_lt_of_le out.isLt hle
  have hcounts : ∀ p : Fin m, tree (leafNum m + p) = st.getPacketNumber p := fun p => by
    have hp := p.isLt
    rw [hleaf _ (by omega) (by omega), getPacketNumber_eq]
  have hrange := (descend_eq_iff (k := if m ≤ 1 then 0 else Nat.log2 (m - 1) + 1) htree h0 hlt'
    hin).mp hout.symm
  change (cumulative (leafNum m) tree out : ℚ) ≤ (idx : ℤ) ∧
    ((idx : ℤ) : ℚ) < cumulative (leafNum m) tree (out + 1) at hrange
  rw [cumulative_succ, cumulative_eq_lengthBefore hcounts, hcounts, Int.cast_le,
    Int.cast_lt] at hrange
  refine ⟨out, { st with queue := queue }, ?_, ?_, hrange⟩
  · rw [hrun _ hout, if_neg (by omega)]
    simp only [Nat.add_sub_cancel_left]
    exact dif_pos ⟨Nat.le_add_right _ _, out.isLt⟩
  · rwa [← hout, getPacketNumber_eq] at hpos

/-- The ranges of two outputs do not meet. -/
theorem Valid.range_unique (h : st.Valid) {idx : ℤ} {o p : Fin m}
    (ho : lengthBefore st.getPacketNumber o ≤ idx ∧
      idx < lengthBefore st.getPacketNumber o + st.getPacketNumber o)
    (hp : lengthBefore st.getPacketNumber p ≤ idx ∧
      idx < lengthBefore st.getPacketNumber p + st.getPacketNumber p) : o = p := by
  have hnot : ∀ {o p : Fin m}, lengthBefore st.getPacketNumber p ≤ idx →
      idx < lengthBefore st.getPacketNumber o + st.getPacketNumber o → ¬ o < p := by
    intro o p hp ho hlt
    -- The packets for `o` are among those for the outputs before `p`.
    have hle : st.getPacketNumber o + lengthBefore st.getPacketNumber o
        ≤ lengthBefore st.getPacketNumber p := by
      unfold lengthBefore
      rw [← Finset.sum_insert (by simp)]
      refine Finset.sum_le_sum_of_subset_of_nonneg (fun q hq => ?_)
        (fun q _ _ => h.getPacketNumber_nonneg q)
      rw [Finset.mem_insert, Finset.mem_Iio] at hq
      rw [Finset.mem_Iio]
      rcases hq with rfl | hq
      · exact hlt
      · exact hq.trans hlt
    omega
  have hop := hnot hp.1 ho.2
  have hpo := hnot ho.1 hp.2
  exact le_antisymm (not_lt.mp hpo) (not_lt.mp hop)

end

/-- Whatever calls led to the sampler: a QPS sample returns no output exactly when all counts are
    zero, and else, for every index below the total, the only output whose range contains it, which
    has a packet.  No sample changes a count, and `get_queue_length` is their sum. -/
theorem sample_proportional (hm : 2 ≤ m) {st : SamplerTree m} (h : st.Reachable) :
    (∀ draw, (∃ st', st.sample .qps draw = .ok (none, st')) ↔ ∀ o, st.getPacketNumber o = 0) ∧
    (∀ draw : ℕ → ℕ, (draw st.getQueueLength.toNat : ℤ) < st.getQueueLength →
      ∃ out st', st.sample .qps draw = .ok (some out, st') ∧ 0 < st.getPacketNumber out ∧
        ∀ o, (lengthBefore st.getPacketNumber o ≤ draw st.getQueueLength.toNat ∧
          draw st.getQueueLength.toNat
            < lengthBefore st.getPacketNumber o + st.getPacketNumber o) ↔ o = out) ∧
    (∀ tp draw out st', st.sample tp draw = .ok (out, st') →
      ∀ o, st'.getPacketNumber o = st.getPacketNumber o) ∧
    st.getQueueLength = ∑ o, st.getPacketNumber o := by
  have hvalid := h.valid hm
  refine ⟨fun draw => ?_, fun draw hlt => ?_, fun tp draw out st' hrun o => ?_,
    hvalid.getQueueLength_eq_sum⟩
  · rw [hvalid.sample_qps_none_iff hm, hvalid.getQueueLength_eq_zero_iff]
  · obtain ⟨out, st', hrun, hpos, hrange⟩ := hvalid.sample_qps_some hm rfl hlt
    refine ⟨out, st', hrun, hpos, fun o => ⟨fun ho => hvalid.range_unique ho hrange, ?_⟩⟩
    rintro rfl
    exact hrange
  · exact congrFun (hvalid.counts_sample hm hrun) o

/-- Two packets for output `0` and one for output `2`, after a uniform sample: index `2` leads to
    output `2`. -/
theorem sample_proportional_three : ∃ st st' : SamplerTree 3,
    ((construct 3).addItem 0 |>.addItem 0 |>.addItem 2).sample .uniform (fun _ => 0)
      = .ok (some 0, st) ∧ st.sample .qps (fun _ => 2) = .ok (some 2, st') ∧
    ∀ o, st'.getPacketNumber o = st.getPacketNumber o := by
  obtain ⟨⟨out₁, st⟩, hrun₁, hst⟩ := exists_of_returns
    (x := ((construct 3).addItem 0 |>.addItem 0 |>.addItem 2).sample .uniform (fun _ => 0))
    (p := fun r => decide (r.1 = some 0 ∧ r.2.getPacketNumber 0 = 2 ∧ r.2.getPacketNumber 1 = 0 ∧
      r.2.getPacketNumber 2 = 1)) (by decide)
  obtain ⟨rfl, hzero, hone, htwo⟩ := of_decide_eq_true hst
  have hreach : st.Reachable :=
    .sample .uniform _ (.addItem 2 (.addItem 0 (.addItem 0 .construct))) hrun₁
  obtain ⟨-, hsome, hkeep, htotal⟩ := sample_proportional (by decide : 2 ≤ 3) hreach
  have hlen : st.getQueueLength = 3 := by
    rw [htotal, Fin.sum_univ_three, hzero, hone, htwo]
    rfl
  obtain ⟨out, st', hrun, -, hrange⟩ := hsome (fun _ => 2) (by rw [hlen]; decide)
  have hbefore : lengthBefore st.getPacketNumber 2 = 2 := by
    rw [lengthBefore, show Finset.Iio (2 : Fin 3) = {0, 1} by decide, Finset.sum_pair (by decide),
      hzero, hone]
    rfl
  obtain rfl : 2 = out := (hrange 2).mp (by rw [hbefore, htwo]; decide)
  exact ⟨st, st', hrun₁, hrun, hkeep _ _ _ _ hrun⟩

end SamplerTree

end SschedSimulator
