import SschedSimulator.Scheduler.ProportionalSampling

namespace SschedSimulator

open Foundation

/-!
# `qp_sampler.cpp` — which calls of `Queue_Sampler` return

`update` and `search` call themselves until they meet the root and a leaf.  Here they run with a
bound on the depth of these calls, and a run that needs more is `running`; every run also records
the positions of `_queue` that it accesses.

* `updateWithin_eq_ok`, `searchWithin_eq_ok` — from a position of the tree, a depth that suffices,
  with the result that `BST.updateFrom` and `search` have;
* `updateWithin_zero` — from position 0, no depth suffices;
* `returns_iff` — `build_tree` and `sample` return unless they rebuild the tree of a single output.
-/

/-- Why a call has no result. -/
inductive Unfinished where
  /-- it stopped at an assertion -/
  | fault (f : Fault)
  /-- its nested calls are deeper than the bound -/
  | running
  deriving DecidableEq, Repr

variable {m : ℕ}

namespace SamplerTree

/-- `update`, at most `calls` deep, and the positions of the nodes that it adds to. -/
def updateWithin : ℕ → Bst → ℕ → ℤ → Except Unfinished (Bst × List ℕ)
  | 0, _, _, _ => .error .running
  | calls + 1, queue, pos, delta => do
    require (0 ≤ queue pos + delta) (.fault .negativeNode)
    let queue' : Bst := Function.update queue pos (queue pos + delta)
    if pos = 1 then .ok (queue', [pos])
    else
      let r ← updateWithin calls queue' (pos / 2) delta
      .ok (r.1, pos :: r.2)

/-- One leaf of the loop of `build_tree`; the positions of every climb are kept. -/
def addLeafWithin (calls m : ℕ) (tp : SampleType) (acc : Bst × List (List ℕ)) (k : ℕ) :
    Except Unfinished (Bst × List (List ℕ)) := do
  let r ← updateWithin calls acc.1 ((leafNum m + k) / 2) (weight tp (acc.1 (leafNum m + k)))
  .ok (r.1, acc.2 ++ [r.2])

/-- `build_tree`, with every `update` at most `calls` deep. -/
def buildTreeWithin (calls m : ℕ) (tp : SampleType) (queue : Bst) :
    Except Unfinished (Bst × List (List ℕ)) :=
  if tp = .none then .ok (queue, [])
  else
    (List.range (leafNum m)).foldlM (addLeafWithin calls m tp)
      (fun i => if 1 ≤ i ∧ i < leafNum m then 0 else queue i, [])

/-- `search`, at most `calls` deep, and the positions of the nodes that it is called for. -/
def searchWithin (L : ℕ) (queue : Bst) : ℕ → ℕ → ℤ → Except Unfinished (ℕ × List ℕ)
  | 0, _, _ => .error .running
  | calls + 1, cur, idx =>
    if 2 * L ≤ 2 * cur then .ok (cur, [cur])
    else do
      let r ← if idx < queue (2 * cur) then searchWithin L queue calls (2 * cur) idx
        else searchWithin L queue calls (2 * cur + 1) (idx - queue (2 * cur))
      .ok (r.1, cur :: r.2)

/-- `sample`, with every `update` and the `search` at most `calls` deep: the output, the sampler,
    and the positions of the nodes that `search` is called for. -/
def sampleWithin (calls : ℕ) (tp : SampleType) (draw : ℕ → ℕ) (st : SamplerTree m) :
    Except Unfinished (Option (Fin m) × SamplerTree m × List ℕ) :=
  if tp = .none then .ok (none, st, [])
  else do
    let r ← if tp ≠ st.state then buildTreeWithin calls m tp st.queue else .ok (st.queue, [])
    if r.1 1 = 0 then .ok (none, { st with queue := r.1 }, [])
    else
      let s ← searchWithin (leafNum m) r.1 calls 1 (draw (r.1 1).toNat)
      if h : leafNum m ≤ s.1 ∧ s.1 - leafNum m < m then
        .ok (some ⟨s.1 - leafNum m, h.2⟩, { st with queue := r.1 }, s.2)
      else .error (.fault .badSample)

/-- A position of the array of a tree with `L` leaves that holds a node. -/
def IsNode (L pos : ℕ) : Prop := 1 ≤ pos ∧ pos < 2 * L

/-- `build_tree` and `sample` return for the type `tp`: every climb of `build_tree` ends at the
    root, the search of `sample` at the leaf of the output, and both access nodes only. -/
structure Returns (st : SamplerTree m) (tp : SampleType) : Prop where
  buildTree : ∃ calls queue climbs, buildTreeWithin calls m tp st.queue = .ok (queue, climbs) ∧
    ∀ climb ∈ climbs, climb.getLast? = some 1 ∧ ∀ pos ∈ climb, IsNode (leafNum m) pos
  sample : ∀ draw : ℕ → ℕ, (∀ k, 0 < k → draw k < k) →
    ∃ calls out st' path, sampleWithin calls tp draw st = .ok (out, st', path) ∧
      (∀ o, out = some o → path.getLast? = some (leafNum m + o)) ∧
      ∀ pos ∈ path, IsNode (leafNum m) pos

/-! ### Climbs -/

/-- A climb from a node ends at the root, in the tree that `BST.updateFrom` leaves. -/
theorem updateWithin_eq_ok {calls fuel pos : ℕ} {queue queue' : Bst} {delta : ℤ} (h1 : 1 ≤ pos)
    (hcalls : pos ≤ calls) (hfuel : pos ≤ fuel)
    (hrun : BST.updateFrom fuel queue pos delta = .ok queue') :
    ∃ climb, updateWithin calls queue pos delta = .ok (queue', climb) ∧
      climb.getLast? = some 1 ∧ ∀ p ∈ climb, 1 ≤ p ∧ p ≤ pos := by
  induction calls generalizing queue pos fuel with
  | zero => omega
  | succ calls ih =>
    obtain ⟨fuel, rfl⟩ : ∃ f, fuel = f + 1 := Nat.exists_eq_succ_of_ne_zero (by omega)
    unfold BST.updateFrom at hrun
    obtain ⟨⟨⟩, hreq, hrun⟩ := bind_eq_ok.mp hrun
    have hpos := of_require hreq
    unfold updateWithin
    rw [require_pos hpos, ok_bind]
    -- the climb ends at the root and goes on to the parent elsewhere
    by_cases hroot : pos = 1
    · rw [if_pos hroot] at hrun
      cases hrun
      exact ⟨[pos], if_pos hroot, by rw [hroot]; rfl, by simpa using h1⟩
    · rw [if_neg hroot] at hrun
      obtain ⟨climb, hwithin, hlast, hnodes⟩ := ih (by omega) (by omega) (by omega) hrun
      refine ⟨pos :: climb, ?_, ?_, fun p hp => ?_⟩
      · rw [if_neg hroot, hwithin, ok_bind]
      · rw [List.getLast?_cons, hlast]
        rfl
      · rcases List.mem_cons.mp hp with rfl | hp
        · exact ⟨h1, le_refl p⟩
        · have := hnodes p hp
          omega

/-- Position 0 is its own parent, so a climb from there meets no root. -/
theorem updateWithin_zero (calls : ℕ) (queue : Bst) (delta : ℤ) (r : Bst × List ℕ) :
    updateWithin calls queue 0 delta ≠ .ok r := by
  intro hrun
  induction calls generalizing queue r with
  | zero => cases hrun
  | succ calls ih =>
    unfold updateWithin at hrun
    obtain ⟨-, -, hrun⟩ := bind_eq_ok.mp hrun
    rw [if_neg (by decide)] at hrun
    obtain ⟨r', hrun', -⟩ := bind_eq_ok.mp hrun
    exact ih _ r' hrun'

/-! ### Rebuilding the tree -/

/-- The leaves of a tree with two leaves or more have a parent, so every climb of the loop ends. -/
theorem addLeavesWithin_eq_ok {tp : SampleType} (hL : 2 ≤ leafNum m) {calls : ℕ}
    (hcalls : leafNum m ≤ calls) {l : List ℕ} (hl : ∀ k ∈ l, k < leafNum m) {queue queue' : Bst}
    (climbs : List (List ℕ)) (hrun : l.foldlM (addLeaf m tp) queue = .ok queue') :
    ∃ climbs', l.foldlM (addLeafWithin calls m tp) (queue, climbs)
        = .ok (queue', climbs ++ climbs') ∧
      ∀ climb ∈ climbs', climb.getLast? = some 1 ∧ ∀ pos ∈ climb, IsNode (leafNum m) pos := by
  induction l generalizing queue climbs with
  | nil =>
    cases hrun
    exact ⟨[], by rw [List.append_nil]; rfl, nofun⟩
  | cons k rest ih =>
    rw [List.foldlM_cons] at hrun
    obtain ⟨queue₁, hleaf, hrest⟩ := bind_eq_ok.mp hrun
    have hk := hl k (by simp)
    have hparent : 1 ≤ (leafNum m + k) / 2 ∧ (leafNum m + k) / 2 ≤ leafNum m := by omega
    unfold addLeaf BST.update at hleaf
    obtain ⟨climb, hclimb, hlast, hnodes⟩ :=
      updateWithin_eq_ok hparent.1 (hparent.2.trans hcalls) (le_refl _) hleaf
    obtain ⟨climbs', hrun', hgood⟩ := ih (fun k hk => hl k (by simp [hk])) (climbs ++ [climb]) hrest
    refine ⟨climb :: climbs', ?_, fun c hc => ?_⟩
    · rw [List.foldlM_cons, addLeafWithin, hclimb, ok_bind, ok_bind, hrun', List.append_assoc]
      rfl
    · rcases List.mem_cons.mp hc with rfl | hc
      · refine ⟨hlast, fun pos hpos => ?_⟩
        have := hnodes pos hpos
        exact ⟨this.1, by omega⟩
      · exact hgood c hc

/-- With two outputs or more, `build_tree` returns. -/
theorem buildTreeWithin_eq_ok {tp : SampleType} (hm : 2 ≤ m) {calls : ℕ}
    (hcalls : leafNum m ≤ calls) {queue queue' : Bst} (hrun : buildTree m tp queue = .ok queue') :
    ∃ climbs, buildTreeWithin calls m tp queue = .ok (queue', climbs) ∧
      ∀ climb ∈ climbs, climb.getLast? = some 1 ∧ ∀ pos ∈ climb, IsNode (leafNum m) pos := by
  unfold buildTree at hrun
  unfold buildTreeWithin
  split at hrun
  · rename_i htp
    cases hrun
    exact ⟨[], if_pos htp, nofun⟩
  · rename_i htp
    rw [if_neg htp]
    exact addLeavesWithin_eq_ok (hm.trans (le_leafNum m)) hcalls (fun k hk => List.mem_range.mp hk)
      [] hrun

/-- The only leaf of a tree for one output is its root, and the climb starts at position 0. -/
theorem buildTreeWithin_one {tp : SampleType} (htp : tp ≠ .none) (calls : ℕ) (queue : Bst)
    (r : Bst × List (List ℕ)) : buildTreeWithin calls 1 tp queue ≠ .ok r := by
  intro hrun
  rw [buildTreeWithin, if_neg htp, show List.range (leafNum 1) = [0] by decide, List.foldlM_cons]
    at hrun
  obtain ⟨acc, hleaf, -⟩ := bind_eq_ok.mp hrun
  obtain ⟨r', hclimb, -⟩ := bind_eq_ok.mp hleaf
  exact updateWithin_zero calls _ _ r' hclimb

/-! ### Searching -/

theorem cons_path {L cur leaf : ℕ} {path : List ℕ} (hcur : IsNode L cur)
    (hlast : path.getLast? = some leaf) (hnodes : ∀ pos ∈ path, IsNode L pos) :
    (cur :: path).getLast? = some leaf ∧ ∀ pos ∈ cur :: path, IsNode L pos := by
  refine ⟨?_, List.forall_mem_cons.mpr ⟨hcur, hnodes⟩⟩
  rw [List.getLast?_cons, hlast]
  rfl

/-- A search from a node ends at a leaf, the one that `search` returns. -/
theorem searchWithin_eq_ok {L : ℕ} {queue : Bst} (fuel cur : ℕ) (idx : ℤ) (hcur : IsNode L cur)
    (hfuel : L ≤ cur + fuel) :
    ∃ path, searchWithin L queue (fuel + 1) cur idx = .ok (search L queue fuel cur idx, path) ∧
      L ≤ search L queue fuel cur idx ∧ path.getLast? = some (search L queue fuel cur idx) ∧
      ∀ pos ∈ path, IsNode L pos := by
  obtain ⟨h1, hlt⟩ := hcur
  induction fuel generalizing cur idx with
  | zero =>
    have hleaf : 2 * L ≤ 2 * cur := by omega
    refine ⟨[cur], ?_, hfuel, rfl, ?_⟩
    · rw [searchWithin, if_pos hleaf]
      rfl
    · simpa using ⟨h1, hlt⟩
  | succ fuel ih =>
    unfold searchWithin search
    split
    · rename_i hleaf
      exact ⟨[cur], rfl, by omega, rfl, by simpa using ⟨h1, hlt⟩⟩
    · rename_i hinner
      -- Both children are nodes; the path of the one that is searched goes on from `cur`.
      split
      · obtain ⟨path, hrun, hleaf, hlast, hnodes⟩ := ih (2 * cur) idx (by omega) (by omega)
          (by omega)
        exact ⟨cur :: path, by rw [hrun, ok_bind], hleaf, cons_path ⟨h1, hlt⟩ hlast hnodes⟩
      · obtain ⟨path, hrun, hleaf, hlast, hnodes⟩ := ih (2 * cur + 1)
          (idx - queue (2 * cur)) (by omega) (by omega) (by omega)
        exact ⟨cur :: path, by rw [hrun, ok_bind], hleaf, cons_path ⟨h1, hlt⟩ hlast hnodes⟩

/-! ### Sampling -/

section

variable {st : SamplerTree m}

/-- Without packets, a uniform sample returns no output. -/
theorem Valid.sample_uniform_none (h : st.Valid) (hm : 2 ≤ m) (hnone : st.positives.card = 0)
    (draw : ℕ → ℕ) : ∃ st', st.sample .uniform draw = .ok (none, st') := by
  have hL : 2 ≤ leafNum m := hm.trans (le_leafNum m)
  obtain ⟨queue, tree, hind, hleaves, htotal, -⟩ := h.sample_uniform hm
  obtain ⟨queue', hbuild, hleaves', hsums⟩ :=
    buildTree_eq_ok (nofun : SampleType.uniform ≠ .none) hL h.nonneg
  have hind' := h.indicator hm hleaves' hsums
  have hroot : queue' 1 = 0 := by
    rw [← hind'.inner 1 (le_refl 1) (by omega), h.root_eq_card hL hind' hleaves', hnone]
    rfl
  refine ⟨{ st with queue := queue' }, ?_⟩
  rw [SamplerTree.sample, if_neg nofun, h.state, if_pos nofun, hbuild, ok_bind]
  exact if_pos hroot

/-- With two outputs or more, no assertion fails when the index is drawn below the root. -/
theorem Valid.sample_eq_ok (h : st.Valid) (hm : 2 ≤ m) (tp : SampleType) {draw : ℕ → ℕ}
    (hdraw : ∀ k, 0 < k → draw k < k) : ∃ out st', st.sample tp draw = .ok (out, st') := by
  cases tp with
  | none => exact ⟨none, st, if_pos rfl⟩
  | qps =>
    have hnonneg : 0 ≤ st.getQueueLength := by
      rw [h.getQueueLength_eq_sum]
      exact Finset.sum_nonneg (fun dst _ => h.getPacketNumber_nonneg dst)
    by_cases hzero : st.getQueueLength = 0
    · exact ⟨none, (h.sample_qps_none_iff hm draw).mpr hzero⟩
    · have hlt := hdraw st.getQueueLength.toNat (by omega)
      obtain ⟨out, st', hrun, -⟩ := h.sample_qps_some hm (rfl : draw _ = _) (by omega)
      exact ⟨some out, st', hrun⟩
  | uniform =>
    by_cases hzero : st.positives.card = 0
    · exact ⟨none, h.sample_uniform_none hm hzero draw⟩
    · obtain ⟨queue, tree, -, -, -, hsample⟩ := h.sample_uniform hm
      obtain ⟨out, -, -, hrun⟩ := hsample _ (hdraw _ (Nat.pos_of_ne_zero hzero))
      exact ⟨some out, _, hrun draw rfl⟩

/-- The calls of a sample that has a result return. -/
theorem Valid.sampleWithin_eq_ok (h : st.Valid) (hm : 2 ≤ m) {tp : SampleType} {draw : ℕ → ℕ}
    {out : Option (Fin m)} {st' : SamplerTree m} (hrun : st.sample tp draw = .ok (out, st')) :
    ∃ calls path, sampleWithin calls tp draw st = .ok (out, st', path) ∧
      (∀ o, out = some o → path.getLast? = some (leafNum m + o)) ∧
      ∀ pos ∈ path, IsNode (leafNum m) pos := by
  have hL : 2 ≤ leafNum m := hm.trans (le_leafNum m)
  unfold SamplerTree.sample at hrun
  by_cases htp : tp = .none
  · rw [if_pos htp] at hrun
    cases hrun
    exact ⟨0, [], if_pos htp, nofun, nofun⟩
  -- Both depths, of the climbs and of the search, are below twice the number of leaves.
  · obtain ⟨queue, hbuild, -⟩ := buildTree_eq_ok htp hL h.nonneg
    obtain ⟨climbs, hwithin, -⟩ := buildTreeWithin_eq_ok hm
      (by omega : leafNum m ≤ 2 * leafNum m + 1) hbuild
    refine ⟨2 * leafNum m + 1, ?_⟩
    unfold sampleWithin
    rw [if_neg htp, h.state, if_pos htp] at hrun ⊢
    rw [hbuild, ok_bind] at hrun
    rw [hwithin, ok_bind]
    dsimp only at hrun ⊢
    by_cases hroot : queue 1 = 0
    · rw [if_pos hroot] at hrun
      cases hrun
      exact ⟨[], if_pos hroot, nofun, nofun⟩
    · rw [if_neg hroot] at hrun ⊢
      obtain ⟨path, hsearch, hleaf, hlast, hnodes⟩ := @searchWithin_eq_ok (leafNum m) queue
        (2 * leafNum m) 1 (draw (queue 1).toNat) ⟨le_refl 1, by omega⟩ (by omega)
      rw [hsearch, ok_bind]
      split at hrun
      · rename_i hout
        cases hrun
        refine ⟨path, dif_pos hout, fun o ho => ?_, hnodes⟩
        rw [hlast, ← Option.some.inj ho, Nat.add_sub_cancel' hleaf]
      · cases hrun

end

/-- Whatever the counts are, `build_tree` and `sample` return exactly if there are two outputs or
    more or nothing is to be sampled. -/
theorem returns_iff (hm : 1 ≤ m) {st : SamplerTree m} (h : st.Valid) (tp : SampleType) :
    st.Returns tp ↔ 2 ≤ m ∨ tp = .none := by
  constructor
  · intro hreturns
    by_contra hnot
    obtain ⟨hlt, htp⟩ := not_or.mp hnot
    obtain rfl : m = 1 := by omega
    obtain ⟨calls, queue, climbs, hbuild, -⟩ := hreturns.buildTree
    exact buildTreeWithin_one htp calls st.queue _ hbuild
  · rintro (htwo | rfl)
    · refine ⟨?_, fun draw hdraw => ?_⟩
      · obtain ⟨queue, hbuild⟩ : ∃ queue, SamplerTree.buildTree m tp st.queue = .ok queue := by
          by_cases htp : tp = .none
          · exact ⟨st.queue, if_pos htp⟩
          · obtain ⟨queue, hbuild, -⟩ := buildTree_eq_ok htp (htwo.trans (le_leafNum m)) h.nonneg
            exact ⟨queue, hbuild⟩
        obtain ⟨climbs, hwithin, hgood⟩ := buildTreeWithin_eq_ok htwo (le_refl _) hbuild
        exact ⟨leafNum m, queue, climbs, hwithin, hgood⟩
      · obtain ⟨out, st', hrun⟩ := h.sample_eq_ok htwo tp hdraw
        obtain ⟨calls, path, hwithin, hpath⟩ := h.sampleWithin_eq_ok htwo hrun
        exact ⟨calls, out, st', path, hwithin, hpath⟩
    · exact ⟨⟨0, st.queue, [], if_pos rfl, nofun⟩,
        fun draw _ => ⟨0, none, st, [], if_pos rfl, nofun, nofun⟩⟩

theorem valid_construct (m : ℕ) : (construct m).Valid :=
  ⟨rfl, fun _ _ _ => le_refl 0, fun _ _ _ => rfl⟩

/-- Three outputs, the second with a packet. -/
theorem returns_three : ((construct 3).addItem 1).Returns .qps :=
  (returns_iff (by decide) (valid_construct 3 |>.update 1 (by decide)) .qps).mpr
    (.inl (by decide))

/-- A sampler for one output, as the constructor makes it. -/
theorem not_returns_one : (construct 1).Valid ∧ ¬ (construct 1).Returns .qps := by
  refine ⟨valid_construct 1, fun hreturns => ?_⟩
  obtain ⟨calls, queue, climbs, hbuild, -⟩ := hreturns.buildTree
  exact buildTreeWithin_one (by decide) calls _ _ hbuild

end SamplerTree

end SschedSimulator
