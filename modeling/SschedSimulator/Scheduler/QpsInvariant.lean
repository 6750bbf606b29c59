import SschedSimulator.Scheduler.Qps

namespace SschedSimulator

open Foundation

/-!
# QPS over whole runs

Without replacement, the iterations of a slot empty leaves of the trees that are restored at its
end.  `Sampling len cur w` is the state in between: the trees hold the lengths `cur`, which are
those of the switch except for the leaves on the list of VOQs to restore, which are zero.

* `iterate_eq_ok` — an iteration returns and keeps `Sampling`;
* `restoreVOQ_eq_ok` — restoring takes the trees back to the lengths of the switch;
* `mirror_of_run` — after every slot of every run the trees mirror the queues, in any number of
  iterations, under every accept policy, with and without replacement.
-/

namespace Qps

variable {n m : ℕ}

/-- The leaves on the list of VOQs to restore are empty, all others hold the lengths `len`; every
    matched pair has a packet that is still in its tree. -/
structure Sampling (len cur : Fin n → Fin m → ℕ) (w : Working n m) : Prop where
  mirror : Mirror w.bst cur
  nodup : (w.restoreSdPairs.map Prod.fst).Nodup
  removed : ∀ p k, (p, k) ∈ w.restoreSdPairs →
    k = len p.1 p.2 ∧ 0 < len p.1 p.2 ∧ cur p.1 p.2 = 0
  kept : ∀ i o, (i, o) ∉ w.restoreSdPairs.map Prod.fst → cur i o = len i o
  inverse : MutuallyInverse w.inMatch w.outMatch
  served : ∀ i o, w.inMatch i = some o → 0 < cur i o

/-- A leaf that holds something is not on the list. -/
theorem Sampling.notMem {len cur : Fin n → Fin m → ℕ} {w : Working n m} (h : Sampling len cur w)
    {i : Fin n} {o : Fin m} (hpos : 0 < cur i o) :
    (i, o) ∉ w.restoreSdPairs.map Prod.fst := by
  intro hmem
  obtain ⟨⟨p, k⟩, hp, rfl⟩ := List.mem_map.mp hmem
  exact absurd (h.removed _ _ hp).2.2 (Nat.pos_iff_ne_zero.mp hpos)

/-! ### Removing and restoring a VOQ -/

/-- Removing a VOQ returns its length and empties its leaf. -/
theorem removeVOQ_eq_ok {bst : Fin n → Bst} {cur : Fin n → Fin m → ℕ} (h : Mirror bst cur)
    (i : Fin n) (o : Fin m) :
    ∃ bst', removeVOQ bst i o = .ok ((cur i o : ℤ), bst') ∧ Mirror bst' (update₂ cur i o 0) := by
  obtain ⟨bst', hrun, hmir⟩ := h.updateLeaf_eq_ok i o (-(cur i o : ℤ)) 0 (by simp)
  obtain ⟨b, hupdate, hb⟩ := bind_eq_ok.mp hrun
  refine ⟨bst', ?_, hmir⟩
  rw [removeVOQ, BST.remove, (h i).leaf o, hupdate, ok_bind, ok_bind]
  exact congrArg (fun t => Except.ok ((cur i o : ℤ), t)) (Except.ok.inj hb)

/-- Restoring every VOQ on the list takes the trees back to the lengths of the switch. -/
theorem restoreVOQ_eq_ok {len cur : Fin n → Fin m → ℕ} {bst : Fin n → Bst}
    {pairs : List ((Fin n × Fin m) × ℤ)} (h : Mirror bst cur) (hnodup : (pairs.map Prod.fst).Nodup)
    (hremoved : ∀ p k, (p, k) ∈ pairs →
      k = len p.1 p.2 ∧ 0 < len p.1 p.2 ∧ cur p.1 p.2 = 0)
    (hkept : ∀ i o, (i, o) ∉ pairs.map Prod.fst → cur i o = len i o) :
    ∃ bst', restoreVOQ pairs bst = .ok bst' ∧ Mirror bst' len := by
  induction pairs generalizing bst cur with
  | nil => exact ⟨bst, rfl, h.congr (fun i o => hkept i o List.not_mem_nil)⟩
  | cons pk rest ih =>
    obtain ⟨⟨s, d⟩, k⟩ := pk
    rw [List.map_cons, List.nodup_cons] at hnodup
    obtain ⟨hk, hpos, hzero⟩ := hremoved (s, d) k (List.mem_cons_self ..)
    simp only at hk hpos hzero
    obtain ⟨bst₁, hrun₁, hmir₁⟩ := h.updateLeaf_eq_ok s d k (len s d) (by rw [hzero, hk]; simp)
    -- The pair is on the list once, so the rest of the list still names empty leaves.
    obtain ⟨bst₂, hrun₂, hmir₂⟩ := ih hmir₁ hnodup.2
      (fun p k' hp => by
        obtain ⟨hk', hpos', hzero'⟩ := hremoved p k' (List.mem_cons_of_mem _ hp)
        refine ⟨hk', hpos', ?_⟩
        rw [update₂_apply, if_neg]
        · exact hzero'
        · intro he
          have heq : p = (s, d) := Prod.ext he.1 he.2
          exact hnodup.1 (List.mem_map.mpr ⟨(p, k'), hp, heq⟩))
      (fun i o hio => by
        rw [update₂_apply]
        split
        · rename_i he
          rw [he.1, he.2]
        · rename_i hne
          apply hkept i o
          rw [List.map_cons, List.mem_cons, not_or]
          exact ⟨fun he => hne (Prod.ext_iff.mp he), hio⟩)
    refine ⟨bst₂, ?_, hmir₂⟩
    unfold restoreVOQ at hrun₂ ⊢
    simp only [List.foldlM_cons, require_pos (hk ▸ Nat.cast_pos.mpr hpos : 0 < k), ok_bind, hrun₁,
      hrun₂]

/-! ### One iteration -/

/-- Every request is the sample of an input that takes part. -/
theorem proposeLoop_requests (policy : AcceptPolicy) (len : Fin n → Fin m → ℕ)
    (draws : TreeDraws n m) (st : State n m) (inputs : List (Fin n)) (acc : Proposing n m) :
    Post (inputs.foldlM (proposeInput policy len draws.sample st) acc) (fun _ => True)
      (fun acc' => ∀ i out, acc'.requests i = some out →
        acc.requests i = some out ∨ openLength st i ≠ 0 ∧ draws.outputs st.bst i = some out) := by
  refine Post.foldlM (fun i out h => .inl h) (fun i _ acc' hacc' => ?_)
  unfold proposeInput
  split
  · exact hacc'
  · rename_i hskip
    have hopen : openLength st i ≠ 0 := fun h0 => hskip (openLength_eq_zero.mp h0)
    cases hs : draws.sample i (st.bst i) with
    | none => trivial
    | some p =>
      -- Only the request of `i` changes, to what `i` sampled.
      have hset : ∀ j out, Function.update acc'.requests i (some p) j = some out →
          acc.requests j = some out ∨ openLength st j ≠ 0 ∧ draws.outputs st.bst j = some out := by
        intro j out hj
        rw [Function.update_apply] at hj
        split at hj
        · rename_i hji
          rw [hji]
          exact .inr ⟨hopen, hs.trans hj⟩
        · exact hacc' j out hj
      dsimp only
      split
      · exact hset
      · exact hset

/-- Step 2 pairs free ports only. -/
theorem acceptLoop_inverse {lastCheck : Fin m → Option (Fin n)} {outs : List (Fin m)}
    (houts : outs.Nodup) {st : State n m} (h : MutuallyInverse st.inMatch st.outMatch)
    (hfree : ∀ out ∈ outs, ∀ i, lastCheck out = some i → st.outMatch out = none) :
    MutuallyInverse (outs.foldl (acceptOutput lastCheck) st).inMatch
      (outs.foldl (acceptOutput lastCheck) st).outMatch := by
  induction outs generalizing st with
  | nil => exact h
  | cons out rest ih =>
    obtain ⟨hout, hrest⟩ := List.nodup_cons.mp houts
    rw [List.foldl_cons]
    unfold acceptOutput
    cases hl : lastCheck out with
    | none => exact ih hrest h (fun o ho => hfree o (List.mem_cons_of_mem _ ho))
    | some i =>
      dsimp only
      split
      · rename_i hi
        refine ih hrest (h.update hi (hfree out (List.mem_cons_self ..) i hl)) (fun o ho j hj => ?_)
        have hne : o ≠ out := fun he => hout (he ▸ ho)
        show Function.update st.outMatch out (some i) o = none
        rw [Function.update_of_ne hne]
        exact hfree o (List.mem_cons_of_mem _ ho) j hj
      · exact ih hrest h (fun o ho => hfree o (List.mem_cons_of_mem _ ho))

/-- The two steps of an iteration leave the trees alone, match pairs that still have a packet in
    their tree, and leave every rejected input a request for which it has one. -/
theorem steps_eq_ok (cfg : Config) {len cur : Fin n → Fin m → ℕ} {draws : TreeDraws n m}
    (hvalid : draws.Valid) {w : Working n m} (h : Sampling len cur w) :
    ∃ acc, proposeAll cfg.acceptPolicy len draws w.toState = .ok acc ∧
      Sampling len cur ⟨acceptAll acc.lastCheck w.toState, w.restoreSdPairs⟩ ∧
      ∀ i out, (acceptAll acc.lastCheck w.toState).inMatch i = none →
        acc.requests i = some out → 0 < cur i out := by
  have hopen : ∀ i, openLength w.toState i ≠ 0 → w.inMatch i = none ∧ w.bst i 1 ≠ 0 := by
    intro i hi
    rw [Ne, openLength_eq_zero, not_or, not_ne_iff] at hi
    exact ⟨hi.2, hi.1⟩
  have hsample : ∀ i, openLength w.toState i ≠ 0 →
      ∃ o, draws.outputs w.bst i = some o ∧ 0 < cur i o := by
    intro i hi
    obtain ⟨o, ho, hpos⟩ := hvalid i (w.bst i) _ (h.mirror i) (hopen i hi).2
    exact ⟨o, ho, by exact_mod_cast hpos⟩
  have hpos : ∀ i o, openLength w.toState i ≠ 0 → draws.outputs w.bst i = some o →
      0 < cur i o := by
    intro i o hi ho
    obtain ⟨o', ho', hpos⟩ := hsample i hi
    rw [ho, Option.some.injEq] at ho'
    rwa [ho']
  obtain ⟨acc, hpropose, hlast⟩ :=
    (proposeAll_post cfg.acceptPolicy len draws w.toState).exists_ok (by
      rintro e - ⟨-, i, hne, hnone⟩
      obtain ⟨o, ho, -⟩ := hsample i hne
      rw [ho] at hnone
      cases hnone)
  have hrequests := (proposeLoop_requests cfg.acceptPolicy len draws w.toState _ _).of_ok hpropose
  -- What an unmatched output keeps is the sample of an input that takes part.
  have hkept : ∀ out i, acc.lastCheck out = some i → w.outMatch out = none ∧
      openLength w.toState i ≠ 0 ∧ draws.outputs w.bst i = some out := by
    intro out i hi
    rw [hlast out] at hi
    split at hi
    · rename_i hout
      rcases mem_of_foldl_challenge _ hi with hmem | hnone
      · exact ⟨hout, (mem_proposers.mp hmem).2⟩
      · cases hnone
    · cases hi
  have hfree : ∀ out i, acc.lastCheck out = some i →
      w.toState.inMatch i = none ∧ draws.outputs w.bst i = some out :=
    fun out i hi => ⟨(hopen i (hkept out i hi).2.1).1, (hkept out i hi).2.2⟩
  obtain ⟨hbst, hmatch⟩ := acceptAll_eq hfree
  refine ⟨acc, hpropose, ⟨?_, h.nodup, h.removed, h.kept, ?_, ?_⟩, ?_⟩
  · show Mirror (acceptAll acc.lastCheck w.toState).bst cur
    rw [hbst]
    exact h.mirror
  · exact acceptLoop_inverse (List.nodup_finRange m) h.inverse
      (fun out _ i hi => (hkept out i hi).1)
  · intro i o hio
    rcases (hmatch i o).mp hio with hio | hio
    · exact h.served i o hio
    · exact hpos i o (hkept o i hio).2.1 (hkept o i hio).2.2
  · intro i out _ hreq
    rcases hrequests i out hreq with hnone | ⟨hi, ho⟩
    · cases hnone
    · exact hpos i out hi ho

/-- The state in the loop that leaves rejected VOQs out: the inputs of `rest`, still to come, ask
    for VOQs that still have a packet in their tree. -/
structure Rejecting (len : Fin n → Fin m → ℕ) (requests : Fin n → Option (Fin m))
    (rest : List (Fin n)) (w : Working n m) (cur : Fin n → Fin m → ℕ) : Prop where
  nodup : rest.Nodup
  sampling : Sampling len cur w
  asked : ∀ i ∈ rest, ∀ out, w.inMatch i = none → requests i = some out → 0 < cur i out

theorem Rejecting.step {len cur : Fin n → Fin m → ℕ} {requests : Fin n → Option (Fin m)}
    {i : Fin n} {rest : List (Fin n)} {w : Working n m}
    (h : Rejecting len requests (i :: rest) w cur) :
    Post (rejectInput len requests w i) (fun _ => False)
      (fun w' => ∃ cur', Rejecting len requests rest w' cur') := by
  obtain ⟨hi, hrest⟩ := List.nodup_cons.mp h.nodup
  have hkeep : ∃ cur', Rejecting len requests rest w cur' :=
    ⟨cur, hrest, h.sampling, fun j hj => h.asked j (List.mem_cons_of_mem _ hj)⟩
  unfold rejectInput
  split
  · rename_i hfree
    cases hreq : requests i with
    | none => exact hkeep
    | some out =>
      have hpos := h.asked i (List.mem_cons_self ..) out hfree hreq
      have hnew := h.sampling.notMem hpos
      have hlen := h.sampling.kept i out hnew
      obtain ⟨bst', hrun, hmir⟩ := removeVOQ_eq_ok h.sampling.mirror i out
      simp only [hrun, ok_bind, require_pos (congrArg Nat.cast hlen)]
      refine ⟨update₂ cur i out 0, hrest, ⟨hmir, ?_, ?_, ?_, h.sampling.inverse, ?_⟩, ?_⟩
      · show ((w.restoreSdPairs ++ [((i, out), (cur i out : ℤ))]).map Prod.fst).Nodup
        rw [List.map_append, List.nodup_append]
        refine ⟨h.sampling.nodup, List.nodup_singleton _, fun p hp q hq he => hnew ?_⟩
        obtain rfl : q = (i, out) := List.mem_singleton.mp hq
        exact he ▸ hp
      · intro p k hp
        rcases List.mem_append.mp hp with hp | hp
        · obtain ⟨hk, hpos', hzero⟩ := h.sampling.removed p k hp
          refine ⟨hk, hpos', ?_⟩
          rw [update₂_apply, hzero, ite_self]
        · obtain ⟨rfl, rfl⟩ := Prod.ext_iff.mp (List.mem_singleton.mp hp)
          exact ⟨congrArg Nat.cast hlen, hlen ▸ hpos, update₂_self ..⟩
      · intro j o hjo
        rw [List.map_append, List.mem_append, not_or] at hjo
        rw [update₂_apply, if_neg (fun he => hjo.2 (by rw [he.1, he.2]; simp))]
        exact h.sampling.kept j o hjo.1
      · intro j o hjo
        -- `i` is not matched, so no matched pair loses its leaf.
        rw [update₂_apply, if_neg]
        · exact h.sampling.served j o hjo
        · rintro ⟨rfl, -⟩
          rw [hfree] at hjo
          cases hjo
      · intro j hj o hjfree hjreq
        have hne : ¬ (j = i ∧ o = out) := fun he => hi (he.1 ▸ hj)
        rw [update₂_apply, if_neg hne]
        exact h.asked j (List.mem_cons_of_mem _ hj) o hjfree hjreq
  · exact hkeep

/-- An iteration. -/
theorem iterate_eq_ok (cfg : Config) {len cur : Fin n → Fin m → ℕ} {draws : TreeDraws n m}
    (hvalid : draws.Valid) {w : Working n m} (h : Sampling len cur w) :
    ∃ w' cur', iterate cfg len draws w = .ok w' ∧ Sampling len cur' w' := by
  obtain ⟨acc, hpropose, hsteps, hasked⟩ := steps_eq_ok cfg hvalid h
  unfold iterate
  rw [hpropose, ok_bind]
  split
  · have h0 : Rejecting len acc.requests (List.finRange n)
        ⟨acceptAll acc.lastCheck w.toState, w.restoreSdPairs⟩ cur :=
      ⟨List.nodup_finRange n, hsteps, fun i _ out => hasked i out⟩
    have hloop : Post ((List.finRange n).foldlM (rejectInput len acc.requests)
        ⟨acceptAll acc.lastCheck w.toState, w.restoreSdPairs⟩) (fun _ => False)
        (fun w' => ∃ cur', Rejecting len acc.requests [] w' cur') :=
      Post.foldlM_rest (fun rest w' => ∃ cur', Rejecting len acc.requests rest w' cur') _ _
        ⟨cur, h0⟩ (fun _ _ _ hw => hw.elim (fun _ hcur => hcur.step))
    obtain ⟨w', hrun, cur', hw'⟩ := hloop.exists_ok (fun _ _ he => he)
    exact ⟨w', cur', hrun, hw'.sampling⟩
  · exact ⟨_, cur, rfl, hsteps⟩

/-! ### One slot -/

/-- The iterations of `schedule`. -/
def iterateAll (cfg : Config) (len : Fin n → Fin m → ℕ) (draws : ℕ → TreeDraws n m)
    (bst : Fin n → Bst) : Except Fault (Working n m) :=
  (List.range cfg.iterations).foldlM (fun w it => iterate cfg len (draws it) w)
    { bst := bst, inMatch := fun _ => none, outMatch := fun _ => none, restoreSdPairs := [] }

theorem iterateAll_eq_ok (cfg : Config) {len : Fin n → Fin m → ℕ} {draws : ℕ → TreeDraws n m}
    (hvalid : ∀ it, (draws it).Valid) {bst : Fin n → Bst} (h : Mirror bst len) :
    ∃ w cur, iterateAll cfg len draws bst = .ok w ∧ Sampling len cur w := by
  have h0 : Sampling len len (⟨⟨bst, fun _ => none, fun _ => none⟩, []⟩ : Working n m) :=
    ⟨h, List.nodup_nil, fun _ _ hp => absurd hp List.not_mem_nil, fun _ _ _ => rfl,
      mutuallyInverse_none, nofun⟩
  have hloop : Post (iterateAll cfg len draws bst) (fun _ => False)
      (fun w => ∃ cur, Sampling len cur w) := by
    refine Post.foldlM ⟨len, h0⟩ (fun it _ w hw => ?_)
    obtain ⟨cur, hcur⟩ := hw
    obtain ⟨w', cur', hrun, hw'⟩ := iterate_eq_ok cfg (hvalid it) hcur
    rw [hrun]
    exact ⟨cur', hw'⟩
  obtain ⟨w, hrun, cur, hw⟩ := hloop.exists_ok (fun _ _ he => he)
  exact ⟨w, cur, hrun, hw⟩

/-- What a call of `schedule` did: `bst` are the trees after the arrivals and again after the
    rejected VOQs were restored. -/
structure Scheduled (cfg : Config) (draws : ℕ → TreeDraws n m) (sw : IQSwitch n m)
    (st st' : State n m) (bst : Fin n → Bst) (w : Working n m) : Prop where
  arrived : handleArrivals sw.getArrivals st.bst = .ok bst
  iterated : iterateAll cfg sw.getQueueLength draws bst = .ok w
  restored : restoreVOQ w.restoreSdPairs w.bst = .ok bst
  inMatch : st'.inMatch = w.inMatch
  inverse : MutuallyInverse st'.inMatch st'.outMatch
  served : ∀ i o, st'.inMatch i = some o → 0 < sw.getQueueLength i o

/-- No assertion of `schedule` fails, and the trees mirror what is left in the queues. -/
theorem schedule_eq_ok (cfg : Config) {draws : ℕ → TreeDraws n m}
    (hvalid : ∀ it, (draws it).Valid) (sw : IQSwitch n m) {st : State n m}
    {len : Fin n → Fin m → ℕ} (h : Mirror st.bst len)
    (hsw : ∀ i o, sw.getQueueLength i o = len i o + sw.getArrivals.count (i, o)) :
    ∃ st' bst w, schedule cfg draws sw st = .ok st' ∧ Scheduled cfg draws sw st st' bst w ∧
      Mirror st'.bst
        (fun i o => sw.getQueueLength i o - if st'.inMatch i = some o then 1 else 0) := by
  obtain ⟨bst, harrive, hmir⟩ := handleArrivals_eq_ok h sw.getArrivals
  have hbst : Mirror bst sw.getQueueLength := hmir.congr (fun i o => (hsw i o).symm)
  obtain ⟨w, cur, hiterate, hw⟩ := iterateAll_eq_ok cfg hvalid hbst
  obtain ⟨bst', hrestore, hmir'⟩ := restoreVOQ_eq_ok hw.mirror hw.nodup hw.removed hw.kept
  -- The lengths determine the trees, so the restored ones are those before the iterations.
  obtain rfl : bst' = bst := funext (fun i => (hmir' i).ext (hbst i))
  obtain ⟨bst'', hdepart, hmir''⟩ := handleDepartures_eq_ok hbst w.inMatch
  refine ⟨{ w.toState with bst := bst'' }, bst', w, ?_,
    ⟨harrive, hiterate, hrestore, rfl, hw.inverse, fun i o hio => ?_⟩, hmir''⟩
  · unfold iterateAll at hiterate
    rw [schedule, harrive, ok_bind, hiterate, ok_bind, hrestore, ok_bind, hdepart, ok_bind]
  · have hpos := hw.served i o hio
    rwa [hw.kept i o (hw.notMem hpos)] at hpos

/-! ### Runs of a switch -/

/-- `init` restores every non-empty VOQ. -/
theorem initLoop (len : Fin n → Fin m → ℕ) (ps : List (Fin n × Fin m)) (bst : Fin n → Bst) :
    ps.foldlM (fun bst p =>
        if 0 < len p.1 p.2 then updateLeaf bst p.1 p.2 (len p.1 p.2 : ℤ) else .ok bst) bst
      = restoreVOQ ((ps.filter (fun p => decide (0 < len p.1 p.2))).map
          (fun p => (p, (len p.1 p.2 : ℤ)))) bst := by
  unfold restoreVOQ
  induction ps generalizing bst with
  | nil => rfl
  | cons p rest ih =>
    rw [List.foldlM_cons]
    by_cases hpos : 0 < len p.1 p.2
    · rw [if_pos hpos, List.filter_cons_of_pos (by simpa using hpos), List.map_cons,
        List.foldlM_cons, require_pos (Nat.cast_pos.mpr hpos), ok_bind]
      exact bind_congr ih
    · rw [if_neg hpos, List.filter_cons_of_neg (by simpa using hpos), ok_bind]
      exact ih bst

theorem mirror_initial : Mirror (initial : State n m).bst (fun (_ : Fin n) (_ : Fin m) => 0) :=
  fun _ => mirrors_zero

/-- After `init` the trees of a new scheduler mirror the queues. -/
theorem init_eq_ok (sw : IQSwitch n m) :
    ∃ st, init sw initial = .ok st ∧ Mirror st.bst sw.getQueueLength := by
  let pairs : List ((Fin n × Fin m) × ℤ) :=
    ((portPairs n m).filter (fun p => decide (0 < sw.getQueueLength p.1 p.2))).map
      (fun p => (p, (sw.getQueueLength p.1 p.2 : ℤ)))
  have hnodup : (pairs.map Prod.fst).Nodup := by
    rw [List.map_map]
    exact (List.map_id _).symm ▸ (nodup_portPairs n m).filter _
  have hremoved : ∀ p k, (p, k) ∈ pairs →
      k = sw.getQueueLength p.1 p.2 ∧ 0 < sw.getQueueLength p.1 p.2 ∧ 0 = 0 := by
    intro p k hp
    obtain ⟨q, hq, heq⟩ := List.mem_map.mp hp
    obtain ⟨rfl, rfl⟩ := Prod.ext_iff.mp heq
    exact ⟨rfl, of_decide_eq_true (List.mem_filter.mp hq).2, rfl⟩
  have hkept : ∀ i o, (i, o) ∉ pairs.map Prod.fst → 0 = sw.getQueueLength i o := by
    intro i o hio
    by_contra hne
    refine hio (List.mem_map.mpr ⟨((i, o), (sw.getQueueLength i o : ℤ)), ?_, rfl⟩)
    exact List.mem_map.mpr ⟨(i, o), List.mem_filter.mpr ⟨mem_portPairs _,
      decide_eq_true (Nat.pos_of_ne_zero (Ne.symm hne))⟩, rfl⟩
  obtain ⟨bst, hrun, hmir⟩ := restoreVOQ_eq_ok mirror_initial hnodup hremoved hkept
  refine ⟨{ initial with bst := bst }, ?_, hmir⟩
  rw [init, initLoop, hrun, ok_bind]

/-- A switch that starts empty, or whose queues were given to the scheduler by `init`. -/
inductive Start (cfg : Config) : System (model n m cfg) → Prop where
  | empty {sw : IQSwitch n m} : sw.Empty → Start cfg ⟨sw, initial⟩
  | afterInit {sw : IQSwitch n m} {st : State n m} : init sw initial = .ok st → Start cfg ⟨sw, st⟩

/-- The draws of the random engine: a shuffle, and for each input an offset in the range `[0, root)`
    of its tree, in every iteration. -/
def Drawn (draws : ℕ → TreeDraws n m) : Prop :=
  ∀ it i, ∃ u : ℚ, 0 ≤ u ∧ u < 1 ∧ (draws it).sample i = drawnSample u

theorem Drawn.valid {draws : ℕ → TreeDraws n m} (h : Drawn draws) (it : ℕ) : (draws it).Valid := by
  intro i b len hb hroot
  obtain ⟨u, h0, h1, hu⟩ := h it i
  rw [hu]
  exact hb.drawnSample_eq_some h0 h1 hroot

section

variable {cfg : Config} {sys : System (model n m cfg)}

theorem Start.mirror (h : Start cfg sys) :
    Mirror sys.scheduler.bst sys.switch.getQueueLength := by
  cases h with
  | empty hsw => exact mirror_initial.congr (fun i o => (hsw i o).symm)
  | @afterInit sw st hinit =>
    obtain ⟨st', hrun, hmir⟩ := init_eq_ok sw
    rw [hinit, Except.ok.injEq] at hrun
    rwa [hrun]

/-- One slot. -/
theorem switching_eq_ok {draws : ℕ → TreeDraws n m} (hvalid : ∀ it, (draws it).Valid)
    (channels : Fin n → List (Packet n m))
    (h : Mirror sys.scheduler.bst sys.switch.getQueueLength) :
    ∃ next bst w, switching (model n m cfg) draws channels sys = .ok next ∧
      Scheduled cfg draws (sys.switch.readInputs channels) sys.scheduler next.scheduler bst w ∧
      Mirror next.scheduler.bst next.switch.getQueueLength := by
  obtain ⟨st, bst, w, hrun, hsched, hmir⟩ := schedule_eq_ok cfg hvalid
    (sys.switch.readInputs channels) h (fun i o => by
      rw [IQSwitch.readInputs_queueLength, IQSwitch.readInputs_arrivals])
  obtain ⟨next, hok, rfl, hlen⟩ := SschedSimulator.switching_eq_ok
    (S := model n m cfg) draws hrun hsched.inverse.isMatching
  exact ⟨next, bst, w, hok, hsched, hmir.congr (fun i o => (hlen i o).symm)⟩

theorem mirror_run {sys' : System (model n m cfg)}
    (h : Mirror sys.scheduler.bst sys.switch.getQueueLength)
    (hrun : RunWhere (model n m cfg) (fun draws _ _ => Drawn draws) sys sys') :
    Mirror sys'.scheduler.bst sys'.switch.getQueueLength := by
  let P (sys : System (model n m cfg)) := Mirror sys.scheduler.bst sys.switch.getQueueLength
  refine hrun.preserved (P := P) h (fun draws channels mid hmid hdrawn => ?_)
  obtain ⟨next, -, -, hok, -, hmir⟩ := switching_eq_ok hdrawn.valid channels hmid
  exact ⟨next, hok, hmir⟩

end

end Qps

end SschedSimulator
