import SschedSimulator.Foundation.PartialMatching
import SschedSimulator.Scheduler.QpsAccept

namespace SschedSimulator

open Foundation

/-!
# QPS without replacement converges to a maximal matching

An input that is rejected has asked for an output that is matched, and does not ask for it again.
So every input that stays unmatched asks for another output in each iteration, until it has asked
for all for which it has a packet; all these outputs are matched.

* `proposeAll_requests` — who asks for what in Step 1;
* `Asking` — what is known of the VOQs left out after `it` iterations, and `Asking.step`;
* `Asking.maximal_or_le_matchSize` — the matching is maximal or has as many pairs as there were
  iterations;
* `maximal_of_run` — so as many iterations as the smaller side has ports suffice in every slot.
-/

namespace Qps

variable {n m : ℕ}

/-- The VOQs that are left out. -/
def Working.leftOut (w : Working n m) : List (Fin n × Fin m) := w.restoreSdPairs.map Prod.fst

/-! ### Step 1 -/

/-- An input that takes part asks for what it samples. -/
theorem proposeLoop_asks (policy : AcceptPolicy) (len : Fin n → Fin m → ℕ)
    (draws : TreeDraws n m) (st : State n m) {i : Fin n} (hopen : openLength st i ≠ 0)
    (inputs : List (Fin n)) (acc : Proposing n m) :
    Post (inputs.foldlM (proposeInput policy len draws.sample st) acc) (fun _ => True)
      (fun acc' => i ∈ inputs ∨ acc.requests i = draws.outputs st.bst i →
        acc'.requests i = draws.outputs st.bst i) := by
  induction inputs generalizing acc with
  | nil => exact fun h => h.resolve_left List.not_mem_nil
  | cons j rest ih =>
    rw [List.foldlM_cons]
    unfold proposeInput
    split
    · rename_i hskip
      refine (ih acc).imp (fun acc' hacc' h => hacc' ?_)
      rcases h with hmem | hasked
      · rcases List.mem_cons.mp hmem with rfl | hmem
        · exact absurd (openLength_eq_zero.mpr hskip) hopen
        · exact .inl hmem
      · exact .inr hasked
    · cases hs : draws.sample j (st.bst j) with
      | none => trivial
      | some out =>
        -- only the request of `j` is written
        have hasks : ∀ acc' : Proposing n m,
            acc'.requests = Function.update acc.requests j (some out) →
            i ∈ j :: rest ∨ acc.requests i = draws.outputs st.bst i →
            i ∈ rest ∨ acc'.requests i = draws.outputs st.bst i := by
          intro acc' hacc' h
          by_cases hij : i = j
          · subst hij
            rw [hacc', Function.update_self]
            exact .inr hs.symm
          · rw [hacc', Function.update_of_ne hij]
            exact h.imp_left (fun hmem => (List.mem_cons.mp hmem).resolve_left hij)
        dsimp only
        split
        · exact (ih _).imp (fun acc' hacc' h => hacc' (hasks _ rfl h))
        · exact (ih _).imp (fun acc' hacc' h => hacc' (hasks _ rfl h))

theorem proposeAll_requests {policy : AcceptPolicy} {len : Fin n → Fin m → ℕ}
    {draws : TreeDraws n m} {st : State n m} {acc : Proposing n m}
    (hrun : proposeAll policy len draws st = .ok acc) {i : Fin n} (hopen : openLength st i ≠ 0) :
    acc.requests i = draws.outputs st.bst i :=
  (proposeLoop_asks policy len draws st hopen draws.shuffle.val _).of_ok hrun
    (.inl (draws.shuffle.mem i))

/-! ### Leaving out -/

theorem rejectInput_leftOut {len : Fin n → Fin m → ℕ} {requests : Fin n → Option (Fin m)}
    (w : Working n m) (j i : Fin n) (o : Fin m) :
    Post (rejectInput len requests w j) (fun _ => True) (fun w' =>
      w'.inMatch = w.inMatch ∧ ((i, o) ∈ w'.leftOut ↔
        (i, o) ∈ w.leftOut ∨ i = j ∧ w.inMatch i = none ∧ requests i = some o)) := by
  unfold rejectInput
  split
  · rename_i hfree
    cases hreq : requests j with
    | none =>
      refine ⟨rfl, (or_iff_left ?_).symm⟩
      rintro ⟨rfl, -, hasked⟩
      rw [hreq] at hasked
      cases hasked
    | some out =>
      -- a rejected input: what it asked for is left out
      refine (Post.top (removeVOQ w.bst j out)).bind (fun removed _ => ?_)
      refine Post.require_bind (fun _ => trivial) (fun _ => ⟨rfl, ?_⟩)
      show (i, o) ∈ (w.restoreSdPairs ++ [((j, out), removed.1)]).map Prod.fst ↔ _
      rw [List.map_append, List.mem_append, List.map_singleton, List.mem_singleton,
        Prod.mk.injEq]
      refine or_congr Iff.rfl ⟨?_, ?_⟩
      · rintro ⟨rfl, rfl⟩
        exact ⟨rfl, hfree, hreq⟩
      · rintro ⟨rfl, -, hasked⟩
        rw [hreq] at hasked
        exact ⟨rfl, (Option.some.inj hasked).symm⟩
  · rename_i hmatched
    refine ⟨rfl, (or_iff_left ?_).symm⟩
    rintro ⟨rfl, hfree, -⟩
    exact hmatched hfree

/-- The loop leaves out what the inputs that stay unmatched have asked for. -/
theorem mem_leftOut_rejectLoop {len : Fin n → Fin m → ℕ} {requests : Fin n → Option (Fin m)}
    {inputs : List (Fin n)} {w w' : Working n m}
    (hrun : inputs.foldlM (rejectInput len requests) w = .ok w') (i : Fin n) (o : Fin m) :
    (i, o) ∈ w'.leftOut ↔
      (i, o) ∈ w.leftOut ∨ i ∈ inputs ∧ w.inMatch i = none ∧ requests i = some o := by
  have hloop : ∀ (inputs : List (Fin n)) (w : Working n m),
      Post (inputs.foldlM (rejectInput len requests) w) (fun _ => True) (fun w' =>
        (i, o) ∈ w'.leftOut ↔
          (i, o) ∈ w.leftOut ∨ i ∈ inputs ∧ w.inMatch i = none ∧ requests i = some o) := by
    intro inputs
    induction inputs with
    | nil => exact fun w => by simp
    | cons j rest ih =>
      intro w
      rw [List.foldlM_cons]
      refine (rejectInput_leftOut w j i o).bind (fun w₁ h₁ => (ih w₁).imp (fun w₂ h₂ => ?_))
      obtain ⟨hin, hmem⟩ := h₁
      rw [h₂, hmem, hin, List.mem_cons]
      tauto
  exact (hloop inputs w).of_ok hrun

/-! ### The iterations of a slot -/

/-- After `it` iterations: what an unmatched input has asked for is matched, and it has asked for
    `it` outputs unless for all for which it has a packet. -/
structure Asking (len : Fin n → Fin m → ℕ) (it : ℕ) (w : Working n m) : Prop where
  blocked : ∀ i o, w.inMatch i = none → (i, o) ∈ w.leftOut → w.outMatch o ≠ none
  asked : ∀ i, w.inMatch i = none → (∀ o, 0 < len i o → (i, o) ∈ w.leftOut) ∨
    it ≤ (Finset.univ.filter (fun o => (i, o) ∈ w.leftOut)).card

section

variable {cfg : Config} {len cur : Fin n → Fin m → ℕ} {draws : TreeDraws n m} {it : ℕ}
  {w w' : Working n m}

/-- An input that has a packet for an output that it has not asked for takes part, and asks for
    another such output. -/
theorem Sampling.exists_request (h : Sampling len cur w) (hvalid : draws.Valid)
    {acc : Proposing n m} (hrun : proposeAll cfg.acceptPolicy len draws w.toState = .ok acc)
    {i : Fin n} (hfree : w.inMatch i = none) {o : Fin m} (hpos : 0 < len i o)
    (hnew : (i, o) ∉ w.leftOut) : ∃ p, acc.requests i = some p ∧ (i, p) ∉ w.leftOut := by
  have hroot : w.bst i 1 ≠ 0 := by
    rw [Ne, (h.mirror i).root_eq_zero_iff]
    intro hzero
    have hcur := hzero o
    rw [h.kept i o hnew] at hcur
    omega
  have hopen : openLength w.toState i ≠ 0 := by
    rw [Ne, openLength_eq_zero, not_or, not_ne_iff]
    exact ⟨hroot, hfree⟩
  obtain ⟨p, hp, hcur⟩ := hvalid i (w.bst i) _ (h.mirror i) hroot
  exact ⟨p, (proposeAll_requests hrun hopen).trans hp, h.notMem (by exact_mod_cast hcur)⟩

theorem Asking.step (hcfg : cfg.withoutReplacement = true) (h : Asking len it w)
    (hsampling : Sampling len cur w) (hvalid : draws.Valid)
    (hrun : iterate cfg len draws w = .ok w') : Asking len (it + 1) w' := by
  have hacc := iterate_accepted hsampling.inverse hrun
  obtain ⟨acc, hpropose, hreject⟩ := bind_eq_ok.mp hrun
  rw [if_pos hcfg] at hreject
  have hmatching := rejectLoop_matching hreject
  have hleft : ∀ i o, (i, o) ∈ w'.leftOut ↔
      (i, o) ∈ w.leftOut ∨ w'.inMatch i = none ∧ acc.requests i = some o := by
    intro i o
    have hmem := mem_leftOut_rejectLoop hreject i o
    rw [← hmatching.1] at hmem
    refine hmem.trans (or_congr_right ?_)
    simp only [List.mem_finRange, true_and]
  have hbefore : ∀ i, w'.inMatch i = none → w.inMatch i = none := by
    intro i hi
    rw [Option.eq_none_iff_forall_ne_some]
    intro o ho
    rw [hacc.inMatch i o ho] at hi
    cases hi
  have hstays : ∀ o, w.outMatch o ≠ none → w'.outMatch o ≠ none := by
    intro o ho
    obtain ⟨i, hi⟩ := Option.ne_none_iff_exists'.mp ho
    rw [hacc.outMatch o i hi]
    exact Option.some_ne_none i
  refine ⟨fun i o hi ho => ?_, fun i hi => ?_⟩
  · rcases (hleft i o).mp ho with hold | ⟨-, hreq⟩
    · exact hstays o (h.blocked i o (hbefore i hi) hold)
    · -- `i` has asked for `o` in this iteration.
      rcases (proposeLoop_requests cfg.acceptPolicy len draws w.toState _ _).of_ok hpropose i o
        hreq with hnone | ⟨hopen, hsample⟩
      · cases hnone
      · by_cases hout : w.outMatch o = none
        · have hmem : i ∈ proposals draws w.toState o :=
            mem_proposers.mpr ⟨draws.shuffle.mem i, hopen, hsample⟩
          obtain ⟨j, hj, -⟩ := hacc.served o hout (List.ne_nil_of_mem hmem)
          rw [hj]
          exact Option.some_ne_none j
        · exact hstays o hout
  · by_cases hall : ∀ o, 0 < len i o → (i, o) ∈ w.leftOut
    · exact .inl (fun o ho => (hleft i o).mpr (.inl (hall o ho)))
    · obtain ⟨o, ho⟩ := not_forall.mp hall
      obtain ⟨hpos, hnew⟩ := Classical.not_imp.mp ho
      obtain ⟨p, hp, hpnew⟩ := hsampling.exists_request hvalid hpropose (hbefore i hi) hpos hnew
      have hcount := (h.asked i (hbefore i hi)).resolve_left hall
      have hlt : (Finset.univ.filter (fun o => (i, o) ∈ w.leftOut)).card
          < (Finset.univ.filter (fun o => (i, o) ∈ w'.leftOut)).card := by
        refine Finset.card_lt_card
          ((Finset.ssubset_iff_of_subset (fun o ho => ?_)).mpr ⟨p, ?_, ?_⟩)
        · simp only [Finset.mem_filter, Finset.mem_univ, true_and] at ho ⊢
          exact (hleft i o).mpr (.inl ho)
        · simp only [Finset.mem_filter, Finset.mem_univ, true_and]
          exact (hleft i p).mpr (.inr ⟨hi, hp⟩)
        · simpa using hpnew
      exact .inr (by omega)

/-- A matching of the VOQs that is not maximal has grown with every iteration. -/
theorem Asking.maximal_or_le_matchSize (h : Asking len it w) (hsampling : Sampling len cur w) :
    MaximalMatching (fun i o => 0 < len i o) w.inMatch w.outMatch ∨ it ≤ matchSize w.inMatch := by
  by_cases hmany : ∃ i, w.inMatch i = none ∧
      it ≤ (Finset.univ.filter (fun o => (i, o) ∈ w.leftOut)).card
  · obtain ⟨i, hi, hcount⟩ := hmany
    rw [← hsampling.inverse.matchSize_eq]
    refine .inr (hcount.trans (Finset.card_le_card (fun o ho => ?_)))
    simp only [Finset.mem_filter, Finset.mem_univ, true_and] at ho ⊢
    exact Option.isSome_iff_ne_none.mpr (h.blocked i o hi ho)
  · refine .inl ⟨hsampling.inverse, fun i o hio => ?_, fun i o hpos => ?_⟩
    · have hcur := hsampling.served i o hio
      rwa [hsampling.kept i o (hsampling.notMem hcur)] at hcur
    · by_cases hi : w.inMatch i = none
      · rcases h.asked i hi with hall | hcount
        · exact .inr (h.blocked i o hi (hall o hpos))
        · exact absurd ⟨i, hi, hcount⟩ hmany
      · exact .inl hi

end

/-! ### Runs of a switch -/

section

variable {cfg : Config} {sys : System (model n m cfg)} {draws : ℕ → TreeDraws n m}

/-- The iterations of a slot. -/
theorem asking_iterateAll (hcfg : cfg.withoutReplacement = true) {len : Fin n → Fin m → ℕ}
    (hvalid : ∀ it, (draws it).Valid) {bst : Fin n → Bst} (h : Mirror bst len)
    {last : Working n m} (hrun : iterateAll cfg len draws bst = .ok last) :
    ∃ cur, Sampling len cur last ∧ Asking len cfg.iterations last := by
  obtain ⟨w, h0, rfl, hstep⟩ := exists_of_foldlM_range hrun
  have hall : ∀ it ≤ cfg.iterations, ∃ cur, Sampling len cur (w it) ∧ Asking len it (w it) := by
    intro it hit
    induction it with
    | zero =>
      rw [h0]
      exact ⟨len, ⟨h, List.nodup_nil, fun _ _ hp => absurd hp List.not_mem_nil, fun _ _ _ => rfl,
        mutuallyInverse_none, nofun⟩, fun _ _ _ hmem => absurd hmem List.not_mem_nil,
        fun _ _ => .inr (Nat.zero_le _)⟩
    | succ it ih =>
      obtain ⟨cur, hsampling, hasking⟩ := ih (by omega)
      obtain ⟨w', cur', hok, hsampling'⟩ := iterate_eq_ok cfg (hvalid it) hsampling
      obtain rfl : w (it + 1) = w' := Except.ok.inj ((hstep it (by omega)).symm.trans hok)
      exact ⟨cur', hsampling', hasking.step hcfg hsampling (hvalid it) hok⟩
  exact hall cfg.iterations (le_refl _)

/-- One slot. -/
theorem maximal_or_le_matchSize_slot (hcfg : cfg.withoutReplacement = true)
    (hvalid : ∀ it, (draws it).Valid) (channels : Fin n → List (Packet n m))
    (hmir : Mirror sys.scheduler.bst sys.switch.getQueueLength) :
    ∃ next, switching (model n m cfg) draws channels sys = .ok next ∧
      Mirror next.scheduler.bst next.switch.getQueueLength ∧
      MutuallyInverse next.scheduler.inMatch next.scheduler.outMatch ∧
      (∀ s d, next.scheduler.inMatch s = some d →
        0 < (sys.switch.readInputs channels).getQueueLength s d) ∧
      (MaximalMatching (fun s d => 0 < (sys.switch.readInputs channels).getQueueLength s d)
          next.scheduler.inMatch next.scheduler.outMatch ∨
        cfg.iterations ≤ matchSize next.scheduler.inMatch) := by
  obtain ⟨next, bst, last, hok, hsched, hnext⟩ := switching_eq_ok hvalid channels hmir
  refine ⟨next, hok, hnext, hsched.inverse, hsched.served, ?_⟩
  obtain ⟨bst', harrive, hbst⟩ :=
    handleArrivals_eq_ok hmir (sys.switch.readInputs channels).getArrivals
  obtain rfl : bst' = bst := Except.ok.inj (harrive.symm.trans hsched.arrived)
  have hread : Mirror bst' (sys.switch.readInputs channels).getQueueLength :=
    hbst.congr (fun i o => by
      rw [IQSwitch.readInputs_queueLength, IQSwitch.readInputs_arrivals])
  obtain ⟨cur, hsampling, hasking⟩ := asking_iterateAll hcfg hvalid hread hsched.iterated
  rw [hsched.inMatch]
  refine (hasking.maximal_or_le_matchSize hsampling).imp_left (fun hmax => ?_)
  -- The two inverses of the matching are the same.
  refine ⟨hsched.inMatch ▸ hsched.inverse, hmax.mem, fun i o hpos => ?_⟩
  exact hsampling.inverse.blocked_of_le (hsched.inMatch ▸ hsched.inverse) (fun _ _ h => h)
    (hmax.blocked i o hpos)

/-- With as many iterations as the smaller side has ports. -/
theorem maximal_slot (hcfg : cfg.withoutReplacement = true) (hit : min n m ≤ cfg.iterations)
    (hvalid : ∀ it, (draws it).Valid) (channels : Fin n → List (Packet n m))
    (hmir : Mirror sys.scheduler.bst sys.switch.getQueueLength) :
    ∃ next, switching (model n m cfg) draws channels sys = .ok next ∧
      Mirror next.scheduler.bst next.switch.getQueueLength ∧
      MaximalMatching (fun s d => 0 < (sys.switch.readInputs channels).getQueueLength s d)
        next.scheduler.inMatch next.scheduler.outMatch := by
  obtain ⟨next, hok, hnext, hinverse, hserved, hmax⟩ :=
    maximal_or_le_matchSize_slot hcfg hvalid channels hmir
  refine ⟨next, hok, hnext, hmax.elim id (fun hmany => ?_)⟩
  apply hinverse.maximalMatching_of_full hserved
  rw [Fintype.card_fin, Fintype.card_fin]
  exact hit.trans hmany

end

/-- In every run of a switch from empty, or after `init`, without replacement: the matching of every
    slot is maximal, or it has at least as many pairs as there were iterations; so it is maximal if
    there are as many iterations as the smaller side has ports. -/
theorem maximal_of_run {cfg : Config} (hcfg : cfg.withoutReplacement = true)
    {sys sys' : System (model n m cfg)} (hstart : Start cfg sys)
    (hrun : RunWhere (model n m cfg) (fun draws _ _ => Drawn draws) sys sys')
    {draws : ℕ → TreeDraws n m} (hdrawn : Drawn draws) (channels : Fin n → List (Packet n m)) :
    ∃ next, switching (model n m cfg) draws channels sys' = .ok next ∧
      (MaximalMatching (fun s d => 0 < (sys'.switch.readInputs channels).getQueueLength s d)
          next.scheduler.inMatch next.scheduler.outMatch ∨
        cfg.iterations ≤ matchSize next.scheduler.inMatch) ∧
      (min n m ≤ cfg.iterations →
        MaximalMatching (fun s d => 0 < (sys'.switch.readInputs channels).getQueueLength s d)
          next.scheduler.inMatch next.scheduler.outMatch) := by
  have hmir := mirror_run hstart.mirror hrun
  obtain ⟨next, hok, -, -, -, hmax⟩ :=
    maximal_or_le_matchSize_slot hcfg hdrawn.valid channels hmir
  refine ⟨next, hok, hmax, fun hit => ?_⟩
  obtain ⟨next', hok', -, hmax'⟩ := maximal_slot hcfg hit hdrawn.valid channels hmir
  rwa [Except.ok.inj (hok.symm.trans hok')]

/-- Two inputs that both ask for the first output: after two iterations each has one. -/
theorem maximal_two_iterations :
    ∃ next, switching (model 2 2 ⟨2, .longestFirst, true⟩) (fun _ => inOrderDraws 2 2 (1 / 4))
        (fun s => [⟨s, 0, 0, 0⟩, ⟨s, 1, 0, 0⟩]) ⟨IQSwitch.empty 2 2, initial⟩ = .ok next ∧
      MaximalMatching (fun s d => 0 < ((IQSwitch.empty 2 2).readInputs
          (fun s => [⟨s, 0, 0, 0⟩, ⟨s, 1, 0, 0⟩])).getQueueLength s d)
        next.scheduler.inMatch next.scheduler.outMatch := by
  obtain ⟨next, hok, -, hmax⟩ := @maximal_of_run 2 2 ⟨2, .longestFirst, true⟩ rfl _ _
    (.empty (IQSwitch.empty_empty 2 2)) .refl _
    (fun _ _ => ⟨1 / 4, by norm_num, by norm_num, rfl⟩ : Drawn (fun _ => inOrderDraws 2 2 (1 / 4)))
    (fun s => [⟨s, 0, 0, 0⟩, ⟨s, 1, 0, 0⟩])
  exact ⟨next, hok, hmax (by decide)⟩

end Qps

end SschedSimulator
