import Mathlib.Data.Int.ConditionallyCompleteOrder
import Mathlib.Data.List.MinMax
import SschedSimulator.Scheduler.QpsInvariant

namespace SschedSimulator

open Foundation

/-!
# QPS accepts by its policy

* `AcceptPolicy.rank` — every policy prefers the proposer of least rank, the first of these in the
  shuffle;
* `favourite_eq_argmin` — so the running comparison of Step 1 ends with `List.argmin`;
* `iterate_accepted` — an iteration adds to the matching one such proposer for every unmatched
  output that has any, and removes nothing;
* `accepts_by_policy` — every iteration of every slot of a run does.
-/

namespace Qps

variable {n m : ℕ}

/-- The inputs that propose to `out`, in the order of the shuffle. -/
def proposals (draws : TreeDraws n m) (st : State n m) (out : Fin m) : List (Fin n) :=
  proposers (openLength st) (draws.outputs st.bst) draws.shuffle.val out

/-- The proposer that a policy serves. -/
def AcceptPolicy.Serves (policy : AcceptPolicy) (len : Fin n → Fin m → ℕ) (out : Fin m)
    (ps : List (Fin n)) (i : Fin n) : Prop :=
  i ∈ ps ∧
  match policy with
  | longestFirst => ∀ j ∈ ps, len j out < len i out ∨
      len j out = len i out ∧ ps.idxOf i ≤ ps.idxOf j
  | shortestFirst => ∀ j ∈ ps, len i out < len j out ∨
      len j out = len i out ∧ ps.idxOf i ≤ ps.idxOf j
  | smallestFirst => ∀ j ∈ ps, i ≤ j
  | earliestFirst => ps.head? = some i
  | random => ps.head? = some i

/-- What the matching is after an iteration that started with `st`. -/
structure Accepted (policy : AcceptPolicy) (len : Fin n → Fin m → ℕ) (draws : TreeDraws n m)
    (st st' : State n m) : Prop where
  inverse : MutuallyInverse st'.inMatch st'.outMatch
  inMatch : ∀ i o, st.inMatch i = some o → st'.inMatch i = some o
  outMatch : ∀ o i, st.outMatch o = some i → st'.outMatch o = some i
  served : ∀ out, st.outMatch out = none → proposals draws st out ≠ [] →
    ∃ i, st'.outMatch out = some i ∧ policy.Serves len out (proposals draws st out) i
  unserved : ∀ out, st.outMatch out = none → proposals draws st out = [] → st'.outMatch out = none

/-! ### The running comparison -/

/-- The policies prefer a proposer of lower rank. -/
def AcceptPolicy.rank (policy : AcceptPolicy) (len : Fin n → Fin m → ℕ) (out : Fin m)
    (i : Fin n) : ℤ :=
  match policy with
  | longestFirst => -len i out
  | shortestFirst => len i out
  | smallestFirst => (i : ℕ)
  | earliestFirst => 0
  | random => 0

theorem AcceptPolicy.prefers_iff (policy : AcceptPolicy) (len : Fin n → Fin m → ℕ) (out : Fin m)
    (i last : Fin n) :
    policy.prefers len out i last = true ↔ policy.rank len out i < policy.rank len out last := by
  cases policy with
  | longestFirst =>
    rw [prefers, rank, rank, decide_eq_true_eq]
    omega
  | earliestFirst => simp [prefers, rank]
  | random => simp [prefers, rank]
  | shortestFirst =>
    rw [prefers, rank, rank, decide_eq_true_eq]
    omega
  | smallestFirst =>
    rw [prefers, rank, rank, decide_eq_true_eq, Fin.lt_def]
    omega

/-- Step 1 keeps the first of the proposers of least rank. -/
theorem favourite_eq_argmin (policy : AcceptPolicy) (len : Fin n → Fin m → ℕ)
    (draws : TreeDraws n m) (st : State n m) (out : Fin m) :
    favourite policy len draws st out = (proposals draws st out).argmin (policy.rank len out) := by
  have hstep : challenge (policy.prefers len out)
      = List.argAux (fun i j => policy.rank len out i < policy.rank len out j) := by
    ext kept i
    cases kept with
    | none => rfl
    | some j =>
      unfold challenge List.argAux
      simp only [policy.prefers_iff]
  rw [favourite, hstep]
  rfl

/-- The head of a list has no element before it. -/
theorem head?_eq_some_of_idxOf {ps : List (Fin n)} {i : Fin n}
    (h : ∀ j ∈ ps, ps.idxOf i ≤ ps.idxOf j) (hi : i ∈ ps) : ps.head? = some i := by
  cases ps with
  | nil => cases hi
  | cons j rest =>
    have hle := h j (List.mem_cons_self ..)
    rw [List.idxOf_cons_self] at hle
    by_contra hne
    have hne' : j ≠ i := fun he => hne (congrArg some he)
    rw [List.idxOf_cons_ne rest hne'] at hle
    omega

/-- That proposer is the one the policy serves. -/
theorem AcceptPolicy.serves_of_argmin {policy : AcceptPolicy} {len : Fin n → Fin m → ℕ}
    {out : Fin m} {ps : List (Fin n)} {i : Fin n} (h : ps.argmin (policy.rank len out) = some i) :
    policy.Serves len out ps i := by
  obtain ⟨hi, hle, hfirst⟩ := List.mem_argmin_iff.mp (Option.mem_def.mpr h)
  have hbest : ∀ j ∈ ps, policy.rank len out i < policy.rank len out j ∨
      policy.rank len out j = policy.rank len out i ∧ ps.idxOf i ≤ ps.idxOf j := by
    intro j hj
    rcases (hle j hj).lt_or_eq with hlt | heq
    · exact .inl hlt
    · exact .inr ⟨heq.symm, hfirst j hj heq.ge⟩
  refine ⟨hi, ?_⟩
  cases policy with
  | longestFirst =>
    intro j hj
    -- The rank is the negated length.
    apply (hbest j hj).imp
    · dsimp only [rank]
      omega
    · dsimp only [rank]
      omega
  | shortestFirst =>
    intro j hj
    apply (hbest j hj).imp
    · dsimp only [rank]
      omega
    · dsimp only [rank]
      omega
  | smallestFirst =>
    intro j hj
    have hj' := hle j hj
    dsimp only [rank] at hj'
    rw [Fin.le_def]
    omega
  -- All ranks are equal, so only the order counts.
  | earliestFirst => exact head?_eq_some_of_idxOf (fun j hj => hfirst j hj (le_refl _)) hi
  | random => exact head?_eq_some_of_idxOf (fun j hj => hfirst j hj (le_refl _)) hi

/-! ### One iteration -/

/-- Leaving out a VOQ does not change the matching. -/
theorem rejectLoop_matching {len : Fin n → Fin m → ℕ} {requests : Fin n → Option (Fin m)}
    {inputs : List (Fin n)} {w w' : Working n m}
    (hrun : inputs.foldlM (rejectInput len requests) w = .ok w') :
    w'.inMatch = w.inMatch ∧ w'.outMatch = w.outMatch := by
  have hloop : Post (inputs.foldlM (rejectInput len requests) w) (fun _ => True)
      (fun w' => w'.inMatch = w.inMatch ∧ w'.outMatch = w.outMatch) := by
    refine Post.foldlM ⟨rfl, rfl⟩ (fun i _ w₁ hw₁ => ?_)
    unfold rejectInput
    split
    · split
      · exact hw₁
      · rename_i out _
        exact (Post.top (removeVOQ w₁.bst i out)).bind
          (fun removed _ => Post.require_bind (fun _ => trivial) (fun _ => hw₁))
    · exact hw₁
  exact hloop.of_ok hrun

/-- What an unmatched output keeps in Step 1 comes from an unmatched input that sampled it; a
    matched output keeps nothing. -/
theorem proposeAll_lastCheck {policy : AcceptPolicy} {len : Fin n → Fin m → ℕ}
    {draws : TreeDraws n m} {st : State n m} {acc : Proposing n m}
    (hrun : proposeAll policy len draws st = .ok acc) {out : Fin m} {i : Fin n}
    (hi : acc.lastCheck out = some i) :
    st.outMatch out = none ∧ st.inMatch i = none ∧ draws.outputs st.bst i = some out := by
  have hlast := (proposeAll_post policy len draws st).of_ok hrun out
  rw [hi] at hlast
  split at hlast
  · rename_i hout
    rcases mem_of_foldl_challenge _ hlast.symm with hmem | hnone
    · obtain ⟨-, hopen, hsample⟩ := mem_proposers.mp hmem
      rw [Ne, openLength_eq_zero, not_or, not_ne_iff] at hopen
      exact ⟨hout, hopen.2, hsample⟩
    · cases hnone
  · cases hlast

/-- An iteration of `schedule` that returns. -/
theorem iterate_accepted {cfg : Config} {len : Fin n → Fin m → ℕ} {draws : TreeDraws n m}
    {w w' : Working n m} (h : MutuallyInverse w.inMatch w.outMatch)
    (hrun : iterate cfg len draws w = .ok w') :
    Accepted cfg.acceptPolicy len draws w.toState w'.toState := by
  obtain ⟨acc, hpropose, hrest⟩ := bind_eq_ok.mp hrun
  have hkept := @proposeAll_lastCheck _ _ _ _ _ _ _ hpropose
  have hlast := (proposeAll_post cfg.acceptPolicy len draws w.toState).of_ok hpropose
  obtain ⟨-, hin⟩ := acceptAll_eq (fun out i hi => (hkept hi).2)
  have hinverse : MutuallyInverse (acceptAll acc.lastCheck w.toState).inMatch
      (acceptAll acc.lastCheck w.toState).outMatch :=
    acceptLoop_inverse (List.nodup_finRange m) h (fun out _ i hi => (hkept hi).1)
  obtain ⟨hw'in, hw'out⟩ : w'.inMatch = (acceptAll acc.lastCheck w.toState).inMatch ∧
      w'.outMatch = (acceptAll acc.lastCheck w.toState).outMatch := by
    split at hrest
    · exact rejectLoop_matching hrest
    · cases hrest
      exact ⟨rfl, rfl⟩
  rw [← hw'in, ← hw'out] at hinverse
  rw [← hw'in] at hin
  -- A new pair is that of an output and the proposer that it kept.
  have hout : ∀ o i, w'.outMatch o = some i ↔ w.outMatch o = some i ∨ acc.lastCheck o = some i :=
    fun o i => by rw [← hinverse i o, hin i o, h i o]
  refine ⟨hinverse, fun i o hio => (hin i o).mpr (.inl hio),
    fun o i hoi => (hout o i).mpr (.inl hoi), fun out hfree hne => ?_, fun out hfree hnil => ?_⟩
  · have hfav := hlast out
    rw [if_pos hfree, favourite_eq_argmin] at hfav
    obtain ⟨i, hi⟩ : ∃ i, (proposals draws w.toState out).argmin
        (cfg.acceptPolicy.rank len out) = some i :=
      Option.ne_none_iff_exists'.mp (fun hnone => hne (List.argmin_eq_none.mp hnone))
    exact ⟨i, (hout out i).mpr (.inr (hfav.trans hi)), AcceptPolicy.serves_of_argmin hi⟩
  · have hfav := hlast out
    rw [if_pos hfree, favourite_eq_argmin, hnil, List.argmin_nil] at hfav
    rw [Option.eq_none_iff_forall_ne_some]
    intro i hi
    rcases (hout out i).mp hi with hi | hi
    · rw [hfree] at hi
      cases hi
    · rw [hfav] at hi
      cases hi

/-! ### Every iteration of a slot -/

/-- The matching of every state of a slot is a partial one, and each iteration accepts by the
    policy. -/
theorem iterates_accepted {cfg : Config} {len : Fin n → Fin m → ℕ} {draws : ℕ → TreeDraws n m}
    {w : ℕ → Working n m} {k : ℕ} (h : MutuallyInverse (w 0).inMatch (w 0).outMatch)
    (hrun : ∀ it < k, iterate cfg len (draws it) (w it) = .ok (w (it + 1))) :
    ∀ it < k, Accepted cfg.acceptPolicy len (draws it) (w it).toState (w (it + 1)).toState := by
  have hinverse : ∀ it ≤ k, MutuallyInverse (w it).inMatch (w it).outMatch := by
    intro it hit
    induction it with
    | zero => exact h
    | succ it ih => exact (iterate_accepted (ih (by omega)) (hrun it (by omega))).inverse
  exact fun it hit => iterate_accepted (hinverse it hit.le) (hrun it hit)

/-- In every run of a switch from empty, or after `init`: a slot starts with all ports unmatched,
    its iterations return, and each of them only adds to the matching, namely for every unmatched
    output with a proposal the proposer that the policy serves.  The matching of the slot is that of
    the last iteration. -/
theorem accepts_by_policy {cfg : Config} {sys sys' : System (model n m cfg)}
    (hstart : Start cfg sys)
    (hrun : RunWhere (model n m cfg) (fun draws _ _ => Drawn draws) sys sys')
    {draws : ℕ → TreeDraws n m} (hdrawn : Drawn draws) (channels : Fin n → List (Packet n m)) :
    ∃ (next : System (model n m cfg)) (w : ℕ → Working n m),
      switching (model n m cfg) draws channels sys' = .ok next ∧
      handleArrivals (sys'.switch.readInputs channels).getArrivals sys'.scheduler.bst
        = .ok (w 0).bst ∧
      (∀ i, (w 0).inMatch i = none) ∧ (∀ o, (w 0).outMatch o = none) ∧
      (∀ it < cfg.iterations,
        iterate cfg (sys'.switch.readInputs channels).getQueueLength (draws it) (w it)
          = .ok (w (it + 1)) ∧
        Accepted cfg.acceptPolicy (sys'.switch.readInputs channels).getQueueLength (draws it)
          (w it).toState (w (it + 1)).toState) ∧
      next.scheduler.inMatch = (w cfg.iterations).inMatch ∧
      next.scheduler.outMatch = (w cfg.iterations).outMatch := by
  -- The trees mirror the queues at the start of the slot, so that its iterations return.
  have hmir := mirror_run hstart.mirror hrun
  obtain ⟨next, bst, last, hok, hsched, -⟩ := switching_eq_ok hdrawn.valid channels hmir
  obtain ⟨w, h0, hlast, hstep⟩ := exists_of_foldlM_range hsched.iterated
  have hopen : MutuallyInverse (w 0).inMatch (w 0).outMatch := by
    rw [h0]
    exact mutuallyInverse_none
  have haccepted := iterates_accepted hopen hstep
  have hinverse : MutuallyInverse last.inMatch last.outMatch := by
    rw [← hlast]
    cases hk : cfg.iterations with
    | zero => exact hopen
    | succ k => exact (haccepted k (by omega)).inverse
  refine ⟨next, w, hok, ?_, ?_, ?_, fun it hit => ⟨hstep it hit, haccepted it hit⟩, ?_, ?_⟩
  · rw [h0]
    exact hsched.arrived
  · rw [h0]
    exact fun _ => rfl
  · rw [h0]
    exact fun _ => rfl
  · rw [hlast]
    exact hsched.inMatch
  · rw [hlast]
    ext o i
    rw [← hsched.inverse i o, hsched.inMatch, hinverse i o]

/-- Two inputs with one and two packets ask for one output: the longer queue is served. -/
theorem accepts_longest :
    let cfg : Config := ⟨2, .longestFirst, true⟩
    ∃ (next : System (model 2 1 cfg)) (w : ℕ → Working 2 1),
      next.scheduler.outMatch 0 = some 1 ∧ next.scheduler.outMatch = (w 2).outMatch ∧
      Accepted .longestFirst (fun i _ => if i = 0 then 1 else 2) (inOrderDraws 2 1 (1 / 4))
        (w 0).toState (w 1).toState := by
  intro cfg
  have hdrawn : Drawn (fun _ => inOrderDraws 2 1 (1 / 4)) :=
    fun _ _ => ⟨1 / 4, by norm_num, by norm_num, rfl⟩
  obtain ⟨next, w, hok, -, -, -, hstep, -, hout⟩ :=
    accepts_by_policy (.empty (IQSwitch.empty_empty 2 1)) .refl hdrawn
      (packetsFor 0 (fun i => if i = 0 then 1 else 2))
  have hlen : ((IQSwitch.empty 2 1).readInputs
      (packetsFor 0 (fun i => if i = 0 then 1 else 2))).getQueueLength
      = fun i _ => if i = 0 then 1 else 2 := by
    decide
  obtain ⟨next', hok', hmatched⟩ := exists_of_returns
    (x := switching (model 2 1 cfg) (fun _ => inOrderDraws 2 1 (1 / 4))
      (packetsFor 0 (fun i => if i = 0 then 1 else 2)) ⟨IQSwitch.empty 2 1, initial⟩)
    (p := fun next => decide (next.scheduler.outMatch 0 = some 1)) (by decide +kernel)
  obtain rfl : next' = next := Except.ok.inj (hok'.symm.trans hok)
  exact ⟨next', w, of_decide_eq_true hmatched, hout, hlen ▸ (hstep 0 (by decide)).2⟩

end Qps

end SschedSimulator
