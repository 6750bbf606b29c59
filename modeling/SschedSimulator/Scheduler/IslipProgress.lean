import SschedSimulator.Scheduler.Islip

namespace SschedSimulator

open Foundation

/-!
# `maximal_scheduler.cc` — why `iSLIP` starves no queue

A VOQ that is passed over in the first iteration comes closer to its turn: either the grant pointer
of its output does, or the input granted instead of it comes closer to the grant pointer, or the
output comes closer to the accept pointer of that input.

* `schedule_eq_first` — the iterations after the first move no pointer and undo no match;
* `rank` — the three distances of a VOQ to its turn, and `rank_lt` — from one slot to the next they
  decrease lexicographically while the VOQ is passed over.
-/

namespace Islip

variable {n m iterations : ℕ}

/-- The input that output `j` grants in the first iteration of a slot. -/
def firstGrant (sw : IQSwitch n m) (st : State n m) (j : Fin m) : Option (Fin n) :=
  grantOutput (enterSlot sw st) j

/-- Input `i` accepts output `j` in the first iteration of a slot. -/
def AcceptedFirst (sw : IQSwitch n m) (st : State n m) (i : Fin n) (j : Fin m) : Prop :=
  ∃ st', iterate (enterSlot sw st) 0 = .ok st' ∧ st'.inMatch i = some j

/-- How far VOQ `(i, j)` is from its turn when output `j` grants input `x`: from the grant pointer
    of `j` to `i` and to `x`, and from the accept pointer of `x` to `j`. -/
def rank (st : State n m) (i x : Fin n) (j : Fin m) : ℕ × ℕ × ℕ :=
  (RoundRobin.distance n (st.grantPointers j) i, RoundRobin.distance n (st.grantPointers j) x,
    RoundRobin.distance m (st.acceptPointer x) j)

/-- The lexicographic order of the ranks. -/
def RankLt : ℕ × ℕ × ℕ → ℕ × ℕ × ℕ → Prop := Prod.Lex (· < ·) (Prod.Lex (· < ·) (· < ·))

/-! ### The later iterations -/

/-- An iteration after the first moves no pointer and undoes no match. -/
theorem Iterated.frame {st₀ st : State n m} (h : Iterated false st₀ st) :
    st.grantPointers = st₀.grantPointers ∧ st.acceptPointer = st₀.acceptPointer ∧
      ∀ i o, st₀.inMatch i = some o → st.inMatch i = some o := by
  refine ⟨funext (fun o => ?_), funext (fun i => ?_), fun i o hio => ?_⟩
  · rcases h.output o with ⟨-, hgp, -⟩ | ⟨_, -, -, -, hgp⟩
    · exact hgp
    · exact hgp
  · rcases h.input i with ⟨-, -, hap⟩ | ⟨_, -, -, hap⟩
    · exact hap
    · exact hap
  · rcases h.input i with ⟨-, hin, -⟩ | ⟨o', hacc, -⟩
    · exact hin.trans hio
    · rw [(grantOutput_eq_some (accepted_eq_some hacc)).2.1] at hio
      exact nomatch hio

theorem later_eq_ok (its : List ℕ) (st : State n m) :
    ∃ st', (its.map Nat.succ).foldlM iterate st = .ok st' ∧
      st'.grantPointers = st.grantPointers ∧ st'.acceptPointer = st.acceptPointer ∧
      ∀ i o, st.inMatch i = some o → st'.inMatch i = some o := by
  induction its generalizing st with
  | nil => exact ⟨st, rfl, rfl, rfl, fun _ _ h => h⟩
  | cons it rest ih =>
    obtain ⟨st₁, hrun₁, hit⟩ := iterate_eq_ok st (it + 1)
    obtain ⟨hgp₁, hap₁, hin₁⟩ := Iterated.frame hit
    obtain ⟨st₂, hrun₂, hgp₂, hap₂, hin₂⟩ := ih st₁
    refine ⟨st₂, ?_, hgp₂.trans hgp₁, hap₂.trans hap₁, fun i o h => hin₂ i o (hin₁ i o h)⟩
    rw [List.map_cons, List.foldlM_cons, Nat.succ_eq_add_one, hrun₁, ok_bind, hrun₂]

/-- The pointers after a call are those after its first iteration, and the pairs matched there stay
    matched. -/
theorem schedule_eq_first (hit : 1 ≤ iterations) {sw : IQSwitch n m} {st st' : State n m}
    (hrun : schedule iterations sw st = .ok st') :
    ∃ st₁, iterate (enterSlot sw st) 0 = .ok st₁ ∧ Iterated true (enterSlot sw st) st₁ ∧
      st'.grantPointers = st₁.grantPointers ∧ st'.acceptPointer = st₁.acceptPointer ∧
      ∀ i o, st₁.inMatch i = some o → st'.inMatch i = some o := by
  obtain ⟨k, rfl⟩ : ∃ k, iterations = k + 1 := ⟨iterations - 1, by omega⟩
  obtain ⟨st₁, hrun₁, hfirst⟩ := iterate_eq_ok (enterSlot sw st) 0
  obtain ⟨st₂, hrun₂, hgp, hap, hin⟩ := later_eq_ok (List.range k) st₁
  refine ⟨st₁, hrun₁, hfirst, ?_⟩
  rw [schedule, List.range_succ_eq_map, List.foldlM_cons, hrun₁, ok_bind, hrun₂, ok_bind,
    Except.ok.injEq] at hrun
  subst hrun
  exact ⟨hgp, hap, hin⟩

/-! ### The first iteration -/

/-- If the output was not accepted, then the input that it granted accepted an output that comes
    before it. -/
theorem accepts_other {sw : IQSwitch n m} {st : State n m} {x : Fin n} {j : Fin m}
    (hap : st.acceptPointer x < m) (hgrant : firstGrant sw st j = some x)
    (hno : accepted (enterSlot sw st) x ≠ some j) :
    ∃ j', accepted (enterSlot sw st) x = some j' ∧ j' ≠ j ∧
      RoundRobin.distance m (st.acceptPointer x) j'
        ≤ RoundRobin.distance m (st.acceptPointer x) j := by
  have htest : decide (grantOutput (enterSlot sw st) j = some x) = true := decide_eq_true hgrant
  have hscan : accepted (enterSlot sw st) x = RoundRobin.scan (st.acceptPointer x)
      (fun out => decide (grantOutput (enterSlot sw st) out = some x)) := rfl
  obtain ⟨j', hj'⟩ := RoundRobin.exists_scan hap (y := j)
    (fun out => decide (grantOutput (enterSlot sw st) out = some x)) htest
  refine ⟨j', hscan.trans hj', fun he => hno ?_, RoundRobin.distance_scan_le hap hj' htest⟩
  rw [hscan, hj', he]

/-! ### Progress -/

/-- The rank decreases if the grant pointer stays and the input that was granted moves its accept
    pointer past another output: either it is granted again, or one that comes before it. -/
theorem rankLt_of_grant_kept {st st' : State n m} (i : Fin n) {x x' : Fin n} {j j' : Fin m}
    (hgrant : st.grantPointers j < n) (haccept : st.acceptPointer x < m)
    (hkept : st'.grantPointers j = st.grantPointers j)
    (hmoved : st'.acceptPointer x = nextPointer true j' (st.acceptPointer x)) (hne : j' ≠ j)
    (hle : RoundRobin.distance m (st.acceptPointer x) j'
      ≤ RoundRobin.distance m (st.acceptPointer x) j)
    (hdist : RoundRobin.distance n (st.grantPointers j) x'
      ≤ RoundRobin.distance n (st.grantPointers j) x) :
    RankLt (rank st' i x' j) (rank st i x j) := by
  have hrank : rank st' i x' j
      = (RoundRobin.distance n (st.grantPointers j) i,
        RoundRobin.distance n (st.grantPointers j) x',
        RoundRobin.distance m (st'.acceptPointer x') j) := by
    rw [rank, hkept]
  rw [hrank]
  by_cases hxx : x' = x
  · subst hxx
    apply Prod.Lex.right
    apply Prod.Lex.right
    rw [hmoved]
    exact RoundRobin.distance_next_lt haccept hne hle
  · apply Prod.Lex.right
    apply Prod.Lex.left
    apply lt_of_le_of_ne hdist
    intro he
    exact hxx (RoundRobin.distance_injective hgrant he)

/-- The rank decreases if the grant pointer moves past an input that comes before `i`. -/
theorem rankLt_of_grant_moved {st st' : State n m} {i x : Fin n} (x' : Fin n) {j : Fin m}
    (hgrant : st.grantPointers j < n)
    (hmoved : st'.grantPointers j = nextPointer true x (st.grantPointers j)) (hne : x ≠ i)
    (hle : RoundRobin.distance n (st.grantPointers j) x
      ≤ RoundRobin.distance n (st.grantPointers j) i) :
    RankLt (rank st' i x' j) (rank st i x j) := by
  apply Prod.Lex.left
  rw [hmoved]
  exact RoundRobin.distance_next_lt hgrant hne hle

/-- Let VOQ `(i, j)` hold a packet in two consecutive slots and not be accepted in the first
    iteration of the first one.  Then its rank decreases, whatever arrives and whatever the later
    iterations match. -/
theorem rank_lt (hit : 1 ≤ iterations) {gp : Fin m → ℕ} {ap : Fin n → ℕ} (hgp : ∀ o, gp o < n)
    (hap : ∀ i, ap i < m) {start sys sys' : System (model n m iterations)}
    (hstart : Start gp ap start) (hreach : Run (model n m iterations) start sys)
    {channels channels' : Fin n → List (Packet n m)}
    (hslot : switching (model n m iterations) () channels sys = .ok sys') {i : Fin n} {j : Fin m}
    (hnow : 0 < (sys.switch.readInputs channels).getQueueLength i j)
    (hnext : 0 < (sys'.switch.readInputs channels').getQueueLength i j)
    (hpassed : ¬ AcceptedFirst (sys.switch.readInputs channels) sys.scheduler i j) :
    ∃ x x', firstGrant (sys.switch.readInputs channels) sys.scheduler j = some x ∧
      firstGrant (sys'.switch.readInputs channels') sys'.scheduler j = some x' ∧
      RankLt (rank sys'.scheduler i x' j) (rank sys.scheduler i x j) := by
  have hsync : Synchronised sys := (hstart.synchronised hgp hap).run hreach
  obtain ⟨sys₁, hok, hsync', -, hlen⟩ := hsync.switching_eq_ok channels
  obtain rfl : sys₁ = sys' := by rw [hslot] at hok; exact (Except.ok.inj hok).symm
  obtain ⟨st₁, hfirst, hit₁, hgp₁, hap₁, hin₁⟩ :=
    schedule_eq_first hit (schedule_of_switching hslot)
  -- `j` grants the request of `i` or one that comes before it.
  have hreq := (hsync.enterSlot_status channels i j).mpr hnow
  have hreq' := (hsync'.enterSlot_status channels' i j).mpr hnext
  obtain ⟨x, hx⟩ := RoundRobin.exists_scan (hsync.grantRange j)
    (fun input => (enterSlot (sys.switch.readInputs channels) sys.scheduler).queueStatus input j)
    hreq
  obtain ⟨x', hx'⟩ := RoundRobin.exists_scan (hsync'.grantRange j)
    (fun input => (enterSlot (sys₁.switch.readInputs channels') sys₁.scheduler).queueStatus input j)
    hreq'
  refine ⟨x, x', hx, hx', ?_⟩
  rcases hit₁.output j with ⟨-, hkeep, hno⟩ | ⟨y, -, hacc, -, hmove⟩
  · -- The grant was not accepted: `x` took another output and its accept pointer moved.
    obtain ⟨j', hacc, hne, hle⟩ := accepts_other (hsync.acceptRange x) hx (hno x trivial)
    obtain ⟨hin, hptr⟩ := (hit₁.input x).of_accepted hacc
    have hsame : sys₁.scheduler.grantPointers j = sys.scheduler.grantPointers j := by
      rw [hgp₁, hkeep]
      rfl
    have hreqx : (enterSlot (sys₁.switch.readInputs channels') sys₁.scheduler).queueStatus x j
        = true := by
      -- `x` still has its packet for `j`, since it sent to `j'`.
      have hsent := hin₁ x j' hin
      have hpos := (hsync.enterSlot_status channels x j).mp
        (RoundRobin.test_of_scan (fun input => (enterSlot (sys.switch.readInputs channels)
          sys.scheduler).queueStatus input j) hx)
      rw [hsync'.enterSlot_status, IQSwitch.readInputs_queueLength, hlen, hsent, if_neg]
      · omega
      · rw [Option.some.injEq]
        exact hne
    have hdist := RoundRobin.distance_scan_le (hsync'.grantRange j) hx' hreqx
    rw [hsame] at hdist
    exact rankLt_of_grant_kept i (hsync.grantRange j) (hsync.acceptRange x) hsame
      ((congrFun hap₁ x).trans hptr) hne hle hdist
  · -- The grant was accepted, by another input: the grant pointer moved behind it.
    obtain rfl : y = x := by
      have hy := accepted_eq_some hacc
      exact Option.some.inj (hy.symm.trans hx)
    have hyi : y ≠ i := by
      rintro rfl
      exact hpassed ⟨st₁, hfirst, ((hit₁.input y).of_accepted hacc).1⟩
    exact rankLt_of_grant_moved x' (hsync.grantRange j) ((congrFun hgp₁ j).trans hmove) hyi
      (RoundRobin.distance_scan_le (hsync.grantRange j) hx hreq)

/-- Both inputs have a packet for output `0`; input `0` is served first, and the rank of the VOQ of
    input `1` decreases. -/
theorem rank_lt_after_slot :
    ∃ (sys : System (model 2 2 1)) (x x' : Fin 2), sys.scheduler.inMatch 0 = some 0 ∧
      RankLt (rank sys.scheduler 1 x' 0)
        (rank (initial (fun _ => 0) (fun _ => 0) : State 2 2) 1 x 0) := by
  obtain ⟨sys, hrun, hsys⟩ := exists_of_returns
    (x := switching (model 2 2 1) () (packetsFor 0 (fun _ => 1))
      ⟨IQSwitch.empty 2 2, initial (fun _ => 0) (fun _ => 0)⟩)
    (p := fun sys => decide (sys.scheduler.inMatch 0 = some 0 ∧
      0 < (sys.switch.readInputs (fun _ => [])).getQueueLength 1 0)) (by decide)
  obtain ⟨hin, hnext⟩ := of_decide_eq_true hsys
  obtain ⟨st, hfirst, hst⟩ := exists_of_returns
    (x := iterate (enterSlot ((IQSwitch.empty 2 2).readInputs (packetsFor 0 (fun _ => 1)))
      (initial (fun _ => 0) (fun _ => 0))) 0)
    (p := fun st => decide (st.inMatch 1 ≠ some 0)) (by decide)
  have hpassed : ¬ AcceptedFirst ((IQSwitch.empty 2 2).readInputs (packetsFor 0 (fun _ => 1)))
      (initial (fun _ => 0) (fun _ => 0)) 1 0 := by
    rintro ⟨st', hrun', hin'⟩
    rw [hfirst, Except.ok.injEq] at hrun'
    subst hrun'
    exact of_decide_eq_true hst hin'
  obtain ⟨x, x', -, -, hlt⟩ := @rank_lt 2 2 1 (by decide) (fun _ => 0) (fun _ => 0)
    (by decide) (by decide) _ _ _ (.empty (IQSwitch.empty_empty 2 2)) .refl _ _ hrun _ _
    (by decide) hnext hpassed
  exact ⟨sys, x, x', hin, hlt⟩

end Islip

end SschedSimulator
