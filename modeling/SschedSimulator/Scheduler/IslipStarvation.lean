import SschedSimulator.Scheduler.IslipProgress
import SschedSimulator.Scheduler.IslipSaturation

namespace SschedSimulator

open Foundation

/-!
# `maximal_scheduler.cc` — how long a VOQ of `iSLIP` waits

The rank of a VOQ that is passed over decreases from slot to slot, and there are fewer than
`n * n * m` ranks.

* `Synchronised.passed_over` — what the slot does to a VOQ that has a packet and is not served: its
  `turn`, the rank as one number, becomes smaller;
* `exists_served` — so it is served in one of `n * n * m` consecutive slots;
* `served_in_time` — a packet leaves after at most so many slots for each packet that is before it
  in its VOQ, and for itself.
-/

namespace Islip

variable {n m iterations : ℕ}

/-- The rank of a VOQ as one number. -/
def turn (st : State n m) (i x : Fin n) (j : Fin m) : ℕ :=
  ((rank st i x j).1 * n + (rank st i x j).2.1) * m + (rank st i x j).2.2

/-- The slots in which a VOQ that has a packet is surely served. -/
def patience (n m : ℕ) : ℕ := n * n * m

/-! ### Ranks as numbers -/

/-- Two digits are compared by the first if it differs. -/
theorem digit_lt {a a' b c : ℕ} (h : a < a') (hc : c < b) : a * b + c < a' * b :=
  calc a * b + c < a * b + b := Nat.add_lt_add_left hc _
    _ = (a + 1) * b := (Nat.succ_mul a b).symm
    _ ≤ a' * b := Nat.mul_le_mul_right b h

/-- A smaller rank is an earlier turn. -/
theorem turn_lt {st st' : State n m} {i x x' : Fin n} {j : Fin m}
    (hgrant : st'.grantPointers j < n) (haccept : st'.acceptPointer x' < m)
    (h : RankLt (rank st' i x' j) (rank st i x j)) : turn st' i x' j < turn st i x j := by
  have hinput : (rank st' i x' j).2.1 < n := RoundRobin.distance_lt hgrant
  have houtput : (rank st' i x' j).2.2 < m := RoundRobin.distance_lt haccept
  unfold turn
  rcases (Prod.lex_def.mp h) with hfirst | ⟨hfirst, h'⟩
  · apply Nat.lt_add_right
    apply digit_lt _ houtput
    exact Nat.lt_add_right _ (digit_lt hfirst hinput)
  · rcases (Prod.lex_def.mp h') with hsecond | ⟨hsecond, hthird⟩
    · rw [hfirst]
      apply Nat.lt_add_right
      exact digit_lt (Nat.add_lt_add_left hsecond _) houtput
    · rw [hfirst, hsecond]
      exact Nat.add_lt_add_left hthird _

/-- No turn is later than the patience allows. -/
theorem turn_lt_patience {st : State n m} (i x : Fin n) {j : Fin m}
    (hgrant : st.grantPointers j < n) (haccept : st.acceptPointer x < m) :
    turn st i x j < patience n m :=
  digit_lt (digit_lt (RoundRobin.distance_lt hgrant) (RoundRobin.distance_lt hgrant))
    (RoundRobin.distance_lt haccept)

/-! ### One slot -/

section

variable {sys sys' : System (model n m iterations)} {channels : Fin n → List (Packet n m)}

/-- An output whose VOQ from `i` has a packet grants some input, and none that comes after `i`. -/
theorem Synchronised.exists_firstGrant (h : Synchronised sys) {i : Fin n} {j : Fin m}
    (hpos : 0 < (sys.switch.readInputs channels).getQueueLength i j) :
    ∃ x, firstGrant (sys.switch.readInputs channels) sys.scheduler j = some x ∧
      RoundRobin.distance n (sys.scheduler.grantPointers j) x
        ≤ RoundRobin.distance n (sys.scheduler.grantPointers j) i := by
  have hrequest := (h.enterSlot_status channels i j).mpr hpos
  obtain ⟨x, hx⟩ := RoundRobin.exists_scan (h.grantRange j)
    (fun input => (enterSlot (sys.switch.readInputs channels) sys.scheduler).queueStatus input j)
    hrequest
  exact ⟨x, hx, RoundRobin.distance_scan_le (h.grantRange j) hx hrequest⟩

theorem Synchronised.granted_pos (h : Synchronised sys) {x : Fin n} {j : Fin m}
    (hx : firstGrant (sys.switch.readInputs channels) sys.scheduler j = some x) :
    0 < (sys.switch.readInputs channels).getQueueLength x j :=
  (h.enterSlot_status channels x j).mp (grantOutput_eq_some hx).2.2

/-- What the first iteration did to an output that granted `x`: `x` accepted it and the grant
    pointer moved, or `x` accepted an output that comes before it and the accept pointer moved. -/
theorem Synchronised.granted (hit : 1 ≤ iterations) (h : Synchronised sys)
    (hslot : switching (model n m iterations) () channels sys = .ok sys') {x : Fin n} {j : Fin m}
    (hx : firstGrant (sys.switch.readInputs channels) sys.scheduler j = some x) :
    (sys'.scheduler.inMatch x = some j ∧
      sys'.scheduler.grantPointers j = nextPointer true x (sys.scheduler.grantPointers j)) ∨
    (sys'.scheduler.grantPointers j = sys.scheduler.grantPointers j ∧
      ∃ j', j' ≠ j ∧ sys'.scheduler.inMatch x = some j' ∧
        sys'.scheduler.acceptPointer x = nextPointer true j' (sys.scheduler.acceptPointer x) ∧
        RoundRobin.distance m (sys.scheduler.acceptPointer x) j'
          ≤ RoundRobin.distance m (sys.scheduler.acceptPointer x) j) := by
  obtain ⟨st, -, hfirst, hgp, hap, hin⟩ := schedule_eq_first hit (schedule_of_switching hslot)
  rcases hfirst.output j with ⟨-, hkept, hno⟩ | ⟨y, -, hacc, -, hmoved⟩
  · obtain ⟨j', hacc, hne, hle⟩ := accepts_other (h.acceptRange x) hx (hno x trivial)
    obtain ⟨hmatch, hptr⟩ := (hfirst.input x).of_accepted hacc
    exact .inr ⟨(congrFun hgp j).trans hkept, j', hne, hin x j' hmatch,
      (congrFun hap x).trans hptr, hle⟩
  · obtain rfl : y = x := Option.some.inj ((accepted_eq_some hacc).symm.trans hx)
    exact .inl ⟨hin y j ((hfirst.input y).of_accepted hacc).1, (congrFun hgp j).trans hmoved⟩

/-- A VOQ that has a packet in two consecutive slots and is not served in the first one. -/
theorem Synchronised.passed_over (hit : 1 ≤ iterations) (h : Synchronised sys)
    (h' : Synchronised sys') {channels' : Fin n → List (Packet n m)}
    (hslot : switching (model n m iterations) () channels sys = .ok sys') {i : Fin n} {j : Fin m}
    (hnow : 0 < (sys.switch.readInputs channels).getQueueLength i j)
    (hnext : 0 < (sys'.switch.readInputs channels').getQueueLength i j)
    (hpassed : sys'.scheduler.inMatch i ≠ some j) {x x' : Fin n}
    (hx : firstGrant (sys.switch.readInputs channels) sys.scheduler j = some x)
    (hx' : firstGrant (sys'.switch.readInputs channels') sys'.scheduler j = some x') :
    turn sys'.scheduler i x' j < turn sys.scheduler i x j := by
  apply turn_lt (h'.grantRange j) (h'.acceptRange x')
  rcases h.granted hit hslot hx with ⟨hserved, hmoved⟩ | ⟨hkept, j', hne, hmatch, hptr, hle⟩
  · -- Another input was served, and the grant pointer is behind it now.
    have hxi : x ≠ i := by
      rintro rfl
      exact hpassed hserved
    obtain ⟨y, hy, hbefore⟩ := h.exists_firstGrant hnow
    obtain rfl : y = x := Option.some.inj (hy.symm.trans hx)
    exact rankLt_of_grant_moved x' (h.grantRange j) hmoved hxi hbefore
  · -- `x` sent to another output, so it requests `j` again, and none after it is granted.
    have hagain : 0 < (sys'.switch.readInputs channels').getQueueLength x j := by
      have hpos := h.granted_pos hx
      obtain ⟨next, hok, -, -, hlen⟩ := h.switching_eq_ok channels
      obtain rfl : next = sys' := Except.ok.inj (hok.symm.trans hslot)
      rw [IQSwitch.readInputs_queueLength, hlen, hmatch, if_neg (by simpa using hne)]
      omega
    obtain ⟨y, hy, hdist⟩ := h'.exists_firstGrant hagain
    obtain rfl : y = x' := Option.some.inj (hy.symm.trans hx')
    rw [hkept] at hdist
    exact rankLt_of_grant_kept i (h.grantRange j) (h.acceptRange x) hkept hptr hne hle hdist

end

/-! ### Runs -/

section

variable {channels : ℕ → Fin n → List (Packet n m)} {w : ℕ → System (model n m iterations)}

/-- VOQ `(i, j)` is served in slot `t`. -/
def ServedAt (w : ℕ → System (model n m iterations)) (i : Fin n) (j : Fin m) (t : ℕ) : Prop :=
  (w (t + 1)).scheduler.inMatch i = some j

instance (i : Fin n) (j : Fin m) : DecidablePred (ServedAt w i j) :=
  fun t => inferInstanceAs (Decidable ((w (t + 1)).scheduler.inMatch i = some j))

/-- A VOQ that is served soon whatever its turn is, by induction on the turn. -/
theorem exists_served_of_turn (hit : 1 ≤ iterations)
    (htrace : Trace (model n m iterations) (fun _ => ()) channels w)
    (hsync : ∀ t, Synchronised (w t)) {i : Fin n} {j : Fin m} (bound T : ℕ) {x : Fin n}
    (hpos : 0 < ((w T).switch.readInputs (channels T)).getQueueLength i j)
    (hx : firstGrant ((w T).switch.readInputs (channels T)) (w T).scheduler j = some x)
    (hturn : turn (w T).scheduler i x j < bound) : ∃ t < bound, ServedAt w i j (T + t) := by
  induction bound generalizing T x with
  | zero => exact absurd hturn (Nat.not_lt_zero _)
  | succ bound ih =>
    by_cases hserved : ServedAt w i j T
    · exact ⟨0, Nat.succ_pos bound, hserved⟩
    · have hkept : 0 < ((w (T + 1)).switch.readInputs (channels (T + 1))).getQueueLength i j := by
        obtain ⟨next, hok, -, -, hlen⟩ := (hsync T).switching_eq_ok (channels T)
        obtain rfl : next = w (T + 1) := Except.ok.inj (hok.symm.trans (htrace.step T))
        unfold ServedAt at hserved
        rw [IQSwitch.readInputs_queueLength, hlen, if_neg hserved]
        omega
      obtain ⟨x', hx', -⟩ := (hsync (T + 1)).exists_firstGrant hkept
      have hless := (hsync T).passed_over hit (hsync (T + 1)) (htrace.step T) hpos hkept hserved
        hx hx'
      obtain ⟨t, ht, hserved'⟩ := ih (T + 1) hkept hx' (by omega)
      exact ⟨t + 1, by omega, by rwa [show T + (t + 1) = T + 1 + t by omega]⟩

/-- A queue that holds a packet is served before its patience runs out. -/
theorem exists_served (hit : 1 ≤ iterations)
    (htrace : Trace (model n m iterations) (fun _ => ()) channels w)
    (hsync : ∀ t, Synchronised (w t)) {i : Fin n} {j : Fin m} {T : ℕ}
    (hpos : 0 < (w T).switch.getQueueLength i j) :
    ∃ t < patience n m, ServedAt w i j (T + t) := by
  have hpos' : 0 < ((w T).switch.readInputs (channels T)).getQueueLength i j := by
    rw [IQSwitch.readInputs_queueLength]
    omega
  obtain ⟨x, hx, -⟩ := (hsync T).exists_firstGrant hpos'
  exact exists_served_of_turn hit htrace hsync (patience n m) T hpos' hx
    (turn_lt_patience i x ((hsync T).grantRange j) ((hsync T).acceptRange x))

/-- A VOQ loses a packet only when it is served. -/
theorem length_le (htrace : Trace (model n m iterations) (fun _ => ()) channels w) (i : Fin n)
    (j : Fin m) (T : ℕ) :
    (w 0).switch.getQueueLength i j
      ≤ (w T).switch.getQueueLength i j + Nat.count (ServedAt w i j) T := by
  induction T with
  | zero => simp
  | succ T ih =>
    have hslot := congrFun (lengths_switching (htrace.step T)) (i, j)
    have hserved : servedOf ((w T).lengths + offered (channels T))
        ((model n m iterations).inMatch (w (T + 1)).scheduler) (i, j)
        ≤ if ServedAt w i j T then 1 else 0 := by
      unfold servedOf
      split
      · rename_i hpair
        exact (if_pos (show ServedAt w i j T from hpair.1)).ge
      · exact Nat.zero_le _
    rw [Nat.count_succ]
    simp only [Pi.add_apply, System.lengths] at hslot hserved
    omega

end

/-- In every run, whatever arrives: of the packets that are in a VOQ, `k` have left after
    `k * patience n m` slots. -/
theorem served_in_time (hit : 1 ≤ iterations) {gp : Fin m → ℕ} {ap : Fin n → ℕ}
    (hgp : ∀ o, gp o < n) (hap : ∀ i, ap i < m) {start sys : System (model n m iterations)}
    (hstart : Start gp ap start) (hrun : Run (model n m iterations) start sys)
    (channels : ℕ → Fin n → List (Packet n m)) :
    ∃ w, w 0 = sys ∧ Trace (model n m iterations) (fun _ => ()) channels w ∧
      ∀ i j k, k ≤ sys.switch.getQueueLength i j →
        k ≤ Nat.count (ServedAt w i j) (k * patience n m) := by
  obtain ⟨w, rfl, htrace, hsync⟩ :=
    ((hstart.synchronised hgp hap).run hrun).exists_trace channels
  refine ⟨w, rfl, htrace, fun i j k => ?_⟩
  induction k with
  | zero => exact fun _ => Nat.zero_le _
  | succ k ih =>
    intro hk
    have hsofar := ih (by omega)
    have hlen := length_le htrace i j (k * patience n m)
    rw [Nat.succ_mul, Nat.count_add]
    rcases Nat.lt_or_ge k (Nat.count (ServedAt w i j) (k * patience n m)) with hmore | hless
    · omega
    · -- Only `k` have left, so another one is there, and leaves in time.
      obtain ⟨t, ht, hserved⟩ := exists_served hit htrace hsync (i := i) (j := j)
        (T := k * patience n m) (by omega)
      have hone : 0 < Nat.count (fun t => ServedAt w i j (k * patience n m + t))
          (patience n m) := (Nat.zero_le _).trans_lt (Nat.count_strict_mono hserved ht)
      omega

/-- Two inputs with two packets each for output `0`. -/
theorem served_in_time_two :
    ∃ w : ℕ → System (model 2 2 1),
      w 0 = ⟨(IQSwitch.empty 2 2).readInputs (packetsFor 0 (fun _ => 2)),
        init ((IQSwitch.empty 2 2).readInputs (packetsFor 0 (fun _ => 2)))
          (initial (fun _ => 0) (fun _ => 0))⟩ ∧
      2 ≤ Nat.count (ServedAt w 1 0) 16 := by
  obtain ⟨w, h0, -, hw⟩ := @served_in_time 2 2 1 (by decide) (fun _ => 0) (fun _ => 0) (by decide)
    (by decide) _ _ (.afterInit ((IQSwitch.empty 2 2).readInputs (packetsFor 0 (fun _ => 2)))) .refl
    (fun _ _ => [])
  exact ⟨w, h0, hw 1 0 2 (by decide)⟩

end Islip

end SschedSimulator
