import Mathlib.Data.Fin.VecNotation
import SschedSimulator.Scheduler.SbQps.MultiAccept

namespace SschedSimulator

open Foundation

/-!
# `sb_qps.cc` — when the schedulers that accept several times are safe

The counters of availability start at zero, so that nothing is accepted in the first slot of a
batch before one iteration is over, and then only the current frame can be reserved.  In any later
slot the first packet is given several frames.

* `Unused` — the tables of a batch in which nothing is reserved yet;
* `iteration_of_nothing`, `iteration_first` — the iterations that are safe, and
  `not_oneFramePerProposal` — those that are not;
* `safe_of_run` — in runs all of whose slots are `Quiet` no count is negative, and the next slot is
  safe exactly when it is quiet too.  `not_safe_of_run` is the shortest run that is not.
-/

namespace SbQps

variable {n m : ℕ}

namespace MultiAccept

open Availability

variable {B t : ℕ} {sort : DescSort (Fin n)}

/-! ### Slots in which nothing is accepted -/

variable {draws : ℕ → TreeDraws n m} {k : ℕ} {core : Core (Booking n m) n m}

/-- Nothing is accepted where every output is without a proposal or without a frame. -/
theorem acceptAll_eq_start {maxAccepts : ℤ} {outAccepts : Fin m → List (Fin n)}
    (h : ∀ out, outAccepts out = [] ∨ core.tables.outputAvailability out ≤ 0) :
    acceptAll sort maxAccepts t outAccepts core = .ok (start core) := by
  have hstep : ∀ out, acceptOutput sort maxAccepts t outAccepts (start core) out
      = .ok (start core) := by
    intro out
    unfold acceptOutput
    cases hins : outAccepts out with
    | nil => rfl
    | cons i rest =>
      have hnone : ¬ (start core).outputAvailability out > 0 := by
        rcases h out with hnil | hle
        · rw [hins] at hnil
          cases hnil
        · exact not_lt.mpr hle
      dsimp only
      cases (sort.run (fun i => (start core).voqLength i out) (i :: rest)).take
          maxAccepts.toNat with
      | nil => rfl
      | cons j others =>
        unfold acceptLoop
        rw [if_neg hnone]
  unfold acceptAll
  induction List.finRange m with
  | nil => rfl
  | cons out rest ih => rw [List.foldlM_cons, hstep, ok_bind, ih]

variable (B sort) in
/-- Such an iteration only counts the slot for every port. -/
theorem iteration_of_nothing (hexact : core.voq.Exact)
    (hgood : (draws k).Good core.voq.bst core.voq.voqLength)
    (h : ∀ out, accepted (fun _ => maxAccepts B t) (draws k) core.voq out = [] ∨
      core.tables.outputAvailability out ≤ 0) :
    iteration B sort draws t core k
        = .ok { core with tables := countUnmatched t (fun _ => none) core.tables } ∧
      OneFramePerProposal B sort draws t core k := by
  obtain ⟨outAccepts, hpropose, rfl, -⟩ :=
    (proposeAll_post (fun _ => maxAccepts B t) (draws k) core.voq).exists_ok
      (fun _ _ he => he.2 hgood)
  have haccept : accept B sort (draws k) t core = .ok (start core) := by
    rw [accept, hpropose, ok_bind, acceptAll_eq_start h]
  have hiter : iteration B sort draws t core k
      = .ok { core with tables := countUnmatched t (fun _ => none) core.tables } := by
    rw [iteration, haccept, ok_bind]
    rfl
  refine ⟨hiter, start core, _, haccept, hiter, List.nodup_nil, fun i o => ?_,
    fun i o => hexact.nonneg i o, fun i node => nonneg_of_mirrors (hexact i) node⟩
  simpa [start] using hexact.nonneg i o

/-! ### The first slot of a batch -/

/-- In the first slot the loop over the frames reserves the current one or none. -/
theorem reserveFrames_first (out : Fin m) (i : Fin n) {acc : MultiAccepting n m}
    (h : acc.toReservations.Covers 1) :
    ∃ acc', reserveFrames 0 out i (acc.inputMatchBitmap i ||| acc.outputMatchBitmap out)
        (earlierFrames 1) acc = .ok acc' ∧ acc'.toReservations.Covers 1 ∧
      ∃ gs, gs.Sublist [(i, out)] ∧
        acc'.virtualDepartures = acc.virtualDepartures ++ gs ∧
        ∀ i' o', acc'.voqLength i' o' = acc.voqLength i' o' - gs.count (i', o') := by
  have hframes : earlierFrames 1 = [0] := rfl
  rw [hframes]
  unfold reserveFrames testBit
  rw [require_pos (by decide : 0 < bitmapWidth), ok_bind, ok_bind, Bitset.test_or]
  -- In the first slot there is one frame, and it is taken already or reserved now.
  cases hused : (acc.inputMatchBitmap i).test 0 || (acc.outputMatchBitmap out).test 0 with
  | true => exact ⟨acc, rfl, h, [], List.nil_sublist _, by simp, fun _ _ => by simp⟩
  | false =>
    have hcell : acc.schedules 0 i = none :=
      h.cell_eq_none Nat.one_pos (Bool.or_eq_false_iff.mp hused).1
    rw [if_neg Bool.false_ne_true]
    unfold reserveFrame reserveFrames
    rw [Booking.reserve_eq_ok _ (by decide : 0 < bitmapWidth) hcell, ok_bind, ok_bind]
    refine ⟨_, rfl, h.book Nat.one_pos (by decide) i out, [(i, out)], List.Sublist.refl _, rfl,
      fun i' o' => ?_⟩
    show update₂ acc.voqLength i out (acc.voqLength i out + -1) i' o' = _
    rw [update₂_add, List.count_singleton]
    by_cases hp : (i, out) = (i', o')
    · rw [if_pos hp, if_pos (beq_iff_eq.mpr hp)]
      rfl
    · rw [if_neg hp, if_neg (by simpa using hp)]
      simp

/-- In the first slot the accept phase grants distinct pairs, takes one packet for each and never
    one that is not there. -/
structure Granting (acc acc' : MultiAccepting n m) (gs : List (Fin n × Fin m)) : Prop where
  covers : acc'.toReservations.Covers 1
  departures : acc'.virtualDepartures = acc.virtualDepartures ++ gs
  voqLength : ∀ i o, acc'.voqLength i o = acc.voqLength i o - gs.count (i, o)
  nonneg : ∀ i o, 0 ≤ acc'.voqLength i o

theorem Granting.refl {acc : MultiAccepting n m} (h : acc.toReservations.Covers 1)
    (h0 : ∀ i o, 0 ≤ acc.voqLength i o) : Granting acc acc [] :=
  ⟨h, (List.append_nil _).symm, fun _ _ => by simp, h0⟩

theorem Granting.trans {acc acc' acc'' : MultiAccepting n m} {gs gs' : List (Fin n × Fin m)}
    (h : Granting acc acc' gs) (h' : Granting acc' acc'' gs') : Granting acc acc'' (gs ++ gs') where
  covers := h'.covers
  departures := by rw [h'.departures, h.departures, List.append_assoc]
  voqLength := by
    intro i o
    rw [h'.voqLength, h.voqLength, List.count_append]
    push_cast
    omega
  nonneg := h'.nonneg

/-- One output in the first slot. -/
theorem acceptLoop_first (out : Fin m) (ins : List (Fin n)) {acc : MultiAccepting n m}
    (h : acc.toReservations.Covers 1) (h0 : ∀ i o, 0 ≤ acc.voqLength i o) :
    ∃ acc', acceptLoop 0 out ins acc = .ok acc' ∧
      ∃ gs, gs.Sublist (ins.map (·, out)) ∧ Granting acc acc' gs := by
  induction ins generalizing acc with
  | nil => exact ⟨acc, rfl, [], List.nil_sublist _, Granting.refl h h0⟩
  | cons i rest ih =>
    unfold acceptLoop
    split
    · split
      · -- No frame for the input, or no packet: the proposal is passed over.
        obtain ⟨acc', hrun, gs, hsub, hgs⟩ := ih h h0
        exact ⟨acc', hrun, gs, hsub.cons _, hgs⟩
      · rename_i hskip
        rw [not_or] at hskip
        obtain ⟨acc₁, hrun₁, hcov₁, gs₁, hsub₁, hdep₁, hlen₁⟩ := reserveFrames_first out i h
        have hone : Granting acc acc₁ gs₁ := by
          refine ⟨hcov₁, hdep₁, hlen₁, fun i' o' => ?_⟩
          rw [hlen₁]
          -- A packet is taken only from the VOQ that was just found not to be empty.
          have hle := hsub₁.count_le (i', o')
          have hge := h0 i' o'
          by_cases hp : (i, out) = (i', o')
          · obtain ⟨rfl, rfl⟩ := Prod.mk.inj hp
            have hne := hskip.2
            rw [List.count_singleton_self] at hle
            omega
          · rw [List.count_singleton, if_neg (by simpa using hp)] at hle
            omega
        obtain ⟨acc₂, hrun₂, gs₂, hsub₂, hgs₂⟩ := ih hone.covers hone.nonneg
        refine ⟨acc₂, by rw [hrun₁, ok_bind, hrun₂], gs₁ ++ gs₂, ?_, hone.trans hgs₂⟩
        exact hsub₁.append hsub₂
    · exact ⟨acc, rfl, [], List.nil_sublist _, Granting.refl h h0⟩

variable (sort) in
/-- All outputs in the first slot: no pair is granted twice. -/
theorem acceptOutputs_first (maxAccepts : ℤ) {outAccepts : Fin m → List (Fin n)}
    (hnodup : ∀ o, (outAccepts o).Nodup) (outs : List (Fin m)) (houts : outs.Nodup)
    {acc : MultiAccepting n m} (h : acc.toReservations.Covers 1)
    (h0 : ∀ i o, 0 ≤ acc.voqLength i o) :
    ∃ acc', outs.foldlM (acceptOutput sort maxAccepts 0 outAccepts) acc = .ok acc' ∧
      ∃ gs, gs.Nodup ∧ (∀ p ∈ gs, p.2 ∈ outs) ∧ Granting acc acc' gs := by
  induction outs generalizing acc with
  | nil =>
    exact ⟨acc, rfl, [], List.nodup_nil, fun _ hp => absurd hp List.not_mem_nil,
      Granting.refl h h0⟩
  | cons out rest ih =>
    obtain ⟨hout, hrest⟩ := List.nodup_cons.mp houts
    have hone : ∃ acc₁, acceptOutput sort maxAccepts 0 outAccepts acc out = .ok acc₁ ∧
        ∃ gs, gs.Nodup ∧ (∀ p ∈ gs, p.2 = out) ∧ Granting acc acc₁ gs := by
      unfold acceptOutput
      cases hins : outAccepts out with
      | nil =>
        exact ⟨acc, rfl, [], List.nodup_nil, fun _ hp => absurd hp List.not_mem_nil,
          Granting.refl h h0⟩
      | cons i others =>
        obtain ⟨acc₁, hrun, gs, hsub, hgs⟩ := acceptLoop_first out
          ((sort.run (fun i => acc.voqLength i out) (i :: others)).take maxAccepts.toNat) h h0
        have hsorted : ((sort.run (fun i => acc.voqLength i out) (i :: others)).take
            maxAccepts.toNat).Nodup := by
          refine (sort.nodup ?_).sublist (List.take_sublist _ _)
          rw [← hins]
          exact hnodup out
        refine ⟨acc₁, hrun, gs, ?_, fun p hp => ?_, hgs⟩
        · exact (hsorted.map (fun a b hab => congrArg Prod.fst hab)).sublist hsub
        · obtain ⟨j, -, rfl⟩ := List.mem_map.mp (hsub.subset hp)
          rfl
    obtain ⟨acc₁, hrun₁, gs₁, hnodup₁, hmem₁, hgs₁⟩ := hone
    obtain ⟨acc₂, hrun₂, gs₂, hnodup₂, hmem₂, hgs₂⟩ := ih hrest hgs₁.covers hgs₁.nonneg
    refine ⟨acc₂, by rw [List.foldlM_cons, hrun₁, ok_bind, hrun₂], gs₁ ++ gs₂, ?_, ?_,
      hgs₁.trans hgs₂⟩
    · refine List.nodup_append.mpr ⟨hnodup₁, hnodup₂, fun p hp q hq hpq => ?_⟩
      subst hpq
      exact hout (hmem₁ p hp ▸ hmem₂ p hq)
    · -- The pairs of `out` and those of later outputs differ in the output.
      intro p hp
      rcases List.mem_append.mp hp with hp | hp
      · rw [hmem₁ p hp]
        exact List.mem_cons_self ..
      · exact List.mem_cons_of_mem _ (hmem₂ p hp)

variable (B sort) in
/-- Every iteration of the first slot of a batch is safe. -/
theorem iteration_first (hcovers : core.tables.toReservations.Covers 1)
    (hexact : core.voq.Exact) (hgood : (draws k).Good core.voq.bst core.voq.voqLength) :
    ∃ core', iteration B sort draws 0 core k = .ok core' ∧
      core'.tables.toReservations.Covers 1 ∧ core'.voq.Exact ∧
      OneFramePerProposal B sort draws 0 core k := by
  obtain ⟨outAccepts, hpropose, rfl, -⟩ :=
    (proposeAll_post (fun _ => maxAccepts B 0) (draws k) core.voq).exists_ok
      (fun _ _ he => he.2 hgood)
  obtain ⟨acc, hall, gs, hnodup, -, hgs⟩ := acceptOutputs_first sort (maxAccepts B 0)
    (nodup_accepted (fun _ => maxAccepts B 0) (draws k) core.voq) (List.finRange m)
    (List.nodup_finRange m) (show (start core).toReservations.Covers 1 from hcovers)
    (fun i o => hexact.nonneg i o)
  have haccept : accept B sort (draws k) 0 core = .ok acc := by
    rw [accept, hpropose, ok_bind, acceptAll, hall]
  have hdep : acc.virtualDepartures = gs := hgs.departures
  obtain ⟨bst, hdepart, hmir⟩ := handlePacketDepartures_eq_ok hexact hgs.nonneg
    (fun i o => hgs.voqLength i o)
  have hiter : iteration B sort draws 0 core k
      = .ok ⟨countUnmatched 0 acc.outMatch acc.toBooking, ⟨bst, acc.voqLength⟩⟩ := by
    rw [iteration, haccept, ok_bind, hdep, hdepart, ok_bind]
  refine ⟨_, hiter, hgs.covers, hmir, acc, _, haccept, hiter, by rwa [hdep], fun i o => ?_,
    hgs.nonneg, fun i node => nonneg_of_mirrors (hmir i) node⟩
  have hlen : acc.voqLength i o = core.voq.voqLength i o - gs.count (i, o) := hgs.voqLength i o
  have hge := hgs.nonneg i o
  rw [hdep]
  omega

/-! ### Slots and runs -/

/-- Fewer frames are counted as well. -/
theorem Unused.mono {a k : ℕ} {b : Booking n m} (h : Unused a b) (hpos : 0 < k) (hk : k ≤ a) :
    Unused k b where
  inFlag := h.inFlag
  outFlag := h.outFlag
  inputAvailable := fun i => le_trans (by exact_mod_cast hk) (h.inputAvailable i)
  outputAvailable := fun o => le_trans (by exact_mod_cast hk) (h.outputAvailable o)
  notYet := fun hzero => absurd hzero (by omega)

/-- An iteration that accepts nothing counts one more frame. -/
theorem Unused.countUnmatched {a : ℕ} {b : Booking n m} (h : Unused a b)
    (hcovers : b.toReservations.Covers (t + 1)) :
    Unused (a + 1) (countUnmatched t (fun _ => none) b) where
  inFlag := h.inFlag
  outFlag := h.outFlag
  inputAvailable := by
    intro i
    have hcell : b.schedules t i = none := hcovers.cell_eq_none (Nat.lt_succ_self t) (h.inFlag i t)
    have hav := h.inputAvailable i
    show _ ≤ if b.schedules t i = none then b.inputAvailability i + 1 else b.inputAvailability i
    rw [if_pos hcell]
    push_cast
    omega
  outputAvailable := by
    intro o
    have hav := h.outputAvailable o
    show ((a + 1 : ℕ) : ℤ) ≤ b.outputAvailability o + 1
    push_cast
    omega
  notYet := fun hzero => absurd hzero (Nat.succ_ne_zero a)

/-- The bits cover the rows rewritten, and until the end of the batch none is set. -/
def Waiting (B k rows : ℕ) (b : Booking n m) : Prop :=
  b.toReservations.Covers rows ∧ (k < B → Unused k b)

theorem batchInvariant_waiting (B : ℕ) :
    BatchInvariant B (fun k (b : Booking n m) => Waiting B k k b)
      (fun t b => Waiting B t (t + 1) b) where
  clearRow := fun _ _ h => ⟨Reservations.Covers.clearRow h.1, fun hk =>
    ⟨(h.2 hk).inFlag, (h.2 hk).outFlag, (h.2 hk).inputAvailable, (h.2 hk).outputAvailable,
      (h.2 hk).notYet⟩⟩
  resetBitmap := fun b _ => ⟨(Reservations.tracks_resetBitmap b.toReservations).toCovers, fun _ =>
    ⟨b.toReservations.resetBitmap_inFlag, b.toReservations.resetBitmap_outFlag,
      fun _ => le_refl _, fun _ => le_refl _, fun _ _ => rfl⟩⟩

variable {maxIters : ℕ → ℕ → ℕ}

/-- A slot without packets accepts nothing, however often it iterates. -/
theorem qps_of_no_packets (hiters : 1 ≤ maxIters B t) (hvalid : ∀ k, (draws k).Valid)
    (hcovers : core.tables.toReservations.Covers (t + 1)) (hunused : Unused t core.tables)
    (hexact : core.voq.Exact) (hnone : ∀ i o, core.voq.voqLength i o = 0) :
    SlotSafe maxIters B sort draws t core ∧ Post (qps maxIters B sort draws t core)
      (fun _ => False)
      (fun core' => Sound (fun k (b : Booking n m) => Waiting B k k b) (t + 1) core') := by
  have hlen : ∀ i, core.voq.getQueueLengthForInput i = 0 :=
    fun i => (hexact.getQueueLengthForInput_eq_zero i).mpr (hnone i)
  -- An iteration in which the queues are still as they were only counts the slot.
  have hstep : ∀ (core' : Core (Booking n m) n m) (k a : ℕ), core'.voq = core.voq →
      core'.tables.toReservations.Covers (t + 1) → Unused a core'.tables →
      OneFramePerProposal B sort draws t core' k ∧ Post (iteration B sort draws t core' k)
        (fun _ => False) (fun core'' => core''.voq = core.voq ∧
          core''.tables.toReservations.Covers (t + 1) ∧ Unused (a + 1) core''.tables) := by
    intro core' k a hvoq hcov hun
    have hexact' : core'.voq.Exact := hvoq ▸ hexact
    obtain ⟨hiter, hsafe⟩ := iteration_of_nothing B sort hexact'
      ((hvalid k).good hexact') (fun out => .inl (accepted_eq_nil (by rw [hvoq]; exact hlen) out))
    refine ⟨hsafe, ?_⟩
    rw [hiter]
    exact ⟨hvoq, hcov, hun.countUnmatched hcov⟩
  constructor
  · -- Every step of the loop is safe.
    refine StepsMeet.of_invariant (fun core' : Core (Booking n m) n m => core'.voq = core.voq ∧
      core'.tables.toReservations.Covers (t + 1) ∧ ∃ a, Unused a core'.tables)
      ⟨rfl, hcovers, t, hunused⟩ ?_
    rintro core' k ⟨hvoq, hcov, a, hun⟩
    obtain ⟨hsafe, hpost⟩ := hstep core' k a hvoq hcov hun
    exact ⟨hsafe, hpost.mono (fun _ he => he.elim) (fun _ hc => ⟨hc.1, hc.2.1, a + 1, hc.2.2⟩)⟩
  · -- After the first iteration at least `t + 1` frames are counted.
    have hloop := Post.foldlM_rest (E := fun _ => False) (f := iteration B sort draws t)
      (fun rest (core' : Core (Booking n m) n m) => core'.voq = core.voq ∧
        core'.tables.toReservations.Covers (t + 1) ∧
        ∃ a, Unused a core'.tables ∧ t ≤ a ∧ (rest.length < maxIters B t → t + 1 ≤ a))
      (List.range (maxIters B t)) core
      ⟨rfl, hcovers, t, hunused, le_refl t, fun hlt => absurd hlt (by simp)⟩ ?_
    · refine hloop.imp ?_
      rintro core' ⟨hvoq, hcov, a, hun, -, ha⟩
      exact ⟨⟨hcov, fun _ => hun.mono (Nat.succ_pos t) (ha hiters)⟩, hvoq ▸ hexact⟩
    · rintro k rest core' ⟨hvoq, hcov, a, hun, hta, -⟩
      refine (hstep core' k a hvoq hcov hun).2.imp ?_
      rintro core'' ⟨hvoq', hcov', hun'⟩
      exact ⟨hvoq', hcov', a + 1, hun', by omega, fun _ => by omega⟩

/-- The first slot of a batch is safe; unless it is the last one as well, it accepts nothing. -/
theorem qps_first (hfirst : 2 ≤ B → maxIters B 0 = 1) (hB1 : 1 ≤ B) (hvalid : ∀ k, (draws k).Valid)
    (hcovers : core.tables.toReservations.Covers 1) (hunused : Unused 0 core.tables)
    (hexact : core.voq.Exact) :
    SlotSafe maxIters B sort draws 0 core ∧ Post (qps maxIters B sort draws 0 core)
      (fun _ => False)
      (fun core' => Sound (fun k (b : Booking n m) => Waiting B k k b) 1 core') := by
  have hstep : ∀ (core' : Core (Booking n m) n m) (k : ℕ),
      core'.tables.toReservations.Covers 1 ∧ core'.voq.Exact →
      OneFramePerProposal B sort draws 0 core' k ∧ Post (iteration B sort draws 0 core' k)
        (fun _ => False) (fun core'' => core''.tables.toReservations.Covers 1 ∧
          core''.voq.Exact) := by
    rintro core' k ⟨hcov, hexact'⟩
    obtain ⟨core'', hiter, hcov', hexact'', hsafe⟩ := iteration_first B sort hcov hexact'
      ((hvalid k).good hexact')
    rw [hiter]
    exact ⟨hsafe, hcov', hexact''⟩
  constructor
  · refine StepsMeet.of_invariant (fun core' : Core (Booking n m) n m =>
      core'.tables.toReservations.Covers 1 ∧ core'.voq.Exact) ⟨hcovers, hexact⟩ ?_
    intro core' k h
    exact ⟨(hstep core' k h).1, (hstep core' k h).2.mono (fun _ he => he.elim) (fun _ hc => hc)⟩
  · rcases Nat.lt_or_ge 1 B with hB | hB
    · -- No frame is counted yet, so the only iteration accepts nothing.
      obtain ⟨hiter, -⟩ := iteration_of_nothing (t := 0) (k := 0) B sort hexact
        ((hvalid 0).good hexact) (fun out => .inr (hunused.notYet rfl out).le)
      rw [qps, hfirst hB, List.range_one, List.foldlM_cons, hiter]
      exact ⟨⟨hcovers, fun _ => hunused.countUnmatched hcovers⟩, hexact⟩
    · refine (Post.foldlM (I := fun core' : Core (Booking n m) n m =>
        core'.tables.toReservations.Covers 1 ∧ core'.voq.Exact) ⟨hcovers, hexact⟩
        (fun k _ core' h => (hstep core' k h).2)).imp ?_
      rintro core' ⟨hcov, hexact'⟩
      exact ⟨⟨hcov, fun hlt => absurd hlt (by omega)⟩, hexact'⟩

theorem maxAccepts_pos (B t : ℕ) : 0 < maxAccepts B t := by
  unfold maxAccepts
  split <;> decide

/-- After the first slot of a batch in which nothing is reserved, the first iteration with a packet
    gives all frames up to the current one to one pair. -/
theorem accept_books (hpos : 0 < t) {draws : TreeDraws n m}
    (hgood : draws.Good core.voq.bst core.voq.voqLength) (hunused : Unused t core.tables)
    (hexact : core.voq.Exact) (hpacket : ¬ ∀ i o, core.voq.voqLength i o = 0) :
    Post (accept B sort draws t core) (fun _ => True)
      (fun acc => ∃ out i, ∀ f ≤ t, Booked t out i f acc) := by
  obtain ⟨out, hprop⟩ := exists_proposer hgood hexact hpacket
  have hne : accepted (fun _ => maxAccepts B t) draws core.voq out ≠ [] := accepted_ne_nil hprop
  refine ((proposeAll_post (fun _ => maxAccepts B t) draws core.voq).mono
    (fun _ _ => trivial) (fun _ hacc => hacc)).bind ?_
  rintro outAccepts ⟨rfl, hlen⟩
  refine acceptOutputs_of_first (fun out hout => ?_) (fun out' acc' h' => ?_)
    ⟨out, List.mem_finRange out, hne⟩
  · exact (acceptOutput_books hpos (maxAccepts_pos B t)
      (show Unused t (start core).toBooking from hunused) hout
      (fun i hi => (hlen out i hi).ne')).imp (fun acc h => ⟨out, h⟩)
  · obtain ⟨o, i, ho⟩ := h'
    have hkept : KeptByReserve t (fun acc : MultiAccepting n m => ∀ f ≤ t, Booked t o i f acc) :=
      fun _ _ _ _ _ hall _ _ _ hstep f hf => (hall f hf).reserveFrame hstep
    exact (hkept.acceptOutput _ _ out' ho).imp (fun acc h => ⟨o, i, h⟩)

/-- After the first slot of a batch, the first iteration with a packet is not safe. -/
theorem not_oneFramePerProposal (hpos : 0 < t) (hgood : (draws k).Good core.voq.bst
      core.voq.voqLength) (hunused : Unused t core.tables) (hexact : core.voq.Exact)
    (hpacket : ¬ ∀ i o, core.voq.voqLength i o = 0) :
    ¬ OneFramePerProposal B sort draws t core k := by
  obtain ⟨out, hprop⟩ := exists_proposer hgood hexact hpacket
  have hne : accepted (fun _ => maxAccepts B t) (draws k) core.voq out ≠ [] := accepted_ne_nil hprop
  obtain ⟨outAccepts, hpropose, rfl, hposlen⟩ :=
    (proposeAll_post (fun _ => maxAccepts B t) (draws k) core.voq).exists_ok
      (fun _ _ he => he.2 hgood)
  rintro ⟨acc, core', haccept, -, hnodup, -⟩
  rw [accept, hpropose, ok_bind] at haccept
  refine (acceptOutputs_not_nodup hpos (maxAccepts_pos B t)
    (show Unused t (start core).toBooking from hunused) (fun o j hj => (hposlen o j hj).ne')
    ⟨out, List.mem_finRange out, hne⟩).of_ok haccept hnodup

/-- The first iteration of a safe slot is safe. -/
theorem SlotSafe.head (h : SlotSafe maxIters B sort draws t core) (hiters : 1 ≤ maxIters B t) :
    OneFramePerProposal B sort draws t core 0 := by
  obtain ⟨j, hj⟩ := Nat.exists_eq_add_of_le' hiters
  unfold SlotSafe at h
  rw [hj, List.range_succ_eq_map] at h
  exact h.1

/-- In a run of quiet slots with samples of positive count no count is negative, and the next slot
    is safe exactly when it is quiet as well. -/
theorem safe_iff_quiet (hiters : ∀ t, 1 ≤ maxIters B t) (hfirst : 2 ≤ B → maxIters B 0 = 1)
    (hB1 : 1 ≤ B) {sw : IQSwitch n m} {sys : System (model maxIters n m B sort)}
    (hrun : RunWhere (model maxIters n m B sort)
      (fun draws sw st => (∀ k, (draws k).Valid) ∧ Quiet B sw st) ⟨sw, initial⟩ sys) :
    sys.scheduler.voq.Exact ∧ ∀ sw' : IQSwitch n m, ∃ core,
      enterSlot B sw' sys.scheduler = .ok core ∧ ∀ draws : ℕ → TreeDraws n m,
        (∀ k, (draws k).Valid) →
        (SlotSafe maxIters B sort draws (sys.scheduler.cfRelTime % B) core ↔
          Quiet B sw' sys.scheduler) := by
  -- A quiet slot keeps the tables waiting.
  have hquiet : ∀ (draws : ℕ → TreeDraws n m) t core, t < B →
      Sound (fun t (b : Booking n m) => Waiting B t (t + 1) b) t core →
      (∀ k, (draws k).Valid) ∧ (t = 0 ∨ ∀ i o, core.voq.voqLength i o = 0) →
      SlotSafe maxIters B sort draws t core ∧ Post (qps maxIters B sort draws t core)
        (fun _ => False)
        (fun core' => Sound (fun k (b : Booking n m) => Waiting B k k b) (t + 1) core') := by
    rintro draws t core ht ⟨⟨hcovers, hunused⟩, hexact⟩ ⟨hvalid, rfl | hnone⟩
    · exact qps_first hfirst hB1 hvalid hcovers (hunused ht) hexact
    · exact qps_of_no_packets (hiters t) hvalid hcovers (hunused ht) hexact hnone
  have hsound := sound_of_run (C := fun draws t core => (∀ k, (draws k).Valid) ∧
      (t = 0 ∨ ∀ i o, core.voq.voqLength i o = 0)) (batchInvariant_waiting B) hB1
    (fun draws sw st core hCs _ hentered => ⟨hCs.1, hCs.2.imp id (fun hnone i o => by
      rw [hentered.voqLength, hnone])⟩)
    (fun draws t core ht hcore _ hC =>
      (hquiet draws t core ht hcore hC).2.mono (fun _ _ => trivial) (fun _ hc => hc))
    hrun ⟨⟨(Reservations.tracks_empty _).toCovers, fun _ => by
      rw [show (initial : State n m).cfRelTime % B = 0 from Nat.zero_mod B]
      exact ⟨Reservations.empty_inFlag, Reservations.empty_outFlag, fun _ => le_refl _,
        fun _ => le_refl _, fun _ _ => rfl⟩⟩, VoqState.exact_empty⟩
  refine ⟨hsound.voq, fun sw' => ?_⟩
  obtain ⟨core, hcore, hK, hentered⟩ := enterSlot_eq_ok (batchInvariant_waiting B) sw' hsound
  have ht : sys.scheduler.cfRelTime % B < B := Nat.mod_lt _ (by omega)
  have hcond : Quiet B sw' sys.scheduler ↔
      sys.scheduler.cfRelTime % B = 0 ∨ ∀ i o, core.voq.voqLength i o = 0 :=
    or_congr_right (forall₂_congr (fun i o => by rw [hentered.voqLength]))
  refine ⟨core, hcore, fun draws hvalid => ?_⟩
  rw [hcond]
  constructor
  · intro hsafe
    by_contra hnot
    rw [not_or] at hnot
    exact not_oneFramePerProposal (Nat.pos_of_ne_zero hnot.1) ((hvalid 0).good hK.voq)
      (hK.tables.2 ht) hK.voq hnot.2 (hsafe.head (hiters _))
  · exact fun hC => (hquiet draws _ core ht hK ⟨hvalid, hC⟩).1

/-- In every run of either scheduler whose slots are all quiet, with samples of positive count: no
    VOQ length and no node of a tree is negative; and whatever arrives next, the slot reserves one
    frame for each proposal it accepts, and none without a packet, exactly when it is quiet. -/
theorem safe_of_run (hB1 : 1 ≤ B) (sw : IQSwitch n m) :
    (∀ sys : System (HalfHalfMA.model n m B sort),
      RunWhere (HalfHalfMA.model n m B sort)
        (fun draws sw st => (∀ k, (draws k).Valid) ∧ Quiet B sw st) ⟨sw, initial⟩ sys →
      (∀ i o, 0 ≤ sys.scheduler.voq.voqLength i o) ∧
      (∀ i node, 0 ≤ sys.scheduler.voq.bst i node) ∧
      ∀ channels, ∃ core,
        enterSlot B (sys.switch.readInputs channels) sys.scheduler = .ok core ∧
        ∀ draws : ℕ → TreeDraws n m, (∀ k, (draws k).Valid) →
          (SlotSafe HalfHalfMA.maxIters B sort draws (sys.scheduler.cfRelTime % B) core ↔
            Quiet B (sys.switch.readInputs channels) sys.scheduler)) ∧
    ∀ sys : System (HalfHalfMAMI.model n m B sort),
      RunWhere (HalfHalfMAMI.model n m B sort)
        (fun draws sw st => (∀ k, (draws k).Valid) ∧ Quiet B sw st) ⟨sw, initial⟩ sys →
      (∀ i o, 0 ≤ sys.scheduler.voq.voqLength i o) ∧
      (∀ i node, 0 ≤ sys.scheduler.voq.bst i node) ∧
      ∀ channels, ∃ core,
        enterSlot B (sys.switch.readInputs channels) sys.scheduler = .ok core ∧
        ∀ draws : ℕ → TreeDraws n m, (∀ k, (draws k).Valid) →
          (SlotSafe HalfHalfMAMI.maxIters B sort draws (sys.scheduler.cfRelTime % B) core ↔
            Quiet B (sys.switch.readInputs channels) sys.scheduler) := by
  constructor
  · intro sys hrun
    obtain ⟨hexact, hnext⟩ := safe_iff_quiet (fun _ => le_refl 1) (fun _ => rfl) hB1 hrun
    exact ⟨hexact.nonneg, fun i => nonneg_of_mirrors (hexact i),
      fun channels => hnext (sys.switch.readInputs channels)⟩
  · intro sys hrun
    have hiters : ∀ t, 1 ≤ HalfHalfMAMI.maxIters B t := by
      intro t
      unfold HalfHalfMAMI.maxIters
      split <;> decide
    -- the first slot of a longer batch is in its first half
    have hfirst : 2 ≤ B → HalfHalfMAMI.maxIters B 0 = 1 := fun hB => if_neg (by omega)
    obtain ⟨hexact, hnext⟩ := safe_iff_quiet hiters hfirst hB1 hrun
    exact ⟨hexact.nonneg, fun i => nonneg_of_mirrors (hexact i),
      fun channels => hnext (sys.switch.readInputs channels)⟩

/-- With `B = 1` every slot is the first of its batch; a packet that arrives in the second slot gets
    one frame, in the second iteration. -/
theorem safe_after_slot :
    ∃ sys core, switching (HalfHalfMAMI.model 2 2 1 DescSort.insertion)
        (fun _ => inOrderDraws 2 2 (1 / 2)) (fun _ => []) ⟨IQSwitch.empty 2 2, initial⟩ = .ok sys ∧
      enterSlot 1 (sys.switch.readInputs (packetsFor 0 ![1, 0])) sys.scheduler = .ok core ∧
      SlotSafe HalfHalfMAMI.maxIters 1 DescSort.insertion (fun _ => inOrderDraws 2 2 (1 / 2))
        (sys.scheduler.cfRelTime % 1) core := by
  have hvalid : ∀ k : ℕ, ((fun _ => inOrderDraws 2 2 (1 / 2)) k).Valid :=
    fun _ => valid_inOrderDraws 2 2 (by norm_num) (by norm_num)
  obtain ⟨sys, hok, hquiet⟩ := exists_of_returns
    (x := switching (HalfHalfMAMI.model 2 2 1 DescSort.insertion)
      (fun _ => inOrderDraws 2 2 (1 / 2)) (fun _ => []) ⟨IQSwitch.empty 2 2, initial⟩)
    (p := fun sys => decide (Quiet 1 (sys.switch.readInputs (packetsFor 0 ![1, 0])) sys.scheduler))
    (by decide +kernel)
  have hrun : RunWhere (HalfHalfMAMI.model 2 2 1 DescSort.insertion)
      (fun draws sw st => (∀ k, (draws k).Valid) ∧ Quiet 1 sw st)
      ⟨IQSwitch.empty 2 2, initial⟩ sys :=
    RunWhere.step _ _ .refl ⟨hvalid, .inl rfl⟩ hok
  obtain ⟨-, -, hnext⟩ := (safe_of_run (le_refl 1) (IQSwitch.empty 2 2)).2 sys hrun
  obtain ⟨core, hcore, hiff⟩ := hnext (packetsFor 0 ![1, 0])
  exact ⟨sys, core, hok, hcore, (hiff _ hvalid).mpr (of_decide_eq_true hquiet)⟩

/-- With `B = 2`, an idle slot and then some arrivals, up to Step 2 of the first iteration. -/
def acceptAfterIdle (maxIters : ℕ → ℕ → ℕ) (channels : Fin 2 → List (Packet 2 2)) :
    Except Fault (System (model maxIters 2 2 2 DescSort.insertion) × Core (Booking 2 2) 2 2 ×
      MultiAccepting 2 2) := do
  let sys ← switching (model maxIters 2 2 2 DescSort.insertion)
    (fun _ => inOrderDraws 2 2 (1 / 2)) (fun _ => []) ⟨IQSwitch.empty 2 2, initial⟩
  let core ← enterSlot 2 (sys.switch.readInputs channels) sys.scheduler
  let acc ← accept 2 DescSort.insertion (inOrderDraws 2 2 (1 / 2)) (sys.scheduler.cfRelTime % 2)
    core
  .ok (sys, core, acc)

/-- A packet that arrives in the second slot gets both frames.  Its second departure takes the
    leaf of its tree below zero, and the assertion there fails. -/
theorem not_safe_of_run :
    (∃ sys core acc, Run (HalfHalfMA.model 2 2 2 DescSort.insertion)
        ⟨IQSwitch.empty 2 2, initial⟩ sys ∧
      acceptAfterIdle HalfHalfMA.maxIters (packetsFor 0 ![1, 0]) = .ok (sys, core, acc) ∧
      (core.voq.voqLength 0 0 = 1 ∧ acc.virtualDepartures = [(0, 0), (0, 0)] ∧
        acc.voqLength 0 0 = -1) ∧
      ¬ SlotSafe HalfHalfMA.maxIters 2 DescSort.insertion (fun _ => inOrderDraws 2 2 (1 / 2))
        (sys.scheduler.cfRelTime % 2) core) ∧
    ∃ sys core acc, Run (HalfHalfMAMI.model 2 2 2 DescSort.insertion)
        ⟨IQSwitch.empty 2 2, initial⟩ sys ∧
      acceptAfterIdle HalfHalfMAMI.maxIters (packetsFor 0 ![1, 0]) = .ok (sys, core, acc) ∧
      (core.voq.voqLength 0 0 = 1 ∧ acc.virtualDepartures = [(0, 0), (0, 0)] ∧
        acc.voqLength 0 0 = -1) ∧
      ¬ SlotSafe HalfHalfMAMI.maxIters 2 DescSort.insertion (fun _ => inOrderDraws 2 2 (1 / 2))
        (sys.scheduler.cfRelTime % 2) core := by
  -- The first iteration of a safe slot returns.
  have hfault : ∀ maxIters : ℕ → ℕ → ℕ, 1 ≤ maxIters 2 1 →
      returns (acceptAfterIdle maxIters (packetsFor 0 ![1, 0])) (fun x =>
        decide (x.1.scheduler.cfRelTime % 2 = 1 ∧ x.2.1.voq.voqLength 0 0 = 1 ∧
        x.2.2.virtualDepartures = [(0, 0), (0, 0)] ∧
        x.2.2.voqLength 0 0 = -1) && !returns (iteration 2 DescSort.insertion
          (fun _ => inOrderDraws 2 2 (1 / 2)) 1 x.2.1 0) (fun _ => true)) = true →
      ∃ sys core acc, Run (model maxIters 2 2 2 DescSort.insertion)
          ⟨IQSwitch.empty 2 2, initial⟩ sys ∧
        acceptAfterIdle maxIters (packetsFor 0 ![1, 0]) = .ok (sys, core, acc) ∧
        (core.voq.voqLength 0 0 = 1 ∧ acc.virtualDepartures = [(0, 0), (0, 0)] ∧
          acc.voqLength 0 0 = -1) ∧
        ¬ SlotSafe maxIters 2 DescSort.insertion (fun _ => inOrderDraws 2 2 (1 / 2))
          (sys.scheduler.cfRelTime % 2) core := by
    intro maxIters hiters h
    obtain ⟨⟨sys, core, acc⟩, hok, hcond⟩ := exists_of_returns h
    obtain ⟨hstate, hfails⟩ := Bool.and_eq_true_iff.mp hcond
    obtain ⟨htime, hstate⟩ := of_decide_eq_true hstate
    obtain ⟨sys', hslot, h'⟩ := bind_eq_ok.mp hok
    obtain ⟨core', -, h''⟩ := bind_eq_ok.mp h'
    obtain ⟨acc', -, hlast⟩ := bind_eq_ok.mp h''
    obtain ⟨rfl, -⟩ := Prod.mk.inj (Except.ok.inj hlast)
    refine ⟨sys', core, acc, Run.step _ _ .refl hslot, hok, hstate, ?_⟩
    rw [show sys'.scheduler.cfRelTime % 2 = 1 from htime]
    intro hsafe
    obtain ⟨-, core', -, hiter, -⟩ := hsafe.head hiters
    rw [hiter] at hfails
    cases hfails
  exact ⟨hfault _ (by decide) (by decide +kernel), hfault _ (by decide) (by decide +kernel)⟩

end MultiAccept

end SbQps

end SschedSimulator
