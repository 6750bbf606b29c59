import Mathlib.Data.Rat.Floor
import SschedSimulator.Scheduler.SbQps.Availability

namespace SschedSimulator

open Foundation

/-!
# `sb_qps.cc` — the schedulers `SB_QPS_HalfHalf_AvailabilityAware` and `SB_QPS_Adaptive`

Both run one round with availability counters in each slot.  An output that may accept several
proposals serves the first of them, in the order in which they came, before it sorts them; the
walk then skips the first of the sorted list.

* `grants` — the pairs granted by one call of `qps`, and `granted`, which computes them without the
  loops from the tables, the queues and the proposals;
* `acceptAll_eq_ok` — the accept phase grants exactly these;
* `enterSlot_of_run` — in every reachable state the rows, the bits and the counters agree.
-/

namespace SbQps

variable {n m : ℕ}

namespace AvailabilityAware

open Availability

/-- How many proposals an output may accept, from the batch size, the slot and the tables. -/
abbrev Policy (n m : ℕ) := ℕ → ℕ → Booking n m → Fin m → ℤ

/-- `qps`. -/
def qps (maxAccepts : Policy n m) (B : ℕ) (sort : DescSort (Fin n)) (draws : TreeDraws n m)
    (timeSlot : ℕ) (core : Core (Booking n m) n m) : Except Fault (Core (Booking n m) n m) :=
  Availability.round sort (maxAccepts B timeSlot core.tables) draws timeSlot core

/-- A scheduler of this kind as a switch drives it. -/
abbrev model (maxAccepts : Policy n m) (B : ℕ) (sort : DescSort (Fin n)) : SchedulerModel n m :=
  sbModel (qps maxAccepts B sort) B

end AvailabilityAware

namespace HalfHalfAvailabilityAware

/-- `maxAccepts` of `SB_QPS_HalfHalf_AvailabilityAware`. -/
def maxAccepts : AvailabilityAware.Policy n m :=
  fun B timeSlot _ _ => if (timeSlot + 1) * 2 > B then n else 1

/-- `SB_QPS_HalfHalf_AvailabilityAware` as a switch drives it. -/
abbrev model (n m B : ℕ) (sort : DescSort (Fin n)) : SchedulerModel n m :=
  AvailabilityAware.model maxAccepts B sort

end HalfHalfAvailabilityAware

namespace Adaptive

/-- `std::round`: to the nearest integer, halves away from zero. -/
def roundToNearest (q : ℚ) : ℤ := if 0 ≤ q then ⌊q + 1 / 2⌋ else ⌈q - 1 / 2⌉

/-- `maxAccepts` of `SB_QPS_Adaptive`. -/
def maxAccepts : AvailabilityAware.Policy n m :=
  fun B timeSlot tables out =>
    1 + roundToNearest ((tables.outputAvailability out : ℚ) / (B - timeSlot : ℕ))

/-- `SB_QPS_Adaptive` as a switch drives it. -/
abbrev model (n m B : ℕ) (sort : DescSort (Fin n)) : SchedulerModel n m :=
  AvailabilityAware.model maxAccepts B sort

end Adaptive

namespace AvailabilityAware

open Availability

/-! ### What a call of `qps` grants -/

/-- The virtual departures of one round. -/
def grants (sort : DescSort (Fin n)) (maxAccepts : Fin m → ℤ) (draws : TreeDraws n m)
    (timeSlot : ℕ) (core : Core (Booking n m) n m) : Except Fault (List (Fin n × Fin m)) := do
  let outAccepts ← proposeAll maxAccepts draws core.voq
  let acc ← acceptAll sort core.voq.voqLength maxAccepts timeSlot outAccepts core.tables
  .ok acc.virtualDepartures

/-- The earlier frames at which `out` is free, latest first. -/
def freeEarlier (tables : Booking n m) (timeSlot : ℕ) (out : Fin m) : List ℕ :=
  (earlierFrames timeSlot).filter (fun f => !tables.outFlag out f)

/-- The inputs that get an earlier frame from `out`: first fit over the rest of its proposals. -/
def servedEarlier (sort : DescSort (Fin n)) (voqLength : Fin n → Fin m → ℤ) (maxAccepts : ℤ)
    (tables : Booking n m) (timeSlot : ℕ) (out : Fin m) (ins : List (Fin n)) : List (Fin n) :=
  if maxAccepts > 1 then
    FirstFit.served (fun i f => !tables.inFlag i f) (remaining sort voqLength maxAccepts out ins)
      (freeEarlier tables timeSlot out)
  else []

/-- The inputs that get a frame from an output with the recorded proposals `ins`. -/
def grantedInputs (sort : DescSort (Fin n)) (voqLength : Fin n → Fin m → ℤ) (maxAccepts : ℤ)
    (tables : Booking n m) (timeSlot : ℕ) (out : Fin m) : List (Fin n) → List (Fin n)
  | [] => []
  | i :: rest =>
    i :: servedEarlier sort voqLength maxAccepts tables timeSlot out (i :: rest)

variable {B t : ℕ} {sort : DescSort (Fin n)} {voqLength : Fin n → Fin m → ℤ}

/-- The proposals that may get an earlier slot are among those recorded. -/
theorem remaining_subset (maxAccepts : ℤ) (out : Fin m) (ins : List (Fin n)) :
    remaining sort voqLength maxAccepts out ins ⊆ ins := by
  intro i hi
  exact (sort.perm _ ins).subset (List.mem_of_mem_take (List.mem_of_mem_drop hi))

theorem nodup_remaining {ins : List (Fin n)} (h : ins.Nodup) (maxAccepts : ℤ) (out : Fin m) :
    (remaining sort voqLength maxAccepts out ins).Nodup := by
  have hsorted : (sort.run (fun i => voqLength i out) ins).Nodup :=
    (sort.perm _ ins).nodup_iff.mpr h
  exact hsorted.sublist ((List.drop_sublist 1 _).trans (List.take_sublist _ _))

theorem servedEarlier_sublist (maxAccepts : ℤ) (tables : Booking n m) (out : Fin m)
    (ins : List (Fin n)) :
    (servedEarlier sort voqLength maxAccepts tables t out ins).Sublist
      (remaining sort voqLength maxAccepts out ins) := by
  unfold servedEarlier
  split
  · exact FirstFit.served_sublist _ _ _
  · exact List.nil_sublist _

theorem grantedInputs_subset (maxAccepts : ℤ) (tables : Booking n m) (out : Fin m)
    (ins : List (Fin n)) :
    grantedInputs sort voqLength maxAccepts tables t out ins ⊆ ins := by
  cases ins with
  | nil => exact fun _ h => h
  | cons i rest =>
    intro j hj
    rcases List.mem_cons.mp hj with rfl | hj
    · exact List.mem_cons_self ..
    · exact remaining_subset _ _ _ ((servedEarlier_sublist _ _ _ _).subset hj)

/-- What `out` grants depends only on its own bits and on those of its proposals, at the earlier
    frames. -/
theorem grantedInputs_congr {tables tables' : Booking n m} {out : Fin m} {ins : List (Fin n)}
    (hin : ∀ i ∈ ins, ∀ f < t, tables'.inFlag i f = tables.inFlag i f)
    (hout : ∀ f < t, tables'.outFlag out f = tables.outFlag out f) (maxAccepts : ℤ) :
    grantedInputs sort voqLength maxAccepts tables' t out ins
      = grantedInputs sort voqLength maxAccepts tables t out ins := by
  have hfree : freeEarlier tables' t out = freeEarlier tables t out := by
    apply List.filter_congr
    intro f hf
    rw [hout f (mem_earlierFrames.mp hf)]
  cases ins with
  | nil => rfl
  | cons i rest =>
    show i :: servedEarlier .. = i :: servedEarlier ..
    unfold servedEarlier
    rw [hfree]
    split
    · congr 1
      apply FirstFit.served_congr
      intro j hj f hf
      have hft : f < t := mem_earlierFrames.mp (List.mem_of_mem_filter hf)
      rw [hin j (remaining_subset _ _ _ hj) f hft]
    · rfl

/-! ### The tables during a round -/

/-- Giving the current slot to an unmatched input and an unused output keeps the tables consistent;
    the slot itself is not yet counted. -/
theorem consistent_bookNow (ht : t < bitmapWidth) {b : Booking n m} (h : b.Consistent B t (t + 1))
    {i : Fin n} {out : Fin m} (hcell : b.schedules t i = none)
    (hunused : ∀ i', b.schedules t i' ≠ some out) :
    (bookNow t i out b).Consistent B t (t + 1) where
  toConsistent := h.toConsistent.book (Nat.lt_succ_self t) ht hcell hunused
  inputAvailable := by
    intro i'
    refine (h.inputAvailable i').trans (congrArg _ (freeFrames_congr (fun f hf => ?_)))
    exact (b.book_inFlag_of_frame_ne ht i out i' (Finset.mem_range.mp hf).ne).symm
  outputAvailable := by
    intro o
    refine (h.outputAvailable o).trans (congrArg _ (freeFrames_congr (fun f hf => ?_)))
    exact (b.book_outFlag_of_frame_ne ht i out o (Finset.mem_range.mp hf).ne).symm

/-- The end of a round counts the slot for the ports that are not matched in it. -/
theorem consistent_countUnmatched {b : Booking n m} (h : b.Consistent B t (t + 1))
    {outMatch : Fin m → Option (Fin n)}
    (hout : ∀ o, outMatch o = none ↔ ∀ i, b.schedules t i ≠ some o) :
    (countUnmatched t outMatch b).Consistent B (t + 1) (t + 1) where
  toConsistent := h.toConsistent
  inputAvailable := by
    intro i
    -- the bit of the slot says whether the input is matched now
    have hflag : b.inFlag i t = false ↔ b.schedules t i = none := by
      rw [← Bool.not_eq_true, h.toTracks.inFlag_iff (Nat.lt_succ_self t), not_not]
    show (if _ then _ else _) = _
    rw [show (countUnmatched t outMatch b).inFlag i = b.inFlag i from rfl,
      freeFrames_range_succ, h.inputAvailable i]
    by_cases hcell : b.schedules t i = none
    · rw [if_pos hcell, if_pos (hflag.mpr hcell)]
      push_cast
      rfl
    · rw [if_neg hcell, if_neg (fun hc => hcell (hflag.mp hc)), add_zero]
  outputAvailable := by
    intro o
    have hflag : b.outFlag o t = false ↔ outMatch o = none := by
      rw [← Bool.not_eq_true, h.toTracks.outFlag_iff (Nat.lt_succ_self t), hout o, not_exists]
    show (if _ then _ else _) = _
    rw [show (countUnmatched t outMatch b).outFlag o = b.outFlag o from rfl,
      freeFrames_range_succ, h.outputAvailable o]
    by_cases hnone : outMatch o = none
    · rw [if_pos hnone, if_pos (hflag.mpr hnone)]
      push_cast
      rfl
    · rw [if_neg hnone, if_neg (fun hc => hnone (hflag.mp hc)), add_zero]

/-! ### The accept phase, exactly -/

variable {maxAccepts : Fin m → ℤ} {outAccepts : Fin m → List (Fin n)}

variable (sort voqLength maxAccepts) in
/-- One output: it grants what `grantedInputs` says. -/
theorem acceptOutput_eq_ok (ht : t < bitmapWidth) {acc : Accepting n m} {out : Fin m}
    (hnodup : (outAccepts out).Nodup) (h : acc.toBooking.Consistent B t (t + 1))
    (hcell : ∀ i ∈ outAccepts out, acc.schedules t i = none)
    (hunused : ∀ i, acc.schedules t i ≠ some out) :
    ∃ acc', acceptOutput sort voqLength maxAccepts t outAccepts acc out = .ok acc' ∧
      acc'.toBooking.Consistent B t (t + 1) ∧
      acc'.virtualDepartures = acc.virtualDepartures ++
        (grantedInputs sort voqLength (maxAccepts out) acc.toBooking t out (outAccepts out)).map
          (·, out) ∧
      (∀ i o, acc'.schedules t i = some o ↔
        acc.schedules t i = some o ∨ o = out ∧ (outAccepts out).head? = some i) ∧
      (∀ i, i ∉ outAccepts out → acc'.inFlag i = acc.inFlag i) ∧
      ∀ o, o ≠ out → acc'.outFlag o = acc.outFlag o := by
  cases hins : outAccepts out with
  | nil =>
    -- Without proposals nothing is granted.
    refine ⟨acc, acceptOutput_of_nil hins, h, ?_, fun i o => ?_, fun _ _ => rfl, fun _ _ => rfl⟩
    · simp [grantedInputs]
    · simp
  | cons i rest =>
    rw [hins] at hnodup hcell
    have hi := hcell i (List.mem_cons_self ..)
    let now : Accepting n m :=
      { toBooking := bookNow t i out acc.toBooking
        virtualDepartures := acc.virtualDepartures ++ [(i, out)] }
    have hnow : now.toBooking.Consistent B t (t + 1) := consistent_bookNow ht h hi hunused
    have hrow : ∀ j o, now.schedules t j = some o ↔
        acc.schedules t j = some o ∨ o = out ∧ (i :: rest).head? = some j := by
      intro j o
      rw [List.head?_cons, Option.some.injEq]
      exact bookNow_row hi out j o
    have hinOther : ∀ j, j ≠ i → now.inFlag j = acc.inFlag j :=
      fun j hj => acc.book_inFlag_of_ne t out hj
    have houtOther : ∀ o, o ≠ out → now.outFlag o = acc.outFlag o :=
      fun o ho => acc.book_outFlag_of_ne t i ho
    unfold acceptOutput
    rw [hins]
    dsimp only
    rw [serveNow_eq ht, ok_bind]
    by_cases hmany : maxAccepts out > 1
    · -- The walk is first fit on the bits of the earlier frames, which the slot has not changed.
      obtain ⟨acc', hrun, hcons, hdep, hrows, hin', hout'⟩ := Accepting.acceptLoop_eq_ok
        (Nat.le_succ t) ht (fun f => (mem_earlierFrames : f ∈ earlierFrames t ↔ f < t)) out
        (nodup_remaining hnodup (maxAccepts out) out) hnow
      have hearlier : grantedInputs sort voqLength (maxAccepts out) now.toBooking t out (i :: rest)
          = grantedInputs sort voqLength (maxAccepts out) acc.toBooking t out (i :: rest) := by
        refine grantedInputs_congr (fun j _ f hf => ?_) (fun f hf => ?_) _
        · exact acc.book_inFlag_of_frame_ne ht i out j hf.ne
        · exact acc.book_outFlag_of_frame_ne ht i out out hf.ne
      rw [if_pos hmany]
      refine ⟨acc', hrun, hcons, ?_, fun j o => ?_, fun j hj => ?_, fun o ho => ?_⟩
      · rw [hdep, ← hearlier]
        show _ ++ [(i, out)] ++ _ = _
        rw [grantedInputs, servedEarlier, if_pos hmany, List.map_cons, List.append_assoc]
        rfl
      · rw [hrows t (fun hc => absurd (mem_earlierFrames.mp hc) (lt_irrefl t))]
        exact hrow j o
      · rw [hin' j (fun hc => hj (remaining_subset _ _ _ hc))]
        exact hinOther j (fun hc => hj (hc ▸ List.mem_cons_self ..))
      · rw [hout' o ho, houtOther o ho]
    · rw [if_neg hmany]
      refine ⟨now, rfl, hnow, ?_, hrow, fun j hj => ?_, houtOther⟩
      · rw [grantedInputs, servedEarlier, if_neg hmany]
        rfl
      · exact hinOther j (fun hc => hj (hc ▸ List.mem_cons_self ..))

variable (sort voqLength maxAccepts) in
/-- All outputs in turn. -/
theorem acceptOutputs_eq_ok (ht : t < bitmapWidth) (hnodup : ∀ o, (outAccepts o).Nodup)
    {sample : Fin n → Option (Fin m)} (hsample : ∀ o, ∀ i ∈ outAccepts o, sample i = some o)
    (outs : List (Fin m)) (houts : outs.Nodup) {acc : Accepting n m}
    (h : acc.toBooking.Consistent B t (t + 1))
    (hrow : ∀ i o, acc.schedules t i = some o → o ∉ outs ∧ sample i = some o) :
    ∃ acc', outs.foldlM (acceptOutput sort voqLength maxAccepts t outAccepts) acc = .ok acc' ∧
      acc'.toBooking.Consistent B t (t + 1) ∧
      acc'.virtualDepartures = acc.virtualDepartures ++ proposalPairs
        (fun o => grantedInputs sort voqLength (maxAccepts o) acc.toBooking t o (outAccepts o))
        outs ∧
      ∀ i o, acc'.schedules t i = some o ↔
        acc.schedules t i = some o ∨ o ∈ outs ∧ (outAccepts o).head? = some i := by
  induction outs generalizing acc with
  | nil => exact ⟨acc, rfl, h, by simp [proposalPairs], fun i o => by simp⟩
  | cons out rest ih =>
    obtain ⟨hout, hrest⟩ := List.nodup_cons.mp houts
    have hcell : ∀ i ∈ outAccepts out, acc.schedules t i = none := by
      intro i hi
      cases hc : acc.schedules t i with
      | none => rfl
      | some o =>
        -- The cell would belong to an output already processed, but `i` sampled `out`.
        obtain ⟨ho, hs⟩ := hrow i o hc
        rw [hsample out i hi, Option.some.injEq] at hs
        exact absurd (List.mem_cons_self ..) (hs ▸ ho)
    obtain ⟨acc₁, hrun₁, hcons₁, hdep₁, hrow₁, hin₁, hout₁⟩ := acceptOutput_eq_ok sort
      voqLength maxAccepts ht (hnodup out) h hcell
      (fun i hc => (hrow i out hc).1 (List.mem_cons_self ..))
    have hrow' : ∀ i o, acc₁.schedules t i = some o → o ∉ rest ∧ sample i = some o := by
      intro i o hc
      rcases (hrow₁ i o).mp hc with hold | ⟨rfl, hi⟩
      · obtain ⟨ho, hs⟩ := hrow i o hold
        exact ⟨fun hmem => ho (List.mem_cons_of_mem _ hmem), hs⟩
      · exact ⟨hout, hsample o i (List.mem_of_mem_head? hi)⟩
    obtain ⟨acc₂, hrun₂, hcons₂, hdep₂, hrow₂⟩ := ih hrest hcons₁ hrow'
    refine ⟨acc₂, by rw [List.foldlM_cons, hrun₁, ok_bind, hrun₂], hcons₂, ?_, fun i o => ?_⟩
    · -- The outputs to come find the bits they need as they were.
      have hlater : proposalPairs (fun o =>
            grantedInputs sort voqLength (maxAccepts o) acc₁.toBooking t o (outAccepts o)) rest
          = proposalPairs (fun o =>
            grantedInputs sort voqLength (maxAccepts o) acc.toBooking t o (outAccepts o)) rest := by
        apply List.flatMap_congr
        intro o ho
        have hne : o ≠ out := fun he => hout (he ▸ ho)
        congr 1
        refine grantedInputs_congr (fun i hi f _ => ?_) (fun f _ => by rw [hout₁ o hne]) _
        rw [hin₁ i]
        intro hi'
        exact hne (Option.some.inj ((hsample o i hi).symm.trans (hsample out i hi')))
      rw [hdep₂, hdep₁, hlater, List.append_assoc]
      rfl
    · -- A cell of the slot is an old one, that of `out` or that of a later output.
      rw [hrow₂, hrow₁]
      constructor
      · rintro ((hc | ⟨rfl, hi⟩) | ⟨ho, hi⟩)
        · exact .inl hc
        · exact .inr ⟨List.mem_cons_self .., hi⟩
        · exact .inr ⟨List.mem_cons_of_mem _ ho, hi⟩
      · rintro (hc | ⟨ho, hi⟩)
        · exact .inl (.inl hc)
        · rcases List.mem_cons.mp ho with rfl | ho
          · exact .inl (.inr ⟨rfl, hi⟩)
          · exact .inr ⟨ho, hi⟩

/-- The inputs that get a frame from `out` in a round. -/
def granted (sort : DescSort (Fin n)) (maxAccepts : Fin m → ℤ) (draws : TreeDraws n m) (t : ℕ)
    (core : Core (Booking n m) n m) (out : Fin m) : List (Fin n) :=
  grantedInputs sort core.voq.voqLength (maxAccepts out) core.tables t out
    (accepted maxAccepts draws core.voq out)

variable {draws : TreeDraws n m} {core : Core (Booking n m) n m}

variable (sort maxAccepts draws) in
/-- The accept phase of a round: it grants what `granted` says, and the row of the slot holds the
    inputs served now. -/
theorem acceptAll_eq_ok (ht : t < bitmapWidth) (h : core.tables.Consistent B t (t + 1))
    (hempty : ∀ i, core.schedules t i = none) :
    ∃ acc, acceptAll sort core.voq.voqLength maxAccepts t (accepted maxAccepts draws core.voq)
        core.tables = .ok acc ∧
      acc.toBooking.Consistent B t (t + 1) ∧
      acc.virtualDepartures
        = proposalPairs (granted sort maxAccepts draws t core) (List.finRange m) ∧
      ∀ i o, acc.schedules t i = some o ↔ served maxAccepts draws core.voq o = some i := by
  let start : Accepting n m := { toBooking := core.tables, virtualDepartures := [] }
  obtain ⟨acc, hrun, hcons, hdep, hrow⟩ := acceptOutputs_eq_ok sort core.voq.voqLength
    maxAccepts ht (nodup_accepted maxAccepts draws core.voq)
    (fun o i hi => sampled_of_mem_accepted hi) (List.finRange m) (List.nodup_finRange m)
    (show start.toBooking.Consistent B t (t + 1) from h)
    (fun i o hc => absurd ((hempty i).symm.trans hc) (Option.some_ne_none o).symm)
  refine ⟨acc, hrun, hcons, hdep, fun i o => ?_⟩
  rw [hrow, show start.schedules t i = none from hempty i]
  simp [served]

/-- A round keeps the tables consistent. -/
theorem round_consistent (ht : t < bitmapWidth) (h : core.tables.Consistent B t (t + 1))
    (hempty : ∀ i, core.schedules t i = none) (hexact : core.voq.Exact) :
    Post (Availability.round sort maxAccepts draws t core) (fun _ => True)
      (fun core' => core'.tables.Consistent B (t + 1) (t + 1) ∧ core'.voq.Exact) := by
  unfold Availability.round
  refine ((proposeAll_post maxAccepts draws core.voq).mono (fun _ _ => trivial)
    (fun _ hacc => hacc)).bind ?_
  rintro outAccepts ⟨rfl, -⟩
  obtain ⟨acc, hrun, hcons, -, hrow⟩ := acceptAll_eq_ok sort maxAccepts draws ht h
    hempty
  rw [hrun, ok_bind]
  refine ((VoqState.handlePacketDepartures_post hexact acc.virtualDepartures).mono
    (fun _ _ => trivial) (fun _ hvoq => hvoq)).bind ?_
  rintro voq ⟨hexact', -⟩
  refine ⟨consistent_countUnmatched hcons (fun o => ?_), hexact'⟩
  rw [Option.eq_none_iff_forall_ne_some]
  exact forall_congr' (fun i => not_congr (hrow i o).symm)

/-! ### Reachable states -/

theorem batchInvariant_counted (B : ℕ) :
    BatchInvariant B (fun k (b : Booking n m) => b.Consistent B k k)
      (fun t b => b.Consistent B t (t + 1)) where
  clearRow := fun _ _ h => ⟨h.toConsistent.clearRow, h.inputAvailable, h.outputAvailable⟩
  resetBitmap := fun _ h => ⟨h.toConsistent.resetBitmap, fun _ => by simp [freeFrames]; rfl,
    fun _ => by simp [freeFrames]; rfl⟩

/-- In every reachable state of a scheduler of this kind the tables are consistent, and a slot can
    be entered. -/
theorem enterSlot_of_run {maxAccepts : Policy n m} (hB1 : 1 ≤ B) (hB : B ≤ bitmapWidth)
    {sw : IQSwitch n m} {st₀ : State n m} (hstart : Start (Booking.empty 0) st₀)
    {sys : System (model maxAccepts B sort)}
    (hrun : Run (model maxAccepts B sort) ⟨sw, st₀⟩ sys) (sw' : IQSwitch n m) :
    ∃ core, enterSlot B sw' sys.scheduler = .ok core ∧
      core.tables.Consistent B (sys.scheduler.cfRelTime % B) (sys.scheduler.cfRelTime % B + 1) ∧
      core.voq.Exact ∧ ∀ i, core.schedules (sys.scheduler.cfRelTime % B) i = none := by
  have hinit : Sound (fun k (b : Booking n m) => b.Consistent B k k) (st₀.cfRelTime % B)
      st₀.toCore := by
    rw [hstart.eq.1, hstart.eq.2, Nat.zero_mod]
    exact ⟨Booking.consistent_empty B 0 0, VoqState.exact_empty⟩
  have hsound := sound_of_run (C := fun _ _ _ => True) (batchInvariant_counted B) hB1
    (fun _ _ _ _ _ _ _ => trivial)
    (fun draws t core ht hcore hempty _ =>
      (round_consistent (by omega) hcore.tables hempty hcore.voq).imp (fun _ h => ⟨h.1, h.2⟩))
    hrun hinit
  obtain ⟨core, hcore, hK, hentered⟩ := enterSlot_eq_ok (batchInvariant_counted B) sw' hsound
  refine ⟨core, hcore, hK.tables, hK.voq, fun i => ?_⟩
  rw [hentered.schedules, Function.update_self]

end AvailabilityAware

end SbQps

end SschedSimulator
