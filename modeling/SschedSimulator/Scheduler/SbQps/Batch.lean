import SschedSimulator.Scheduler.SbQps.Base

namespace SschedSimulator

open Foundation

/-!
# `sb_qps.cc` — the slots of a batch

All the schedulers of `sb_qps.cc` that fill one batch while the previous one is dispatched have
the same `schedule()`: copy out and clear the row of the slot, take in the arrivals, run a round
`qps`, and clear the bitmaps at the end of the batch.  It is written here once, with the round
and the tables as parameters.

A table invariant `J k` speaks about the first `k` rows, those already rewritten for the batch
being filled, and `K t` about the tables when the row `t` has just been cleared.  `BatchInvariant`
says that they survive the dispatch of the next row and the end of a batch; with it,
`slotRound_post` and `conserves_of_grants` reduce a proof about `schedule()` to one about `qps`.
-/

namespace SbQps

variable {τ : Type} {n m : ℕ}

/-- The tables of a scheduler: schedule rows and bitmaps, possibly with availability counters. -/
class BatchTables (τ : Type) (n m : outParam ℕ) where
  reservations : τ → Reservations n m
  clearRow : τ → ℕ → τ
  resetBitmap : τ → τ
  reservations_clearRow : ∀ t f, reservations (clearRow t f) = (reservations t).clearRow f
  reservations_resetBitmap : ∀ t, reservations (resetBitmap t) = (reservations t).resetBitmap

instance : BatchTables (Reservations n m) n m where
  reservations := id
  clearRow := Reservations.clearRow
  resetBitmap := Reservations.resetBitmap
  reservations_clearRow := fun _ _ => rfl
  reservations_resetBitmap := fun _ => rfl

instance : BatchTables (Booking n m) n m where
  reservations := Booking.toReservations
  clearRow := fun b f => { b with toReservations := b.toReservations.clearRow f }
  resetBitmap := fun b =>
    { toReservations := b.toReservations.resetBitmap
      inputAvailability := fun _ => 0
      outputAvailability := fun _ => 0 }
  reservations_clearRow := fun _ _ => rfl
  reservations_resetBitmap := fun _ => rfl

/-- What a round of `qps` reads and writes: the tables and the queues. -/
structure Core (τ : Type) (n m : ℕ) where
  tables : τ
  voq : VoqState n m

/-- The members of a scheduler that change. -/
structure SbState (τ : Type) (n m : ℕ) extends Core τ n m where
  cfRelTime : ℕ
  inMatch : Fin n → Option (Fin m)

/-- The state a constructor leaves: no packets and no batch dispatched yet. -/
def SbState.initial (tables : τ) : SbState τ n m where
  tables := tables
  voq := VoqState.empty
  cfRelTime := 0
  inMatch := fun _ => none

/-- `reset`: everything but `_in_match`, where `tables` are the tables of the constructor. -/
def SbState.reset (tables : τ) (st : SbState τ n m) : SbState τ n m :=
  { SbState.initial tables with inMatch := st.inMatch }

/-- The states in which a run starts, where `tables` are the tables of the constructor. -/
inductive Start (tables : τ) : SbState τ n m → Prop where
  | initial : Start tables (SbState.initial tables)
  | reset (st : SbState τ n m) : Start tables (SbState.reset tables st)

/-- A state in which a run starts differs from that of the constructor in `_in_match` only. -/
theorem Start.eq {tables : τ} {st : SbState τ n m} (h : Start tables st) :
    st.toCore = (SbState.initial tables : SbState τ n m).toCore ∧ st.cfRelTime = 0 := by
  cases h with
  | initial => exact ⟨rfl, rfl⟩
  | reset st => exact ⟨rfl, rfl⟩

section

variable [BatchTables τ n m]

/-- The schedule rows. -/
def Core.schedules (core : Core τ n m) : ℕ → Fin n → Option (Fin m) :=
  (BatchTables.reservations core.tables).schedules

/-- The start of `schedule()`: clear the row of the slot and take in the arrivals. -/
def enterSlot (B : ℕ) (sw : IQSwitch n m) (st : SbState τ n m) : Except Fault (Core τ n m) := do
  let voq ← st.voq.handlePacketArrivals sw.getArrivals
  .ok { tables := BatchTables.clearRow st.tables (st.cfRelTime % B), voq := voq }

/-- The slot up to the end of its round. -/
def slotRound (qps : ℕ → Core τ n m → Except Fault (Core τ n m)) (B : ℕ) (sw : IQSwitch n m)
    (st : SbState τ n m) : Except Fault (SbState τ n m) := do
  let core ← enterSlot B sw st
  let core' ← qps (st.cfRelTime % B) core
  .ok { toCore := core', cfRelTime := st.cfRelTime
        inMatch := st.schedules (st.cfRelTime % B) }

/-- The end of `schedule()`: the bitmaps are cleared after the last slot of a batch. -/
def endSlot (B : ℕ) (st : SbState τ n m) : SbState τ n m :=
  { st with
    tables := if st.cfRelTime % B = B - 1 then BatchTables.resetBitmap st.tables else st.tables
    cfRelTime := st.cfRelTime + 1 }

/-- `schedule`, for a scheduler with the round `qps`. -/
def schedule (qps : ℕ → Core τ n m → Except Fault (Core τ n m)) (B : ℕ) (sw : IQSwitch n m)
    (st : SbState τ n m) : Except Fault (SbState τ n m) := do
  let st' ← slotRound qps B sw st
  .ok (endSlot B st')

/-! ### Invariants of the tables -/

/-- `J k`, a property of the tables when `k` rows are rewritten, and `K t`, a property of the
    tables when the row `t` is cleared, survive a dispatch and the end of a batch. -/
structure BatchInvariant (B : ℕ) (J K : ℕ → τ → Prop) : Prop where
  clearRow : ∀ k t, J k t → K k (BatchTables.clearRow t k)
  resetBitmap : ∀ t, J B t → J 0 (BatchTables.resetBitmap t)

/-- The tables satisfy `J k` and the two counts of the queues agree. -/
structure Sound (J : ℕ → τ → Prop) (k : ℕ) (core : Core τ n m) : Prop where
  tables : J k core.tables
  voq : core.voq.Exact

/-- What a slot does before its round. -/
structure Entered (B : ℕ) (sw : IQSwitch n m) (st : SbState τ n m) (core : Core τ n m) : Prop where
  schedules : core.schedules
    = Function.update st.schedules (st.cfRelTime % B) (fun _ => none)
  voqLength : ∀ i o, core.voq.voqLength i o = st.voq.voqLength i o + sw.getArrivals.count (i, o)

variable {B : ℕ} {J K : ℕ → τ → Prop}

theorem enterSlot_eq_ok (hJ : BatchInvariant B J K) (sw : IQSwitch n m) {st : SbState τ n m}
    (h : Sound J (st.cfRelTime % B) st.toCore) :
    ∃ core, enterSlot B sw st = .ok core ∧ Sound K (st.cfRelTime % B) core ∧
      Entered B sw st core := by
  obtain ⟨voq, hrun, hexact, hlen⟩ := VoqState.handlePacketArrivals_eq_ok h.voq sw.getArrivals
  refine ⟨⟨BatchTables.clearRow st.tables (st.cfRelTime % B), voq⟩,
    by rw [enterSlot, hrun, ok_bind], ⟨hJ.clearRow _ _ h.tables, hexact⟩, ?_, hlen⟩
  show (BatchTables.reservations (BatchTables.clearRow st.tables _)).schedules = _
  rw [BatchTables.reservations_clearRow]
  rfl

/-- The end of a slot moves on to the next row, or back to the first. -/
theorem endSlot_sound (hJ : BatchInvariant B J K) (hB1 : 1 ≤ B) {st : SbState τ n m}
    (h : Sound J (st.cfRelTime % B + 1) st.toCore) :
    Sound J ((endSlot B st).cfRelTime % B) (endSlot B st).toCore := by
  have ht : st.cfRelTime % B < B := Nat.mod_lt _ (by omega)
  refine ⟨?_, h.voq⟩
  show J ((st.cfRelTime + 1) % B) (if _ then _ else _)
  rw [← Nat.mod_add_mod]
  split
  · -- The last slot of a batch: all `B` rows are rewritten, and the bitmaps are cleared.
    rename_i hlast
    have hk : st.cfRelTime % B + 1 = B := by omega
    rw [hk, Nat.mod_self]
    apply hJ.resetBitmap
    rw [← hk]
    exact h.tables
  · rename_i hlast
    rw [Nat.mod_eq_of_lt (by omega)]
    exact h.tables

@[simp] theorem endSlot_schedules (B : ℕ) (st : SbState τ n m) :
    (endSlot B st).schedules = st.schedules := by
  show (BatchTables.reservations (if _ then _ else _)).schedules = _
  split
  · rw [BatchTables.reservations_resetBitmap]
    rfl
  · rfl

/-- A slot, given what its round does when it meets `C`: `R` relates the tables and queues around
    the round. -/
theorem slotRound_post (hJ : BatchInvariant B J K) (hB1 : 1 ≤ B)
    {qps : ℕ → Core τ n m → Except Fault (Core τ n m)} {C : ℕ → Core τ n m → Prop}
    {E : ℕ → Core τ n m → Fault → Prop} {R : ℕ → Core τ n m → Core τ n m → Prop}
    (hqps : ∀ t core, t < B → Sound K t core → (∀ i, core.schedules t i = none) → C t core →
      Post (qps t core) (E t core) (fun core' => Sound J (t + 1) core' ∧ R t core core'))
    (sw : IQSwitch n m) {st : SbState τ n m} (h : Sound J (st.cfRelTime % B) st.toCore)
    (hC : ∀ core, enterSlot B sw st = .ok core → C (st.cfRelTime % B) core) :
    Post (slotRound qps B sw st)
      (fun e => ∃ core, enterSlot B sw st = .ok core ∧ E (st.cfRelTime % B) core e)
      (fun st' => ∃ core, enterSlot B sw st = .ok core ∧ Entered B sw st core ∧
        Sound J (st.cfRelTime % B + 1) st'.toCore ∧ R (st.cfRelTime % B) core st'.toCore ∧
        st'.cfRelTime = st.cfRelTime ∧ st'.inMatch = st.schedules (st.cfRelTime % B)) := by
  have ht : st.cfRelTime % B < B := Nat.mod_lt _ (by omega)
  obtain ⟨core, hrun, hsound, hentered⟩ := enterSlot_eq_ok hJ sw h
  have hempty : ∀ i, core.schedules (st.cfRelTime % B) i = none := by
    intro i
    rw [hentered.schedules, Function.update_self]
  unfold slotRound
  rw [hrun, ok_bind]
  refine ((hqps _ core ht hsound hempty (hC core hrun)).mono (fun e he => ⟨core, rfl, he⟩)
    (fun _ hc => hc)).bind ?_
  rintro core' ⟨hsound', hR⟩
  exact ⟨core, rfl, hentered, hsound', hR, rfl, rfl⟩

/-! ### Conservation -/

/-- What a faultless round does: it books the pairs `gs` in the rows up to the slot and takes
    their packets out of the queues. -/
def Grants (B t : ℕ) (core core' : Core τ n m) : Prop :=
  ∃ gs, Extends (Finset.range B) (· ≤ t) core.schedules core'.schedules gs ∧
    ∀ i o, core'.voq.voqLength i o = core.voq.voqLength i o - gs.count (i, o)

theorem Grants.refl (B t : ℕ) (core : Core τ n m) : Grants B t core core :=
  ⟨[], Extends.refl _ _ _, fun _ _ => by simp⟩

theorem Grants.trans {t : ℕ} {core core' core'' : Core τ n m} (h : Grants B t core core')
    (h' : Grants B t core' core'') : Grants B t core core'' := by
  obtain ⟨gs, hext, hlen⟩ := h
  obtain ⟨gs', hext', hlen'⟩ := h'
  refine ⟨gs ++ gs', hext.trans hext', fun i o => ?_⟩
  rw [hlen', hlen, List.count_append]
  push_cast
  omega

/-- The packets from `i` to `o` that a scheduler accounts for: those in `VOQLength` and those
    promised to pending rows. -/
def held (B : ℕ) (core : Core τ n m) (i : Fin n) (o : Fin m) : ℤ :=
  core.voq.voqLength i o + pending (Finset.range B) core.schedules i o

/-- Without packets and reservations the scheduler accounts for the queues of an empty switch. -/
theorem held_initial {sw : IQSwitch n m} (hsw : sw.Empty) {tables : τ}
    (h : ∀ f i, (BatchTables.reservations tables).schedules f i = none) (i : Fin n) (o : Fin m) :
    (sw.getQueueLength i o : ℤ) = held B (SbState.initial tables).toCore i o := by
  have hrows : pending (Finset.range B) (SbState.initial tables).schedules i o = 0 :=
    pending_eq_zero (fun f _ => h f i)
  rw [hsw i o, held, hrows]
  rfl

theorem Sound.held_nonneg {k : ℕ} {core : Core τ n m} (h : Sound J k core) (i : Fin n)
    (o : Fin m) : 0 ≤ held B core i o :=
  add_nonneg (h.voq.nonneg i o) (Int.natCast_nonneg _)

/-- A round that only grants keeps what is held. -/
theorem Grants.held_eq {t : ℕ} {core core' : Core τ n m} (h : Grants B t core core') (i : Fin n)
    (o : Fin m) : held B core' i o = held B core i o := by
  obtain ⟨gs, hext, hlen⟩ := h
  unfold held
  rw [hlen, hext.pending_eq]
  push_cast
  omega

/-- Entering a slot adds the arrivals to what is held and takes away the row copied out. -/
theorem Entered.held_eq {sw : IQSwitch n m} {st : SbState τ n m} {core : Core τ n m}
    (h : Entered B sw st core) (hB1 : 1 ≤ B) (i : Fin n) (o : Fin m) :
    held B core i o + (if st.schedules (st.cfRelTime % B) i = some o then 1 else 0)
      = held B st.toCore i o + sw.getArrivals.count (i, o) := by
  have ht : st.cfRelTime % B ∈ Finset.range B := Finset.mem_range.mpr (Nat.mod_lt _ (by omega))
  have hclear := pending_clear ht st.schedules i o
  rw [← h.schedules] at hclear
  unfold held
  rw [h.voqLength]
  omega

/-- A scheduler with the round `qps`, as a switch drives it; `D` is the type of the random
    choices of a call. -/
abbrev sbModel {D : Type} (qps : D → ℕ → Core τ n m → Except Fault (Core τ n m)) (B : ℕ) :
    SchedulerModel n m where
  State := SbState τ n m
  Input := D
  schedule := fun draws sw st => schedule (qps draws) B sw st
  inMatch := SbState.inMatch

/-- The row a slot dispatches is the one that its frame holds when the slot begins. -/
theorem inMatch_of_switching {D : Type} {qps : D → ℕ → Core τ n m → Except Fault (Core τ n m)}
    {draws : D} {channels : Fin n → List (Packet n m)} {sys sys' : System (sbModel qps B)}
    (h : switching (sbModel qps B) draws channels sys = .ok sys') :
    sys'.scheduler.inMatch = sys.scheduler.schedules (sys.scheduler.cfRelTime % B) := by
  obtain ⟨st, hst, hend⟩ := bind_eq_ok.mp (schedule_of_switching h)
  obtain ⟨core, -, hround⟩ := bind_eq_ok.mp hst
  obtain ⟨core', -, hcopy⟩ := bind_eq_ok.mp hround
  rw [← Except.ok.inj hend, ← Except.ok.inj hcopy]
  rfl

/-- If every round that meets `C` keeps the tables sound, they are sound in every state reached by
    slots that meet `Cs`. -/
theorem sound_of_run {D : Type} {qps : D → ℕ → Core τ n m → Except Fault (Core τ n m)}
    {Cs : D → IQSwitch n m → SbState τ n m → Prop} {C : D → ℕ → Core τ n m → Prop}
    (hJ : BatchInvariant B J K) (hB1 : 1 ≤ B)
    (hC : ∀ draws sw st core, Cs draws sw st → enterSlot B sw st = .ok core →
      Entered B sw st core → C draws (st.cfRelTime % B) core)
    (hqps : ∀ draws t core, t < B → Sound K t core → (∀ i, core.schedules t i = none) →
      C draws t core → Post (qps draws t core) (fun _ => True) (fun core' => Sound J (t + 1) core'))
    {sys sys' : System (sbModel qps B)} (hrun : RunWhere (sbModel qps B) Cs sys sys')
    (h : Sound J (sys.scheduler.cfRelTime % B) sys.scheduler.toCore) :
    Sound J (sys'.scheduler.cfRelTime % B) sys'.scheduler.toCore := by
  refine hrun.induction (P := fun sys : System (sbModel qps B) =>
    Sound J (sys.scheduler.cfRelTime % B) sys.scheduler.toCore) h ?_
  intro draws channels mid next hmid hCs hok
  have hmeets : ∀ core, enterSlot B (mid.switch.readInputs channels) mid.scheduler = .ok core →
      C draws (mid.scheduler.cfRelTime % B) core := by
    intro core hcore
    obtain ⟨core', hcore', -, hentered⟩ := enterSlot_eq_ok hJ (mid.switch.readInputs channels) hmid
    obtain rfl := Except.ok.inj (hcore'.symm.trans hcore)
    exact hC draws _ _ _ hCs hcore' hentered
  have hslot := slotRound_post (E := fun _ _ _ => True) (R := fun _ _ _ => True) hJ hB1
    (fun t core ht hcore hempty hCt =>
      (hqps draws t core ht hcore hempty hCt).imp (fun _ h => ⟨h, trivial⟩))
    (mid.switch.readInputs channels) hmid hmeets
  obtain ⟨st, hst, hend⟩ := bind_eq_ok.mp (schedule_of_switching hok)
  obtain ⟨core, -, -, hsound, -, htime, -⟩ := hslot.of_ok hst
  rw [← Except.ok.inj hend]
  exact endSlot_sound hJ hB1 (by rw [htime]; exact hsound)

/-- If every round that meets `C` keeps the tables sound and only grants, `schedule()` conserves
    packets in the slots that meet `Cs`. -/
theorem conserves_of_grants {D : Type} {qps : D → ℕ → Core τ n m → Except Fault (Core τ n m)}
    {Cs : D → IQSwitch n m → SbState τ n m → Prop} {C : D → ℕ → Core τ n m → Prop}
    {E : D → Core τ n m → Fault → Prop} (hJ : BatchInvariant B J K) (hB1 : 1 ≤ B)
    (hC : ∀ draws sw st core, Cs draws sw st → enterSlot B sw st = .ok core →
      C draws (st.cfRelTime % B) core)
    (hmatch : ∀ draws core k t, J k t → ∀ f < B,
      ¬ IsMatching ((BatchTables.reservations t).schedules f) → E draws core .outputOccupied)
    (hqps : ∀ draws t core, t < B → Sound K t core → (∀ i, core.schedules t i = none) →
      C draws t core → Post (qps draws t core) (E draws core)
        (fun core' => Sound J (t + 1) core' ∧ Grants B t core core')) :
    Conserves (sbModel qps B) Cs
      (fun st => Sound J (st.cfRelTime % B) st.toCore) (fun st => held B st.toCore)
      (fun draws sw st e => ∃ core, enterSlot B sw st = .ok core ∧ E draws core e) where
  post := by
    intro draws sw st hsound hCs
    have ht : st.cfRelTime % B < B := Nat.mod_lt _ (by omega)
    show Post (slotRound (qps draws) B sw st >>= fun st' => .ok (endSlot B st')) _ _
    refine (slotRound_post hJ hB1 (hqps draws) sw hsound
      (fun core hcore => hC draws sw st core hCs hcore)).bind ?_
    rintro mid ⟨core, hcore, hentered, hsound', hgrants, htime, hcopy⟩
    refine ⟨endSlot_sound hJ hB1 (by rw [htime]; exact hsound'), fun hne => ?_, fun i o => ?_⟩
    · -- The row dispatched is a row of the state before the slot.
      refine ⟨core, hcore, hmatch draws core _ _ hsound.tables _ ht ?_⟩
      intro hrow
      apply hne
      show IsMatching mid.inMatch
      rw [hcopy]
      exact hrow
    · have hheld : held B (endSlot B mid).toCore i o = held B mid.toCore i o := by
        unfold held
        rw [show (endSlot B mid).toCore.schedules = mid.schedules from endSlot_schedules B mid]
        rfl
      rw [hheld, hgrants.held_eq]
      refine ⟨?_, ?_⟩
      · rw [← hgrants.held_eq]
        exact hsound'.held_nonneg i o
      · show _ + (if mid.inMatch i = some o then 1 else 0) = _
        rw [hcopy]
        exact hentered.held_eq hB1 i o

/-! ### The loop over the outputs -/

/-- The loop over the outputs of an accept phase, for any type `A` of its state.  `body` may rely
    on what a faultless loop keeps: in the row of the slot the inputs that sampled `out` have no
    cell yet, and no cell holds `out`. -/
theorem outputLoop_post {A : Type} (t : ℕ) (table : A → ℕ → Fin n → Option (Fin m))
    (departures : A → List (Fin n × Fin m)) (I : A → Prop) (body : A → Fin m → Except Fault A)
    (sample : Fin n → Option (Fin m)) (ins : Fin m → List (Fin n))
    (hins : ∀ o, ∀ i ∈ ins o, sample i = some o)
    (hbody : ∀ acc out, I acc → (∀ i, sample i = some out → table acc t i = none) →
      (∀ i, table acc t i ≠ some out) →
      Post (body acc out) (fun _ => False) (fun acc' => I acc' ∧
        ∃ gs, gs.Sublist ((ins out).map (·, out)) ∧
          Granted B (· ≤ t) (table acc) (table acc') (departures acc) (departures acc') gs))
    (outs : List (Fin m)) (hnodup : outs.Nodup) (acc : A) (hI : I acc)
    (hrow : ∀ i o, table acc t i = some o → o ∉ outs ∧ sample i = some o) :
    Post (outs.foldlM body acc) (fun _ => False) (fun acc' => I acc' ∧
      ∃ gs, gs.Sublist (proposalPairs ins outs) ∧
        Granted B (· ≤ t) (table acc) (table acc') (departures acc) (departures acc') gs) := by
  induction outs generalizing acc with
  | nil => exact ⟨hI, [], List.nil_sublist _, Granted.refl ..⟩
  | cons out rest ih =>
    obtain ⟨hout, hrest⟩ := List.nodup_cons.mp hnodup
    rw [List.foldlM_cons]
    have hfree : ∀ i, sample i = some out → table acc t i = none := by
      intro i hi
      cases hc : table acc t i with
      | none => rfl
      | some o =>
        -- The cell would belong to an output already processed, but `i` sampled `out`.
        obtain ⟨ho, hs⟩ := hrow i o hc
        rw [hi, Option.some.injEq] at hs
        exact absurd (List.mem_cons_self ..) (hs ▸ ho)
    have hunused : ∀ i, table acc t i ≠ some out := by
      intro i hc
      exact (hrow i out hc).1 (List.mem_cons_self ..)
    refine (hbody acc out hI hfree hunused).bind ?_
    rintro acc' ⟨hI', gs, hsub, hgs⟩
    have hrow' : ∀ i o, table acc' t i = some o → o ∉ rest ∧ sample i = some o := by
      intro i o hc
      cases hold : table acc t i with
      | none =>
        -- A new cell belongs to a pair that `out` was proposed.
        have hmem := hsub.subset (hgs.extended.added hc hold).2
        obtain ⟨j, hj, heq⟩ := List.mem_map.mp hmem
        obtain ⟨rfl, rfl⟩ := Prod.mk.inj heq
        exact ⟨hout, hins _ _ hj⟩
      | some p =>
        have hkept := hgs.extended.kept hold
        rw [hc, Option.some.injEq] at hkept
        subst hkept
        obtain ⟨ho, hs⟩ := hrow i o hold
        exact ⟨fun hmem => ho (List.mem_cons_of_mem _ hmem), hs⟩
    refine (ih hrest acc' hI' hrow').imp ?_
    rintro acc'' ⟨hI'', gs', hsub', hgs'⟩
    exact ⟨hI'', gs ++ gs', hsub.append hsub', hgs.trans hgs'⟩

end

/-! ### Keeping the longest proposal -/

/-- `outAccepts[out]` holds the longest proposal so far. -/
def keepLongest (voqLength : Fin n → Fin m → ℤ) (i : Fin n) (out : Fin m)
    (outAccepts : List (Fin n)) : List (Fin n) :=
  match outAccepts with
  | [] => [i]
  | first :: rest => if voqLength i out > voqLength first out then i :: rest else first :: rest

/-- The proposal an output holds is the longest. -/
theorem head?_foldl_keepLongest (voqLength : Fin n → Fin m → ℤ) (out : Fin m)
    (ins outAccepts : List (Fin n)) :
    (ins.foldl (fun k i => keepLongest voqLength i out k) outAccepts).head?
      = ins.foldl (challenge (fun i j => decide (voqLength i out > voqLength j out)))
          outAccepts.head? := by
  induction ins generalizing outAccepts with
  | nil => rfl
  | cons i rest ih =>
    rw [List.foldl_cons, List.foldl_cons, ih]
    congr 1
    cases outAccepts with
    | nil => rfl
    | cons first others =>
      by_cases hlt : voqLength i out > voqLength first out
      · simp [keepLongest, challenge, hlt]
      · simp [keepLongest, challenge, hlt]

/-! ### Tables without availability counters -/

/-- The tables stay consistent over the slots of a batch. -/
theorem batchInvariant_consistent (B : ℕ) :
    BatchInvariant B (fun k (r : Reservations n m) => r.Consistent B k)
      (fun t r => r.Consistent B (t + 1)) where
  clearRow := fun _ _ h => h.clearRow
  resetBitmap := fun _ h => h.resetBitmap

/-- The frames `f = timeSlot - 1; f >= 0; --f`. -/
def earlierFrames (timeSlot : ℕ) : List ℕ := (List.range timeSlot).reverse

@[simp] theorem mem_earlierFrames {timeSlot f : ℕ} :
    f ∈ earlierFrames timeSlot ↔ f < timeSlot := by
  simp [earlierFrames]

/-- The state of the accept phase of a scheduler without availability counters. -/
structure PlainAccepting (n m : ℕ) extends Reservations n m where
  virtualDepartures : List (Fin n × Fin m)

namespace PlainAccepting

/-- Assign the current slot. -/
def serveNow (timeSlot : ℕ) (out : Fin m) (i : Fin n) (acc : PlainAccepting n m) :
    Except Fault (PlainAccepting n m) := do
  let r ← acc.toReservations.assignNow timeSlot i out
  .ok { toReservations := r, virtualDepartures := acc.virtualDepartures ++ [(i, out)] }

/-- Reserve the first frame of the list that is free for both ports, if any. -/
def fill (frames : List ℕ) (out : Fin m) (i : Fin n) (acc : PlainAccepting n m) :
    Except Fault (PlainAccepting n m) := do
  match ← acc.firstFree frames i out with
  | none => .ok acc
  | some f =>
    let r ← acc.toReservations.reserve f i out
    .ok { toReservations := r, virtualDepartures := acc.virtualDepartures ++ [(i, out)] }

variable {B t : ℕ}

/-- Serving an input without a cell at the slot, for an output not yet used there. -/
theorem serveNow_eq_ok (ht : t < B) (hB : B ≤ bitmapWidth) {acc : PlainAccepting n m}
    (h : acc.toReservations.Consistent B (t + 1)) {i : Fin n} {out : Fin m}
    (hcell : acc.schedules t i = none) (hout : ∀ i', acc.schedules t i' ≠ some out) :
    ∃ acc', acc.serveNow t out i = .ok acc' ∧ acc'.toReservations.Consistent B (t + 1) ∧
      Granted B (· ≤ t) acc.schedules acc'.schedules acc.virtualDepartures
        acc'.virtualDepartures [(i, out)] := by
  refine ⟨⟨acc.book t i out, acc.virtualDepartures ++ [(i, out)]⟩, ?_, ?_, ?_, rfl⟩
  · rw [serveNow, Reservations.assignNow_eq_ok _ (by omega), ok_bind]
  · exact h.book (by omega) (by omega) hcell hout
  · exact Extends.single (Finset.mem_range.mpr ht) (le_refl t) hcell

/-- Filling an earlier frame books at most one pair. -/
theorem fill_post (ht : t < B) (hB : B ≤ bitmapWidth) {acc : PlainAccepting n m}
    (h : acc.toReservations.Consistent B (t + 1)) (i : Fin n) (out : Fin m) :
    Post (acc.fill (earlierFrames t) out i) (fun _ => False) (fun acc' =>
      acc'.toReservations.Consistent B (t + 1) ∧ ∃ gs, gs.Sublist [(i, out)] ∧
        Granted B (· ≤ t) acc.schedules acc'.schedules acc.virtualDepartures
          acc'.virtualDepartures gs) := by
  have hframes : ∀ f ∈ earlierFrames t, f < t := fun f hf => mem_earlierFrames.mp hf
  unfold fill
  rw [acc.firstFree_eq (fun f hf => by have := hframes f hf; omega), ok_bind]
  cases hc : (earlierFrames t).find? (fun f => !(acc.inFlag i f || acc.outFlag out f)) with
  | none => exact ⟨h, [], List.nil_sublist _, Granted.refl ..⟩
  | some f =>
    have hf : f < t := hframes f (List.mem_of_find?_eq_some hc)
    have hfree := List.find?_some hc
    rw [Bool.not_eq_true', Bool.or_eq_false_iff] at hfree
    have hcell : acc.schedules f i = none := h.cell_eq_none (by omega) hfree.1
    simp only [acc.reserve_eq_ok (by omega : f < bitmapWidth) hcell, ok_bind]
    refine ⟨h.book (by omega) (by omega) hcell (h.row_ne_some (by omega) hfree.2), [(i, out)],
      List.Sublist.refl _, ?_, rfl⟩
    exact Extends.single (Finset.mem_range.mpr (by omega)) hf.le hcell

end PlainAccepting

end SbQps

end SschedSimulator
