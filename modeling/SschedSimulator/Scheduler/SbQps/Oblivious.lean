import SschedSimulator.Scheduler.SbQps.Batch

namespace SschedSimulator

open Foundation

/-!
# `sb_qps.cc` — the scheduler `SB_QPS_HalfHalf_Oblivious`

Every output keeps its two longest proposals.  The longest gets the slot itself; in the second
half of a batch the other one gets the latest earlier slot that is free for both ports.

* `keepTopTwo` — the two proposals an output keeps, the array `outAccepts[out]`;
* `longestTwo_of_propose` — they are its two longest, ties as the order of the inputs has them;
* `qps_post` — one round: it books some of the kept proposals, each once, in rows up to the slot;
* `batchInvariant_of_run` — rows, bitmaps, sampling trees, `VOQLength` and the queues of the
  switch agree after every slot of every run.
-/

namespace SbQps

variable {n m : ℕ}

namespace HalfHalfOblivious

/-- The state of `SB_QPS_HalfHalf_Oblivious`. -/
abbrev State (n m : ℕ) := SbState (Reservations n m) n m

/-- The constructor. -/
def initial : State n m := SbState.initial Reservations.empty

/-- `maxAccepts`: two in the second half of a batch. -/
def maxAccepts (B timeSlot : ℕ) : ℤ := if (timeSlot + 1) * 2 > B then 2 else 1

/-- The array `outAccepts[out]`; `none` is `-1`. -/
abbrev TopTwo (n : ℕ) := Option (Fin n) × Option (Fin n)

/-- An output keeps its longest and its second longest proposal. -/
def keepTopTwo (voqLength : Fin n → Fin m → ℤ) (i : Fin n) (out : Fin m) (kept : TopTwo n) :
    TopTwo n :=
  match kept.1 with
  | none => (some i, kept.2)
  | some first =>
    -- a longer VOQ moves the first proposal to the second place; ties keep the earlier one
    if voqLength i out > voqLength first out then (some i, some first)
    else
      match kept.2 with
      | none => (some first, some i)
      | some second =>
        if voqLength i out > voqLength second out then (some first, some i)
        else (some first, some second)

/-- The body of the accept loop for one output. -/
def acceptOutput (B timeSlot : ℕ) (outAccepts : Fin m → TopTwo n) (acc : PlainAccepting n m)
    (out : Fin m) : Except Fault (PlainAccepting n m) :=
  match (outAccepts out).1 with
  | none => .ok acc
  | some i => do
    let acc' ← acc.serveNow timeSlot out i
    match (outAccepts out).2 with
    | none => .ok acc'
    | some second =>
      if maxAccepts B timeSlot > 1 then acc'.fill (earlierFrames timeSlot) out second
      else .ok acc'

/-- `qps`. -/
def qps (B : ℕ) (draws : TreeDraws n m) (timeSlot : ℕ) (core : Core (Reservations n m) n m) :
    Except Fault (Core (Reservations n m) n m) := do
  let outAccepts ← propose core.voq.getQueueLengthForInput core.voq.voqLength
    (draws.outputs core.voq.bst) (keepTopTwo core.voq.voqLength) draws.shuffle.val
    (fun _ => (none, none))
  let acc ← (List.finRange m).foldlM (acceptOutput B timeSlot outAccepts)
    { toReservations := core.tables, virtualDepartures := [] }
  let voq ← core.voq.handlePacketDepartures acc.virtualDepartures
  .ok { tables := acc.toReservations, voq := voq }

/-- The scheduler as a switch drives it. -/
abbrev model (n m B : ℕ) : SchedulerModel n m := sbModel (qps (n := n) (m := m) B) B

/-! ### The proposals an output keeps -/

/-- The kept proposals as a list, the longest first. -/
def TopTwo.list (kept : TopTwo n) : List (Fin n) := kept.1.toList ++ kept.2.toList

/-- Keeping a new proposal drops one of the old ones or none. -/
theorem keepTopTwo_subperm (voqLength : Fin n → Fin m → ℤ) (i : Fin n) (out : Fin m)
    (kept : TopTwo n) :
    (keepTopTwo voqLength i out kept).list.Subperm (i :: kept.list) := by
  obtain ⟨first, second⟩ := kept
  unfold keepTopTwo
  -- The cases are those of the definition: which places are taken, and who is longer.
  cases first with
  | none => exact List.Subperm.refl _
  | some a =>
    dsimp only
    split
    · exact List.Sublist.subperm (by simp [TopTwo.list])
    · cases second with
      | none => exact (List.Perm.swap i a []).subperm
      | some b =>
        dsimp only
        split
        · -- The second place goes to the new proposal.
          have hswap : [a, i].Perm [i, a] := List.Perm.swap i a []
          exact hswap.subperm.trans (List.Sublist.subperm (by simp [TopTwo.list]))
        · exact List.Sublist.subperm (by simp [TopTwo.list])

/-- `kept` are the two longest of the proposals `ps`, the longest first; of several longest ones
    the first place has the earliest.  A place is empty if there are not enough proposals. -/
structure LongestTwo (length : Fin n → ℤ) (ps : List (Fin n)) (kept : TopTwo n) : Prop where
  first_none : kept.1 = none ↔ ps.length < 1
  second_none : kept.2 = none ↔ ps.length < 2
  first_longest : ∀ i, kept.1 = some i → ∃ earlier later, ps = earlier ++ i :: later ∧
    (∀ j ∈ earlier, length j < length i) ∧ ∀ j ∈ later, length j ≤ length i
  second_longest : ∀ j, kept.2 = some j → j ∈ ps ∧ kept.1 ≠ some j ∧
    ∀ k ∈ ps, kept.1 ≠ some k → length k ≤ length j

namespace LongestTwo

variable {length : Fin n → ℤ} {ps : List (Fin n)} {i j : Fin n}

/-- Before the first proposal both places are empty. -/
theorem nil : LongestTwo length [] (none, none) where
  first_none := by simp
  second_none := by simp
  first_longest := fun i hi => by cases hi
  second_longest := fun j hj => by cases hj

/-- The first proposal of all. -/
theorem single (length : Fin n → ℤ) (i : Fin n) : LongestTwo length [i] (some i, none) where
  first_none := by simp
  second_none := by simp
  first_longest := by
    intro j hj
    cases hj
    exact ⟨[], [], rfl, by simp, by simp⟩
  second_longest := fun j hj => by cases hj

/-- The proposals that an output with an empty first place has seen. -/
theorem eq_nil {kept : TopTwo n} (h : LongestTwo length ps kept) (hkept : kept.1 = none) :
    ps = [] := by
  have hlen := h.first_none.mp hkept
  apply List.eq_nil_of_length_eq_zero
  omega

/-- Nobody is longer than the proposal in the first place. -/
theorem le_first {second : Option (Fin n)} (h : LongestTwo length ps (some i, second)) :
    i ∈ ps ∧ ∀ k ∈ ps, length k ≤ length i := by
  obtain ⟨earlier, later, rfl, hearlier, hlater⟩ := h.first_longest i rfl
  refine ⟨by simp, fun k hk => ?_⟩
  rcases List.mem_append.mp hk with hk | hk
  · exact (hearlier k hk).le
  · rcases List.mem_cons.mp hk with rfl | hk
    · exact le_refl _
    · exact hlater k hk

/-- With an empty second place the first is the only proposal. -/
theorem eq_singleton (h : LongestTwo length ps (some i, none)) : ps = [i] := by
  have hlen := h.second_none.mp rfl
  obtain ⟨hmem, -⟩ := h.le_first
  obtain ⟨k, rfl⟩ := List.length_eq_one_iff.mp
    (show ps.length = 1 by have := List.length_pos_of_mem hmem; omega)
  rw [List.mem_singleton.mp hmem]

/-- There are two proposals once both places are taken. -/
theorem two_le (h : LongestTwo length ps (some i, some j)) : 2 ≤ ps.length := by
  have hlen := h.second_none
  simp only [reduceCtorEq, false_iff, not_lt] at hlen
  exact hlen

/-- A longer proposal takes the first place, and the old first one the second. -/
theorem push_first {a : Fin n} {second : Option (Fin n)}
    (h : LongestTwo length ps (some a, second)) (hi : i ∉ ps) (hlt : length a < length i) :
    LongestTwo length (ps ++ [i]) (some i, some a) where
  first_none := by simp
  second_none := by
    have hpos := List.length_pos_of_mem h.le_first.1
    simp only [reduceCtorEq, List.length_append, List.length_singleton, false_iff]
    omega
  first_longest := by
    intro j hj
    cases hj
    exact ⟨ps, [], rfl, fun k hk => (h.le_first.2 k hk).trans_lt hlt, by simp⟩
  second_longest := by
    intro j hj
    cases hj
    obtain ⟨ha, hmax⟩ := h.le_first
    refine ⟨List.mem_append_left _ ha, fun hia => hi (Option.some.inj hia ▸ ha), ?_⟩
    intro k hk hne
    rcases List.mem_append.mp hk with hk | hk
    · exact hmax k hk
    · exact absurd (congrArg some (List.mem_singleton.mp hk).symm) hne

/-- A proposal that is not longer than the first leaves the first place as it is. -/
theorem first_append {a : Fin n} {second : Option (Fin n)}
    (h : LongestTwo length ps (some a, second)) (hle : length i ≤ length a) :
    ∃ earlier later, ps ++ [i] = earlier ++ a :: later ∧
      (∀ j ∈ earlier, length j < length a) ∧ ∀ j ∈ later, length j ≤ length a := by
  obtain ⟨earlier, later, rfl, hearlier, hlater⟩ := h.first_longest a rfl
  refine ⟨earlier, later ++ [i], by simp, hearlier, fun j hj => ?_⟩
  rcases List.mem_append.mp hj with hj | hj
  · exact hlater j hj
  · exact List.mem_singleton.mp hj ▸ hle

/-- A proposal that is not longer than the first but than all others takes the second place. -/
theorem push_second {a : Fin n} {second : Option (Fin n)}
    (h : LongestTwo length ps (some a, second)) (hi : i ∉ ps) (hle : length i ≤ length a)
    (hlt : ∀ k ∈ ps, k ≠ a → length k ≤ length i) :
    LongestTwo length (ps ++ [i]) (some a, some i) where
  first_none := by simp
  second_none := by
    have hpos := List.length_pos_of_mem h.le_first.1
    simp only [reduceCtorEq, List.length_append, List.length_singleton, false_iff]
    omega
  first_longest := by
    intro j hj
    cases hj
    exact h.first_append hle
  second_longest := by
    intro j hj
    cases hj
    refine ⟨by simp, fun hai => hi (Option.some.inj hai ▸ h.le_first.1), ?_⟩
    intro k hk hne
    rcases List.mem_append.mp hk with hk | hk
    · exact hlt k hk (fun hka => hne (congrArg some hka.symm))
    · rw [List.mem_singleton.mp hk]

/-- A proposal that is longer than none of the two leaves both places as they are. -/
theorem append {a b : Fin n} (h : LongestTwo length ps (some a, some b))
    (hle : length i ≤ length b) : LongestTwo length (ps ++ [i]) (some a, some b) where
  first_none := by simp
  second_none := by
    have htwo := h.two_le
    simp only [reduceCtorEq, List.length_append, List.length_singleton, false_iff]
    omega
  first_longest := by
    intro j hj
    cases hj
    exact h.first_append (hle.trans (h.le_first.2 b (h.second_longest b rfl).1))
  second_longest := by
    intro j hj
    cases hj
    obtain ⟨hb, hab, hmax⟩ := h.second_longest b rfl
    refine ⟨List.mem_append_left _ hb, hab, fun k hk hne => ?_⟩
    rcases List.mem_append.mp hk with hk | hk
    · exact hmax k hk hne
    · exact List.mem_singleton.mp hk ▸ hle

end LongestTwo

/-- One more proposal, of an input that has not proposed before. -/
theorem longestTwo_keepTopTwo {voqLength : Fin n → Fin m → ℤ} {out : Fin m} {ps : List (Fin n)}
    {kept : TopTwo n} (h : LongestTwo (voqLength · out) ps kept) {i : Fin n} (hi : i ∉ ps) :
    LongestTwo (voqLength · out) (ps ++ [i]) (keepTopTwo voqLength i out kept) := by
  obtain ⟨first, second⟩ := kept
  unfold keepTopTwo
  -- The cases are those of the definition: which places are taken, and who is longer.
  cases first with
  | none =>
    obtain rfl := h.eq_nil rfl
    have hsecond := h.second_none.mpr (by simp)
    dsimp only at hsecond ⊢
    rw [hsecond]
    exact LongestTwo.single _ i
  | some a =>
    dsimp only
    split
    next hlt => exact h.push_first hi hlt
    next hge =>
      have hle : voqLength i out ≤ voqLength a out := not_lt.mp hge
      cases second with
      | none =>
        -- Nobody else has proposed so far.
        obtain rfl := h.eq_singleton
        exact h.push_second hi hle (fun k hk hne => absurd (List.mem_singleton.mp hk) hne)
      | some b =>
        obtain ⟨-, -, hmax⟩ := h.second_longest b rfl
        dsimp only
        split
        next hlt =>
          refine h.push_second hi hle (fun k hk hne => ?_)
          exact (hmax k hk (fun hka => hne (Option.some.inj hka).symm)).trans (le_of_lt hlt)
        next hge => exact h.append (not_lt.mp hge)

/-- All proposals to an output, in the order in which they are made. -/
theorem longestTwo_foldl (voqLength : Fin n → Fin m → ℤ) (out : Fin m) {ps : List (Fin n)}
    (hps : ps.Nodup) :
    LongestTwo (voqLength · out) ps
      (ps.foldl (fun kept i => keepTopTwo voqLength i out kept) (none, none)) := by
  induction ps using List.reverseRecOn with
  | nil => exact LongestTwo.nil
  | append_singleton ps i ih =>
    obtain ⟨hps', -, hi⟩ := List.nodup_append.mp hps
    rw [List.foldl_concat]
    exact longestTwo_keepTopTwo (ih hps') (fun hmem => hi i hmem i (by simp) rfl)

/-- Step 1, for every set of proposing inputs and every order of them: unless a sampled VOQ is
    empty, every output keeps the two longest of the proposals made to it. -/
theorem longestTwo_of_propose (len : Fin n → ℤ) (voqLength : Fin n → Fin m → ℤ)
    (sample : Fin n → Option (Fin m)) (shuffle : Shuffle n) :
    Post (propose len voqLength sample (keepTopTwo voqLength) shuffle.val
        (fun _ => (none, none)))
      (fun e => e = .badSample ∧ ¬ GoodSample len voqLength sample)
      (fun outAccepts => ∀ out, LongestTwo (voqLength · out)
        (proposers len sample shuffle.val out) (outAccepts out)) := by
  refine (propose_post (keepTopTwo voqLength) shuffle.val (fun _ => (none, none))).imp ?_
  rintro outAccepts ⟨hfold, -⟩ out
  rw [hfold out]
  exact longestTwo_foldl voqLength out (nodup_proposers shuffle.nodup out)

/-! ### The round -/

variable {B : ℕ}

/-- One output: at most its two kept proposals are granted, each once. -/
theorem acceptOutput_post {t : ℕ} (ht : t < B) (hB : B ≤ bitmapWidth)
    (outAccepts : Fin m → TopTwo n) {sample : Fin n → Option (Fin m)}
    (hins : ∀ o, ∀ i ∈ (outAccepts o).list, sample i = some o) (acc : PlainAccepting n m)
    (out : Fin m) (h : acc.toReservations.Consistent B (t + 1))
    (hfree : ∀ i, sample i = some out → acc.schedules t i = none)
    (hunused : ∀ i, acc.schedules t i ≠ some out) :
    Post (acceptOutput B t outAccepts acc out) (fun _ => False) (fun acc' =>
      acc'.toReservations.Consistent B (t + 1) ∧
      ∃ gs, gs.Sublist ((outAccepts out).list.map (·, out)) ∧
        Granted B (· ≤ t) acc.schedules acc'.schedules acc.virtualDepartures
          acc'.virtualDepartures gs) := by
  have hout := hins out
  unfold acceptOutput
  generalize outAccepts out = kept at hout ⊢
  obtain ⟨first, second⟩ := kept
  dsimp only
  cases first with
  | none => exact ⟨h, [], List.nil_sublist _, Granted.refl ..⟩
  | some i =>
    obtain ⟨acc₁, hrun₁, hcons₁, hgs₁⟩ := PlainAccepting.serveNow_eq_ok ht hB h
      (hfree i (hout i (by simp [TopTwo.list]))) hunused
    simp only [hrun₁, ok_bind]
    cases second with
    | none => exact ⟨hcons₁, [(i, out)], by simp [TopTwo.list], hgs₁⟩
    | some j =>
      dsimp only
      -- Only in the second half of a batch the other proposal gets an earlier slot.
      split
      · refine (PlainAccepting.fill_post ht hB hcons₁ j out).imp ?_
        rintro acc₂ ⟨hcons₂, gs, hsub, hgs₂⟩
        exact ⟨hcons₂, [(i, out)] ++ gs, (List.Sublist.refl [(i, out)]).append hsub,
          hgs₁.trans hgs₂⟩
      · exact ⟨hcons₁, [(i, out)], by simp [TopTwo.list], hgs₁⟩

/-- One round on consistent tables: only the sample can stop it, and it grants no pair twice. -/
theorem qps_grants (hB : B ≤ bitmapWidth) (draws : TreeDraws n m) {t : ℕ} (ht : t < B)
    {core : Core (Reservations n m) n m}
    (h : Sound (fun k (r : Reservations n m) => r.Consistent B k) (t + 1) core)
    (hempty : ∀ i, core.schedules t i = none) :
    Post (qps B draws t core)
      (fun e => e = .badSample ∧ ¬ draws.Good core.voq.bst core.voq.voqLength)
      (fun core' => Sound (fun k (r : Reservations n m) => r.Consistent B k) (t + 1) core' ∧
        ∃ gs, gs.Nodup ∧ Extends (Finset.range B) (· ≤ t) core.schedules core'.schedules gs ∧
          ∀ i o, core'.voq.voqLength i o = core.voq.voqLength i o - gs.count (i, o)) := by
  unfold qps
  refine (propose_post (keepTopTwo core.voq.voqLength) draws.shuffle.val
    (fun _ => (none, none))).bind ?_
  rintro outAccepts ⟨hkept, hpos⟩
  -- What an output kept are distinct proposers.
  have hsub : ∀ o, (outAccepts o).list.Subperm (proposers core.voq.getQueueLengthForInput
      (draws.outputs core.voq.bst) draws.shuffle.val o) := by
    intro o
    rw [hkept o]
    simpa [TopTwo.list] using foldl_keep_subperm TopTwo.list
      (fun i k => keepTopTwo core.voq.voqLength i o k)
      (fun i k => keepTopTwo_subperm core.voq.voqLength i o k) (proposers
      core.voq.getQueueLengthForInput (draws.outputs core.voq.bst) draws.shuffle.val o) (none, none)
  have hprop : ∀ o, ∀ i ∈ (outAccepts o).list, draws.outputs core.voq.bst i = some o := by
    intro o i hi
    exact (mem_proposers.mp ((hsub o).subset hi)).2.2
  refine ((outputLoop_post t (fun acc : PlainAccepting n m => acc.schedules)
    PlainAccepting.virtualDepartures (fun acc => acc.toReservations.Consistent B (t + 1))
    (acceptOutput B t outAccepts) (draws.outputs core.voq.bst) (fun o => (outAccepts o).list) hprop
    (fun acc out hacc => acceptOutput_post ht hB outAccepts hprop acc out hacc)
    (List.finRange m) (List.nodup_finRange m)
    { toReservations := core.tables, virtualDepartures := [] } h.tables
    (fun i o hc => ?_)).mono (fun _ he => he.elim) (fun _ hacc => hacc)).bind ?_
  · exact absurd ((hempty i).symm.trans hc) (Option.some_ne_none o).symm
  · rintro acc ⟨hcons, gs, hgs, hgranted⟩
    have hdep : acc.virtualDepartures = gs := hgranted.departures
    have hnodup : gs.Nodup := by
      refine hgs.nodup (nodup_proposalPairs (List.nodup_finRange m) (fun o => ?_))
      obtain ⟨l, hl, hlsub⟩ := hsub o
      exact hl.nodup_iff.mp ((nodup_proposers draws.shuffle.nodup o).sublist hlsub)
    -- Distinct pairs with a packet each: no VOQ departs more often than it has packets.
    have hpacket : ∀ p ∈ gs, 0 < core.voq.voqLength p.1 p.2 := by
      rintro ⟨i, o⟩ hp
      obtain ⟨-, hi⟩ := mem_proposalPairs.mp (hgs.subset hp)
      exact hpos o i ((hsub o).subset hi)
    obtain ⟨voq, hrun, hexact, hlen⟩ := VoqState.handlePacketDepartures_eq_ok h.voq
      (count_le_of_nodup hnodup hpacket h.voq.nonneg)
    rw [hdep, hrun, ok_bind]
    exact ⟨⟨hcons, hexact⟩, gs, hnodup, hgranted.extended, hlen⟩

theorem qps_post (hB : B ≤ bitmapWidth) (draws : TreeDraws n m) {t : ℕ} (ht : t < B)
    {core : Core (Reservations n m) n m}
    (h : Sound (fun k (r : Reservations n m) => r.Consistent B k) (t + 1) core)
    (hempty : ∀ i, core.schedules t i = none) :
    Post (qps B draws t core)
      (fun e => e = .badSample ∧ ¬ draws.Good core.voq.bst core.voq.voqLength)
      (fun core' => Sound (fun k (r : Reservations n m) => r.Consistent B k) (t + 1) core' ∧
        Grants B t core core') := by
  refine (qps_grants hB draws ht h hempty).imp ?_
  rintro core' ⟨hsound, gs, -, hext, hlen⟩
  exact ⟨hsound, gs, hext, hlen⟩

/-! ### Whole runs -/

/-- The state after slot `t` of a batch, before its end resets the bitmaps: the rows up to `t`
    belong to the batch being filled and the bitmaps describe exactly these. -/
structure AfterSlot (B t : ℕ) (st : State n m) : Prop where
  matching : ∀ f < B, IsMatching (st.tables.schedules f)
  inputBit : ∀ f ≤ t, ∀ i, st.tables.inFlag i f = true ↔ st.tables.schedules f i ≠ none
  outputBit : ∀ f ≤ t, ∀ o, st.tables.outFlag o f = true ↔ ∃ i, st.tables.schedules f i = some o
  laterBits : ∀ f, t < f → (∀ i, st.tables.inFlag i f = false) ∧ ∀ o, st.tables.outFlag o f = false
  leaf : ∀ i (o : Fin m), st.voq.bst i (o + leftStart m) = st.voq.voqLength i o

theorem afterSlot_of_sound {t : ℕ} {st : State n m}
    (h : Sound (fun k (r : Reservations n m) => r.Consistent B k) (t + 1) st.toCore) :
    AfterSlot B t st where
  matching := h.tables.matching
  inputBit := fun _ hf i => h.tables.toTracks.inFlag_iff (Nat.lt_succ_of_le hf) i
  outputBit := fun _ hf o => h.tables.toTracks.outFlag_iff (Nat.lt_succ_of_le hf) o
  laterBits := fun _ hf =>
    ⟨h.tables.toCovers.inFlag_eq_false (not_lt.mpr hf),
      h.tables.toCovers.outFlag_eq_false (not_lt.mpr hf)⟩
  leaf := fun i => (h.voq i).leaf

theorem sound_initial (B : ℕ) :
    Sound (fun k (r : Reservations n m) => r.Consistent B k) 0 (initial : State n m).toCore where
  tables := Reservations.consistent_empty B 0
  voq := VoqState.exact_empty

/-- `schedule()` conserves packets. -/
theorem conserves (hB1 : 1 ≤ B) (hB : B ≤ bitmapWidth) :
    Conserves (model n m B) (fun _ _ _ => True)
      (fun st => Sound (fun k (r : Reservations n m) => r.Consistent B k) (st.cfRelTime % B)
        st.toCore) (fun st => held B st.toCore)
      (fun draws sw st e => ∃ core, enterSlot B sw st = .ok core ∧
        e = .badSample ∧ ¬ draws.Good core.voq.bst core.voq.voqLength) :=
  conserves_of_grants (C := fun _ _ _ => True) (batchInvariant_consistent B) hB1
    (fun _ _ _ _ _ _ => trivial) (fun _ _ _ _ h f hf hne => absurd (h.matching f hf) hne)
    (fun draws _ _ ht hsound hempty _ => qps_post hB draws ht ⟨hsound.tables, hsound.voq⟩ hempty)

/-- In every run of an initially empty switch, after the round of slot `t`: the rows are partial
    matchings, the bitmaps describe the rows up to `t` and nothing else, the trees mirror
    `VOQLength`, no other cell was changed, and the row copied out only names VOQs with a packet.
    After the slot each queue of the switch holds the packets in `VOQLength` and those promised
    to pending rows.  Only a bad sample can stop the slot. -/
theorem batchInvariant_of_run (hB1 : 1 ≤ B) (hB : B ≤ bitmapWidth) {sw : IQSwitch n m}
    (hsw : sw.Empty) {sys : System (model n m B)} (hrun : Run (model n m B) ⟨sw, initial⟩ sys)
    (draws : TreeDraws n m) (channels : Fin n → List (Packet n m)) :
    Post (slotRound (qps B draws) B (sys.switch.readInputs channels) sys.scheduler)
      (fun e => ∃ core, enterSlot B (sys.switch.readInputs channels) sys.scheduler = .ok core ∧
        e = .badSample ∧ ¬ draws.Good core.voq.bst core.voq.voqLength)
      (fun st => AfterSlot B (sys.scheduler.cfRelTime % B) st ∧
        (∀ f i o, f ≠ sys.scheduler.cfRelTime % B → sys.scheduler.schedules f i = some o →
          st.schedules f i = some o) ∧
        ∀ s d, st.inMatch s = some d →
          0 < (sys.switch.readInputs channels).getQueueLength s d) ∧
    Post (switching (model n m B) draws channels sys)
      (fun e => ∃ core, enterSlot B (sys.switch.readInputs channels) sys.scheduler = .ok core ∧
        e = .badSample ∧ ¬ draws.Good core.voq.bst core.voq.voqLength)
      (fun sys' => ∃ st,
        slotRound (qps B draws) B (sys.switch.readInputs channels) sys.scheduler = .ok st ∧
        sys'.scheduler = endSlot B st ∧
        ∀ s d, (sys'.switch.getQueueLength s d : ℤ)
          = st.voq.voqLength s d + pending (Finset.range B) st.schedules s d) := by
  have hcons := conserves (n := n) (m := m) hB1 hB
  have hbal₀ : Balanced (fun st : State n m => held B st.toCore)
      (⟨sw, initial⟩ : System (model n m B)) := held_initial hsw (fun _ _ => rfl)
  have hinv₀ : Sound (fun k (r : Reservations n m) => r.Consistent B k)
      ((initial : State n m).cfRelTime % B) (initial : State n m).toCore := by
    show Sound _ (0 % B) _
    rw [Nat.zero_mod]
    exact sound_initial B
  obtain ⟨hsound, hbal⟩ := hcons.run hrun hinv₀ hbal₀
  constructor
  · -- The round books in the rows up to the slot; the copied row was taken out before it.
    refine (slotRound_post (C := fun _ _ => True) (batchInvariant_consistent B) hB1
      (fun t core ht h hempty _ => qps_post hB draws ht ⟨h.tables, h.voq⟩ hempty) _ hsound
      (fun _ _ => trivial)).and_eq.imp ?_
    rintro st ⟨⟨core, -, hentered, hsound', ⟨gs, hext, -⟩, -, hcopy⟩, hok⟩
    refine ⟨afterSlot_of_sound hsound', fun f i o hf hc => ?_, fun s d hsd => ?_⟩
    · apply hext.kept
      rw [hentered.schedules, Function.update_of_ne hf]
      exact hc
    · -- The call returns what the end of the slot makes of `st`, with the same `_in_match`.
      have hcall : (model n m B).schedule draws (sys.switch.readInputs channels) sys.scheduler
          = .ok (endSlot B st) := by
        show schedule _ _ _ _ = _
        rw [schedule, hok, ok_bind]
      exact hcons.served draws channels hsound trivial hbal hcall hsd
  · refine (hcons.switching_post draws channels hsound trivial hbal).and_eq.imp ?_
    rintro sys' ⟨⟨-, hbal'⟩, hok⟩
    obtain ⟨st, hst, hend⟩ := bind_eq_ok.mp (schedule_of_switching hok)
    have hend' : endSlot B st = sys'.scheduler := Except.ok.inj hend
    refine ⟨st, hst, hend'.symm, fun s d => ?_⟩
    rw [hbal' s d, ← hend']
    show held B (endSlot B st).toCore s d = _
    rw [held, show (endSlot B st).toCore.schedules = st.schedules from endSlot_schedules B st]
    rfl

/-- Both inputs of a switch propose to output `0` in the second slot of a batch: one gets the slot
    itself, the other the slot before. -/
theorem afterSlot_second_half :
    ∃ st : State 2 2, (st.schedules 1 1 = some 0 ∧ st.schedules 0 0 = some 0) ∧
      AfterSlot 2 1 st := by
  let draws : TreeDraws 2 2 := ⟨⟨[1, 0], by decide⟩, fun _ _ => some 0⟩
  let channels : Fin 2 → List (Packet 2 2) := fun i => [⟨i, 0, 0, 0⟩]
  obtain ⟨⟨sys, st⟩, hrun, hst⟩ := exists_of_returns
    (x := do
      let sys ← switching (model 2 2 2) draws (fun _ => [])
        ⟨.simplified ⟨fun _ _ => 0, [], []⟩, initial⟩
      let st ← slotRound (qps 2 draws) 2 (sys.switch.readInputs channels) sys.scheduler
      .ok (sys, st))
    (p := fun a => decide (a.1.scheduler.cfRelTime % 2 = 1 ∧ a.2.schedules 1 1 = some 0 ∧
      a.2.schedules 0 0 = some 0)) (by decide)
  obtain ⟨sys', hslot, hrun'⟩ := bind_eq_ok.mp hrun
  obtain ⟨st', hround, hpair⟩ := bind_eq_ok.mp hrun'
  obtain ⟨rfl, rfl⟩ := Prod.mk.inj (Except.ok.inj hpair)
  obtain ⟨htime, hcells⟩ := of_decide_eq_true hst
  refine ⟨st', hcells, ?_⟩
  rw [← htime]
  exact ((batchInvariant_of_run (by decide) (by decide) (fun _ _ => rfl)
    (Run.step draws (fun _ => []) .refl hslot) draws channels).1.of_ok hround).1

end HalfHalfOblivious

end SbQps

end SschedSimulator
