import SschedSimulator.Foundation.Lockstep
import SschedSimulator.Scheduler.Factory

namespace SschedSimulator

open Foundation

/-!
# `reset()` of the schedulers

A scheduler that has been reset should be like a new one: in every continuation the two dispatch the
same matchings, or stop at the same fault.  Most schedulers read nothing of the former run that a
reset leaves, beyond matchings that they overwrite.

* `SchedulerModel.Indistinguishable` — no continuation tells two states apart;
* `SchedulerConf.ResetsFully` — when a reset in a state makes a scheduler like a new one;
* `SchedulerConf.reset_indistinguishable` — it does so in every reachable state that meets the
  condition;
* `SchedulerConf.not_reset_indistinguishable` — iSLIP, edge colouring and the round-robin window
  have reachable states in which it does not.
-/

variable {n m : ℕ}

/-- No continuation tells two states of a scheduler apart by the matchings of its slots. -/
def SchedulerModel.Indistinguishable (S : SchedulerModel n m) (st st' : S.State) : Prop :=
  ∀ (slots : ℕ → S.Input × IQSwitch n m) (T : ℕ),
    Lockstep (fun a b => S.inMatch a = S.inMatch b)
      (steps (fun t a => S.schedule (slots t).1 (slots t).2 a) st (T + 1))
      (steps (fun t a => S.schedule (slots t).1 (slots t).2 a) st' (T + 1))

/-- It is enough that the first call does the same. -/
theorem SchedulerModel.Indistinguishable.of_schedule_eq {S : SchedulerModel n m} {st st' : S.State}
    (h : ∀ input sw, S.schedule input sw st = S.schedule input sw st') :
    S.Indistinguishable st st' := by
  intro slots T
  refine (Lockstep.steps (R := (· = ·)) (.of_eq (h _ _)) (fun t a b hab => ?_) T).mono
    (fun a b hab => congrArg S.inMatch hab)
  subst hab
  exact .refl (fun _ => rfl) _

/-! ### Schedulers that do not read the last matching -/

namespace SbQps

theorem SbState.indistinguishable_reset {τ D : Type} [BatchTables τ n m]
    (qps : D → ℕ → Core τ n m → Except Fault (Core τ n m)) (B : ℕ) (tables : τ)
    (st : SbState τ n m) :
    (sbModel qps B).Indistinguishable (SbState.reset tables st) (SbState.initial tables) :=
  .of_schedule_eq (fun _ _ => rfl)

theorem Conditional.indistinguishable_reset (B numIterations : ℕ) (st : Conditional.State n m) :
    (Conditional.model n B numIterations m).Indistinguishable (Conditional.reset B st)
      (Conditional.initial n B m) :=
  .of_schedule_eq (fun _ _ => rfl)

theorem Fixed.indistinguishable_reset (cfg : Fixed.Config) (sort : DescSort (Fin n))
    (st : Fixed.State n m) :
    (Fixed.model n m cfg sort).Indistinguishable (Fixed.reset cfg st) (Fixed.State.initial cfg) :=
  .of_schedule_eq (fun _ _ => rfl)

end SbQps

theorem RandomizedMaximal.indistinguishable_reset (st : RandomizedMaximal.State n m) :
    (RandomizedMaximal.model n m).Indistinguishable (RandomizedMaximal.reset st)
      RandomizedMaximal.initial :=
  .of_schedule_eq (fun _ _ => rfl)

theorem Qps.indistinguishable_reset (cfg : Qps.Config) (st : Qps.State n m) :
    (Qps.model n m cfg).Indistinguishable (Qps.reset st) Qps.initial :=
  .of_schedule_eq (fun _ _ => rfl)

/-- A reset sets the pointers to `0`, so they have to be constructed so. -/
theorem Islip.indistinguishable_reset {grantPointer : Fin m → Int32} {acceptPointer : Fin n → Int32}
    (hgrant : ∀ o, grantPointer o = 0) (haccept : ∀ i, acceptPointer i = 0) (iterations : ℕ)
    (st : Islip.State n m ℤ) :
    (Islip.Ints.model n m iterations).Indistinguishable (Islip.reset st)
      (Islip.initial (fun o => (grantPointer o).toInt) (fun i => (acceptPointer i).toInt)) := by
  obtain rfl : grantPointer = fun _ => 0 := funext hgrant
  obtain rfl : acceptPointer = fun _ => 0 := funext haccept
  exact .of_schedule_eq (fun _ _ => rfl)

/-! ### Sliding windows -/

namespace SlidingWindowQps

/-- The states agree in all but `_in_match`. -/
structure SameTables (a b : State n m) : Prop where
  booking : a.toBooking = b.toBooking
  queues : a.inputQueues = b.inputQueues
  time : a.cfRelTime = b.cfRelTime

theorem sameTables_reset (cfg : Config) (st : State n m) :
    SameTables (reset cfg st) (State.initial cfg) := ⟨rfl, rfl, rfl⟩

/-- A dispatch overwrites `_in_match`. -/
theorem SameTables.dispatchSchedule_eq {a b : State n m} (h : SameTables a b) (timeSlot : ℕ) :
    dispatchSchedule timeSlot a = dispatchSchedule timeSlot b := by
  obtain ⟨booking, queues, time, inMatch⟩ := a
  obtain ⟨rfl, rfl, rfl⟩ := h
  rfl

/-- A round does not read it. -/
theorem SameTables.qps_lockstep {a b : State n m} (h : SameTables a b) (cfg : Config)
    (sort : DescSort (Fin n)) (draws : Draws n m) (sw : IQSwitch n m) (timeSlot : ℕ) :
    Lockstep SameTables (qps cfg sort draws sw timeSlot a) (qps cfg sort draws sw timeSlot b) := by
  obtain ⟨booking, queues, time, inMatch⟩ := a
  obtain ⟨rfl, rfl, rfl⟩ := h
  refine Lockstep.bind_same _ (fun outAccepts => Lockstep.bind_same _ (fun acc => ?_))
  exact Lockstep.bind_same _ (fun queues => ⟨rfl, rfl, rfl⟩)

/-- A call does not depend on it. -/
theorem SameTables.schedule_eq {a b : State n m} (h : SameTables a b) (cfg : Config)
    (sort : DescSort (Fin n)) (draws : Draws n m) (sw : IQSwitch n m) :
    schedule cfg sort draws sw a = schedule cfg sort draws sw b := by
  unfold schedule dispatchIf
  rw [h.time]
  cases cfg.batching with
  | true =>
    simp only [if_true]
    rw [h.dispatchSchedule_eq]
  | false =>
    simp only [Bool.false_eq_true, if_false, Bool.not_false, if_true, ok_bind]
    apply Lockstep.eq
    refine (h.qps_lockstep cfg sort draws sw _).bind (fun a' b' h' => ?_)
    rw [h'.dispatchSchedule_eq]
    exact .of_eq rfl

theorem indistinguishable_reset (cfg : Config) (sort : DescSort (Fin n)) (st : State n m) :
    (model n m cfg sort).Indistinguishable (reset cfg st) (State.initial cfg) :=
  .of_schedule_eq (fun draws sw => (sameTables_reset cfg st).schedule_eq cfg sort draws sw)

end SlidingWindowQps

namespace SwQpsBestFit

open SlidingWindowQps (SameTables sameTables_reset)

theorem schedule_eq_of_sameTables {a b : State n m} (h : SameTables a b) (B : ℕ)
    (sort : DescSort (Fin n)) (maxMatching : Solver) (draws : Draws n m) (sw : IQSwitch n m) :
    schedule B sort maxMatching draws sw a = schedule B sort maxMatching draws sw b := by
  have hqps : Lockstep SameTables (qps B sort maxMatching draws sw (b.cfRelTime % B) a)
      (qps B sort maxMatching draws sw (b.cfRelTime % B) b) := by
    obtain ⟨booking, queues, time, inMatch⟩ := a
    obtain ⟨rfl, rfl, rfl⟩ := h
    refine Lockstep.bind_same _ (fun outAccepts => Lockstep.bind_same _ (fun acc => ?_))
    exact Lockstep.bind_same _ (fun queues => ⟨rfl, rfl, rfl⟩)
  unfold schedule
  rw [h.time]
  apply Lockstep.eq
  refine hqps.bind (fun a' b' h' => ?_)
  rw [h'.dispatchSchedule_eq]
  exact .of_eq rfl

theorem indistinguishable_reset (B : ℕ) (sort : DescSort (Fin n)) (maxMatching : Solver)
    (st : State n m) :
    (model n m B sort maxMatching).Indistinguishable (SlidingWindowQps.reset (window B) st)
      (SlidingWindowQps.State.initial (window B)) :=
  .of_schedule_eq (fun draws sw =>
    schedule_eq_of_sameTables (sameTables_reset (window B) st) B sort maxMatching draws sw)

end SwQpsBestFit

namespace SlidingWindowRr

/-- The starts of two rankings make no difference: one proposal is kept at most, or they agree. -/
abbrev SameRanking (cfg : Config) (previous previous' : Fin n → ℕ) : Prop :=
  SlidingWindowQps.toSizeT cfg.maxAccepts ≤ 1 ∨ previous = previous'

/-- The states differ at most in `_in_match` and in rankings that make no difference. -/
structure SameTables (cfg : Config) (a b : State n m) : Prop where
  booking : a.toBooking = b.toBooking
  queues : a.inputQueues = b.inputQueues
  time : a.cfRelTime = b.cfRelTime
  ranking : SameRanking cfg a.previousLargestInput b.previousLargestInput

/-- The states differ at most in rankings that make no difference. -/
structure SameMatch (cfg : Config) (a b : State n m) : Prop extends SameTables cfg a b where
  inMatch : a.inMatch = b.inMatch

variable {cfg : Config} {a b : State n m}

/-- A dispatch overwrites `_in_match`. -/
theorem SameTables.dispatchSchedule_lockstep (h : SameTables cfg a b) (timeSlot : ℕ) :
    Lockstep (SameMatch cfg) (dispatchSchedule timeSlot a) (dispatchSchedule timeSlot b) := by
  obtain ⟨booking, queues, previous, time, inMatch⟩ := a
  obtain ⟨rfl, rfl, rfl, hranking⟩ := h
  exact Lockstep.bind_same _ (fun b' => ⟨⟨rfl, rfl, rfl, hranking⟩, rfl⟩)

/-- When at most one proposal is kept, no output has two. -/
theorem propose_length (hone : SlidingWindowQps.toSizeT cfg.maxAccepts ≤ 1)
    (shuffle : Shuffle n) (queues : Fin n → RoundRobinSampler m) :
    Post (propose cfg shuffle queues) (fun _ => True)
      (fun acc => ∀ out, (acc.outAccepts out).length ≤ 1) := by
  refine Post.foldlM (fun _ => Nat.zero_le 1) (fun i _ acc hacc => ?_)
  unfold proposeInput
  split
  · exact hacc
  · split
    · trivial
    · rename_i out q _
      refine Post.require_bind (fun _ => trivial) (fun _ out' => ?_)
      dsimp only
      by_cases hout : out' = out
      · subst hout
        rw [Function.update_self, SlidingWindowQps.keep]
        split
        · -- Only an empty list is extended.
          rw [List.length_append, List.length_singleton]
          omega
        · exact hacc out'
      · rw [Function.update_of_ne hout]
        exact hacc out'

/-- Sorting a single proposal. -/
theorem sortProposals_eq_self (previous : ℕ) {ins : List (Fin n)} (h : ins.length ≤ 1) :
    sortProposals previous ins = ins := by
  cases ins with
  | nil => rfl
  | cons i rest =>
    rw [List.length_cons] at h
    obtain rfl : rest = [] := List.length_eq_zero_iff.mp (by omega)
    rfl

/-- The accept phases of the two states. -/
structure SameAccepting (cfg : Config) (acc acc' : RoundRobinAccepting n m) : Prop where
  accepting : acc.toAccepting = acc'.toAccepting
  ranking : SameRanking cfg acc.previousLargestInput acc'.previousLargestInput

/-- A single proposal is accepted in the same way wherever the ranking starts. -/
theorem SameAccepting.acceptOutput {acc acc' : RoundRobinAccepting n m}
    (h : SameAccepting cfg acc acc') {outAccepts : Fin m → List (Fin n)}
    (hlen : SlidingWindowQps.toSizeT cfg.maxAccepts ≤ 1 → ∀ out, (outAccepts out).length ≤ 1)
    (timeSlot : ℕ) (out : Fin m) :
    Lockstep (SameAccepting cfg) (acceptOutput cfg timeSlot outAccepts acc out)
      (acceptOutput cfg timeSlot outAccepts acc' out) := by
  obtain ⟨accepting, previous⟩ := acc
  obtain ⟨rfl, hone | rfl⟩ := h
  · unfold SlidingWindowRr.acceptOutput
    simp only [sortProposals_eq_self _ (hlen hone out)]
    split
    · exact ⟨rfl, .inl hone⟩
    · split
      · exact Lockstep.bind_same _ (fun _ => ⟨rfl, .inl hone⟩)
      · exact rfl
  · exact Lockstep.refl (fun _ => ⟨rfl, .inr rfl⟩) _

/-- A round does not depend on rankings that make no difference. -/
theorem SameTables.qps_lockstep (h : SameTables cfg a b) (shuffle : Shuffle n) (sw : IQSwitch n m)
    (timeSlot : ℕ) :
    Lockstep (fun a' b' => SameTables cfg a' b' ∧ a'.inMatch = a.inMatch ∧ b'.inMatch = b.inMatch)
      (qps cfg shuffle sw timeSlot a) (qps cfg shuffle sw timeSlot b) := by
  have hlen (queues : Fin n → RoundRobinSampler m) : Post (propose cfg shuffle queues)
      (fun _ => True) (fun acc => SlidingWindowQps.toSizeT cfg.maxAccepts ≤ 1 →
        ∀ out, (acc.outAccepts out).length ≤ 1) := by
    by_cases hone : SlidingWindowQps.toSizeT cfg.maxAccepts ≤ 1
    · exact (propose_length hone shuffle queues).imp (fun acc hacc _ => hacc)
    · exact (Post.top _).imp (fun acc _ h1 => absurd h1 hone)
  obtain ⟨booking, queues, previous, time, inMatch⟩ := a
  obtain ⟨rfl, rfl, rfl, hranking⟩ := h
  refine Lockstep.bind_post (hlen _) (fun proposed hprop => ?_)
  refine Lockstep.bind (R := SameAccepting cfg) ?_ (fun acc acc' hacc => ?_)
  · exact Lockstep.foldlM ⟨rfl, hranking⟩ (fun out _ acc acc' hacc =>
      hacc.acceptOutput hprop timeSlot out)
  · unfold handlePacketDepartures
    rw [hacc.accepting]
    exact Lockstep.bind_same _ (fun queues => ⟨⟨rfl, rfl, rfl, hacc.ranking⟩, rfl, rfl⟩)

/-- Neither does a call. -/
theorem SameTables.schedule_lockstep (h : SameTables cfg a b) (shuffle : Shuffle n)
    (sw : IQSwitch n m) :
    Lockstep (SameMatch cfg) (schedule cfg shuffle sw a) (schedule cfg shuffle sw b) := by
  have htick : ∀ a b : State n m, SameMatch cfg a b → Lockstep (ε := Fault) (SameMatch cfg)
      (.ok { a with cfRelTime := a.cfRelTime + 1 }) (.ok { b with cfRelTime := b.cfRelTime + 1 }) :=
    fun a b hab => ⟨⟨hab.booking, hab.queues, congrArg (· + 1) hab.time, hab.ranking⟩, hab.inMatch⟩
  unfold schedule dispatchIf
  rw [h.time]
  cases cfg.batching with
  | true =>
    simp only [if_true, Bool.not_true, Bool.false_eq_true, if_false, ok_bind]
    refine (h.dispatchSchedule_lockstep _).bind (fun a₁ b₁ h₁ => ?_)
    refine (h₁.toSameTables.qps_lockstep shuffle sw _).bind (fun a₂ b₂ h₂ => ?_)
    exact htick a₂ b₂ ⟨h₂.1, h₂.2.1.trans (h₁.inMatch.trans h₂.2.2.symm)⟩
  | false =>
    simp only [Bool.false_eq_true, if_false, Bool.not_false, if_true, ok_bind]
    refine (h.qps_lockstep shuffle sw _).bind (fun a₁ b₁ h₁ => ?_)
    exact (h₁.1.dispatchSchedule_lockstep _).bind htick

/-- A reset keeps `previousLargestInput`, which must not make a difference. -/
theorem indistinguishable_reset {st : State n m}
    (h : SlidingWindowQps.toSizeT cfg.maxAccepts ≤ 1 ∨ ∀ i, st.previousLargestInput i = 0) :
    (model n m cfg).Indistinguishable (reset cfg st) (State.initial cfg) := by
  have hsame : SameTables cfg (reset cfg st) (State.initial cfg) :=
    ⟨rfl, rfl, rfl, h.imp id funext⟩
  intro slots T
  have hfirst : Lockstep (SameMatch cfg) (schedule cfg (slots 0).1 (slots 0).2 (reset cfg st))
      (schedule cfg (slots 0).1 (slots 0).2 (State.initial cfg)) := hsame.schedule_lockstep _ _
  have hstep : ∀ t a b, SameMatch cfg a b → Lockstep (SameMatch cfg)
      (schedule cfg (slots t).1 (slots t).2 a) (schedule cfg (slots t).1 (slots t).2 b) :=
    fun t a b hab => hab.toSameTables.schedule_lockstep _ _
  exact (Lockstep.steps hfirst hstep T).mono (fun a b hab => hab.inMatch)

end SlidingWindowRr

/-! ### Edge colouring -/

namespace EdgeColoring

/-- Between calls no row of the frame being collected is written. -/
structure Cleared (st : State n m) : Prop where
  size : st.schedules.size = st.batchSize
  row : ∀ c i, st.schedules.row c i = none

/-- The rows beyond the frame are not written while its edges are coloured. -/
structure Confined (B : ℕ) (col : Coloring n m) : Prop where
  frameSizeNext : col.frameSizeNext = B
  size : col.schedules.size = B
  row : ∀ c, B ≤ c → ∀ i, col.schedules.row c i = none

theorem colorEdge_confined (draws : Draws) {B : ℕ} {col : Coloring n m} (h : Confined B col)
    (batchSize : ℕ) (e : Fin n × Fin m) :
    Post (colorEdge draws batchSize col e) (fun _ => True) (Confined B) := by
  unfold colorEdge
  refine Post.require_bind (fun _ => trivial) (fun _ => ?_)
  refine (Post.top _).bind (fun freeColors _ => ?_)
  · split
    · exact (greedy_post e.1 e.2 col).mono (fun _ he => he) (fun _ hf => hf.elim)
    · dsimp only
      generalize draws.color col.drawn freeColors.length = c
      refine Post.bind (P := Confined B) ?_ (fun col' h' => ?_)
      · exact Post.require_bind (fun _ => trivial)
          (fun _ => ⟨h.frameSizeNext, h.size, h.row⟩)
      · refine Post.bind (P := fun s => s.size = B ∧ ∀ c, B ≤ c → ∀ i, s.row c i = none) ?_
          (fun s hs => ⟨h'.frameSizeNext, hs.1, hs.2⟩)
        refine Post.require_bind (fun _ => trivial) (fun hc => ⟨h'.size, ?_⟩)
        intro c' hc' i
        show update₂ col'.schedules.row c e.1 (some e.2) c' i = none
        rw [update₂_apply, if_neg (by have := h'.size; omega)]
        exact h'.row c' hc' i

theorem cleared_initial (B : ℕ) : Cleared (.initial B : State n m) := ⟨rfl, fun _ _ => rfl⟩

theorem Cleared.reset {st : State n m} (h : Cleared st) (B : ℕ) : Cleared (reset B st) where
  size := rfl
  row := by
    intro c i
    show (if c < st.schedules.size then st.schedules.row c else fun _ => none) i = none
    split
    · exact h.row c i
    · rfl

/-- The dispatch works on the former frame. -/
theorem Cleared.dispatchPre {st : State n m} (h : Cleared st) :
    Post (dispatchPre { st with cfRelTime := st.cfRelTime + 1 }) (· = .frameTime) Cleared := by
  unfold EdgeColoring.dispatchPre
  split
  · exact ⟨h.size, h.row⟩
  · exact Post.require_bind (fun _ => rfl) (fun _ => ⟨h.size, h.row⟩)

/-- A frame is coloured from cleared rows. -/
theorem Cleared.confined {st : State n m} (h : Cleared st) :
    Confined st.batchSize (.start st.batchSize st.schedules) :=
  ⟨rfl, h.size, fun c _ i => h.row c i⟩

/-- The end of a frame clears its rows. -/
theorem Cleared.schedule {st : State n m} (h : Cleared st) (draws : Draws) (sw : IQSwitch n m) :
    Post (schedule draws sw st) (fun _ => True) Cleared := by
  refine (h.dispatchPre.mono (fun _ _ => trivial) (fun _ h₀ => h₀)).bind (fun st₀ h₀ => ?_)
  dsimp only
  split
  · exact ⟨h₀.size, h₀.row⟩
  · have hcol : Post (colorFrame draws (handleArrivals sw st₀)) (fun _ => True)
        (Confined st₀.batchSize) :=
      Post.foldlM h₀.confined (fun e _ col hcol => colorEdge_confined draws hcol _ e)
    refine hcol.bind (fun col hcol => (Post.top _).bind (fun _ _ => (Post.top _).bind
      (fun _ _ => ⟨hcol.size.trans hcol.frameSizeNext.symm, fun c i => ?_⟩)))
    show (if c < col.frameSizeNext then fun _ => none else col.schedules.row c) i = none
    split
    · rfl
    · rename_i hc
      rw [hcol.frameSizeNext] at hc
      exact hcol.row c (not_lt.mp hc) i

/-- The first frame does not write `_in_match`, which a reset keeps. -/
theorem indistinguishable_reset {st : State n m} (h : Cleared st)
    (hmatch : ∀ i, st.inMatch i = none) (B : ℕ) :
    (model n m).Indistinguishable (EdgeColoring.reset B st) (.initial B) := by
  have hrows : (EdgeColoring.reset B st).schedules = .null B :=
    congrArg (Schedules.mk B) (funext₂ (h.reset B).row)
  have heq : EdgeColoring.reset B st = .initial B := by
    unfold EdgeColoring.reset
    rw [show st.inMatch = fun _ => none from funext hmatch]
    exact congrArg (fun s => { State.initial B with schedules := s }) hrows
  rw [heq]
  exact .of_schedule_eq (fun _ _ => rfl)

end EdgeColoring

/-! ### Maximum weight -/

namespace MaxWeight.Square

/-- Only edges have a weight. -/
def OnEdges (edges : Fin n → Fin n → ℕ) (weight : ℕ → ℤ) : Prop :=
  ∀ e, (∀ s d, edges s d ≠ e) → weight e = 0

theorem OnEdges.update {edges : Fin n → Fin n → ℕ} {weight : ℕ → ℤ} (h : OnEdges edges weight)
    (s d : Fin n) (w : ℤ) : OnEdges edges (Function.update weight (edges s d) w) := by
  intro e he
  rw [Function.update_of_ne (he s d).symm]
  exact h e he

theorem OnEdges.handleArrivals {edges : Fin n → Fin n → ℕ} {weight : ℕ → ℤ}
    (h : OnEdges edges weight) (arrivals : List (Fin n × Fin m)) :
    Post (handleArrivals edges arrivals weight) (fun _ => True) (OnEdges edges) := by
  refine Post.foldlM h (fun sd _ weight' h' => ?_)
  split
  · exact h'.update _ _ _
  · trivial

theorem OnEdges.handleDepartures {edges : Fin n → Fin n → ℕ} {weight : ℕ → ℤ}
    (h : OnEdges edges weight) (sw : IQSwitch n m) (inMatch : Fin n → Option (Fin n)) :
    Post (handleDepartures edges sw inMatch weight) (fun _ => True) (OnEdges edges) := by
  refine Post.foldlM h (fun s _ weight' h' => ?_)
  unfold departInput
  split
  · exact h'
  · refine (Post.top _).bind (fun len _ => ?_)
    split
    · exact (Post.top _).bind (fun _ _ => h'.update _ _ _)
    · exact h'

/-- `reset_weight` leaves no weight. -/
theorem OnEdges.resetWeight_eq {edges : Fin n → Fin n → ℕ} {weight : ℕ → ℤ}
    (h : OnEdges edges weight) : resetWeight edges weight = fun _ => 0 := by
  have hloop : ∀ (ps : List (Fin n × Fin n)) (weight : ℕ → ℤ) (e : ℕ),
      ((∀ p ∈ ps, edges p.1 p.2 ≠ e) → weight e = 0) →
        ps.foldl (fun weight p => Function.update weight (edges p.1 p.2) 0) weight e = 0 := by
    intro ps
    induction ps with
    | nil => exact fun weight e hw => hw (fun p hp => absurd hp List.not_mem_nil)
    | cons p rest ih =>
      intro weight e hw
      refine ih _ e (fun hrest => ?_)
      show Function.update weight (edges p.1 p.2) 0 e = 0
      by_cases he : e = edges p.1 p.2
      · rw [he, Function.update_self]
      · rw [Function.update_of_ne he]
        refine hw (fun q hq => ?_)
        rcases List.mem_cons.mp hq with rfl | hq
        · exact Ne.symm he
        · exact hrest q hq
  funext e
  exact hloop _ weight e (fun hall => h e (fun s d => hall (s, d) (mem_portPairs (s, d))))

/-- What calls leave as the constructor made it. -/
structure Fresh (outMatchEnabled : Bool) (st : State n n) : Prop where
  g : st.g = (construct n n).g
  left : st.left = (construct n n).left
  right : st.right = (construct n n).right
  edges : st.edges = (construct n n).edges
  weight : OnEdges st.edges st.weight
  outMatch : outMatchEnabled = false → st.outMatch = (construct n n).outMatch

theorem fresh_construct (outMatchEnabled : Bool) : Fresh outMatchEnabled (construct n n) :=
  ⟨rfl, rfl, rfl, rfl, fun e _ => (construct_spec n n).2 e, fun _ => rfl⟩

theorem Fresh.reset {outMatchEnabled : Bool} {st : State n n} (h : Fresh outMatchEnabled st) :
    Fresh outMatchEnabled (reset st) := by
  refine ⟨h.g, h.left, h.right, h.edges, ?_, h.outMatch⟩
  intro e _
  exact congrFun h.weight.resetWeight_eq e

theorem Fresh.schedule {outMatchEnabled : Bool} {st : State n n} (h : Fresh outMatchEnabled st)
    (mwm : Solver) (sw : IQSwitch n m) :
    Post (schedule mwm outMatchEnabled sw st) (fun _ => True) (Fresh outMatchEnabled) := by
  refine (h.weight.handleArrivals sw.getArrivals).bind (fun weight hweight => ?_)
  refine (Post.top _).bind (fun inMatch _ => ?_)
  refine (hweight.handleDepartures sw inMatch).bind (fun weight' hweight' => ?_)
  cases outMatchEnabled with
  | true => exact (Post.top _).bind (fun _ _ => ⟨h.g, h.left, h.right, h.edges, hweight', nofun⟩)
  | false => exact ⟨h.g, h.left, h.right, h.edges, hweight', h.outMatch⟩

theorem indistinguishable_reset {outMatchEnabled : Bool} {st : State n n}
    (h : Fresh outMatchEnabled st) (mwm : Solver) :
    (model n m mwm outMatchEnabled).Indistinguishable (MaxWeight.reset st) (construct n n) := by
  have hzero : (construct n n).weight = fun _ => 0 := funext (construct_spec n n).2
  have hreset : MaxWeight.reset st
      = { construct n n with inMatch := st.inMatch, outMatch := st.outMatch } := by
    unfold MaxWeight.reset
    rw [h.weight.resetWeight_eq, h.g, h.left, h.right, h.edges, ← hzero]
  refine .of_schedule_eq (fun _ sw => ?_)
  rw [hreset]
  cases outMatchEnabled with
  | true => rfl
  | false =>
    rw [h.outMatch rfl]
    rfl

end MaxWeight.Square

namespace SchedulerConf

/-- When a reset makes a scheduler like a new one: iSLIP has to be constructed with pointers `0`,
    edge colouring has to have an empty matching, and the round-robin window a single proposal for
    each output or rankings that start at `0`. -/
def ResetsFully : (conf : SchedulerConf n m) → conf.model.State → Prop
  | islip _ grantPointer acceptPointer, _ =>
    (∀ o, grantPointer o = 0) ∧ ∀ i, acceptPointer i = 0
  | randomizedEdgeColoring _, st => ∀ i, EdgeColoring.State.inMatch st i = none
  | slidingWindowRr cfg, st => SlidingWindowQps.toSizeT cfg.maxAccepts ≤ 1 ∨
    ∀ i, SlidingWindowRr.State.previousLargestInput st i = 0
  | _, _ => True

/-- A dummy never changes. -/
theorem eq_create_of_reachable {st : (dummy : SchedulerConf n m).model.State}
    (h : Reachable dummy st) : st = create dummy := by
  induction h with
  | create => rfl
  | schedule input sw _ hok ih => exact (Except.ok.inj hok).symm.trans ih
  | reset _ ih => exact ih

theorem fresh_of_reachable {mwm : MaxWeight.Solver} {outMatchEnabled : Bool}
    {st : (maximumWeight mwm outMatchEnabled : SchedulerConf n m).model.State}
    (h : Reachable (maximumWeight mwm outMatchEnabled) st) :
    MaxWeight.Square.Fresh (n := n) outMatchEnabled st := by
  induction h with
  | create => exact MaxWeight.Square.fresh_construct outMatchEnabled
  | schedule input sw _ hok ih => exact (ih.schedule mwm sw).of_ok hok
  | reset _ ih => exact ih.reset

theorem cleared_of_reachable {frameSize : ℕ}
    {st : (randomizedEdgeColoring frameSize : SchedulerConf n m).model.State}
    (h : Reachable (randomizedEdgeColoring frameSize) st) :
    EdgeColoring.Cleared (n := n) (m := m) st := by
  induction h with
  | create => exact EdgeColoring.cleared_initial frameSize
  | schedule input sw _ hok ih => exact (ih.schedule input sw).of_ok hok
  | reset _ ih => exact ih.reset frameSize

/-- After a reset in any reachable state that meets the condition, every continuation dispatches
    what it dispatches from a new scheduler. -/
theorem reset_indistinguishable (conf : SchedulerConf n m) {st : conf.model.State}
    (hst : conf.Reachable st) (hreset : conf.ResetsFully st) :
    conf.model.Indistinguishable (conf.reset st) conf.create := by
  -- Where the reset forgets less than it should, `hreset` is what is missing.
  cases conf with
  | dummy =>
    refine .of_schedule_eq (fun input sw => ?_)
    rw [eq_create_of_reachable hst]
    rfl
  | maximumWeight mwm outMatchEnabled =>
    exact MaxWeight.Square.indistinguishable_reset (fresh_of_reachable hst) mwm
  | randomizedMaximal => exact RandomizedMaximal.indistinguishable_reset st
  | islip iterations grantPointer acceptPointer =>
    exact Islip.indistinguishable_reset hreset.1 hreset.2 iterations st
  | qps cfg => exact Qps.indistinguishable_reset cfg st
  | randomizedEdgeColoring frameSize =>
    exact EdgeColoring.indistinguishable_reset (cleared_of_reachable hst) hreset frameSize
  | sbQpsHalfHalfOblivious frameSize => exact SbQps.SbState.indistinguishable_reset _ _ _ st
  | sbQpsHalfHalfAvailabilityAware frameSize sort =>
    exact SbQps.SbState.indistinguishable_reset _ _ _ st
  | sbQpsHalfHalfMI frameSize sort => exact SbQps.SbState.indistinguishable_reset _ _ _ st
  | sbQpsThreeThirdMI frameSize sort => exact SbQps.SbState.indistinguishable_reset _ _ _ st
  | sbQpsHalfHalfMA frameSize sort => exact SbQps.SbState.indistinguishable_reset _ _ _ st
  | sbQpsHalfHalfMAMI frameSize sort => exact SbQps.SbState.indistinguishable_reset _ _ _ st
  | sbQpsAdaptive frameSize sort => exact SbQps.SbState.indistinguishable_reset _ _ _ st
  | sbQpsBasic frameSize => exact SbQps.SbState.indistinguishable_reset _ _ _ st
  | slidingWindowQps cfg sort => exact SlidingWindowQps.indistinguishable_reset cfg sort st
  | slidingWindowRr cfg => exact SlidingWindowRr.indistinguishable_reset hreset
  | sbQpsConditional frameSize iterRound =>
    exact SbQps.Conditional.indistinguishable_reset frameSize iterRound st
  | swQpsBestFit frameSize sort maxMatching =>
    exact SwQpsBestFit.indistinguishable_reset frameSize sort maxMatching st
  | sbQpsFixed cfg sort => exact SbQps.Fixed.indistinguishable_reset cfg sort st

/-- A new iSLIP with pointers `0`, reset at once. -/
theorem reset_indistinguishable_islip :
    (model (.islip 1 (fun _ => 0) (fun _ => 0) : SchedulerConf 2 2)).Indistinguishable
      (reset (.islip 1 (fun _ => 0) (fun _ => 0)) (create (.islip 1 (fun _ => 0) (fun _ => 0))))
      (create (.islip 1 (fun _ => 0) (fun _ => 0))) :=
  reset_indistinguishable (.islip 1 (fun _ => 0) (fun _ => 0)) .create
    ⟨fun _ => rfl, fun _ => rfl⟩

/-- A run from a reachable state ends in one. -/
theorem Reachable.steps {conf : SchedulerConf n m} {st st' : conf.model.State}
    (h : conf.Reachable st) (slots : ℕ → conf.model.Input × IQSwitch n m) {T : ℕ}
    (hrun : steps (fun t a => conf.model.schedule (slots t).1 (slots t).2 a) st T = .ok st') :
    conf.Reachable st' := by
  induction T generalizing st' with
  | zero => exact Except.ok.inj hrun ▸ h
  | succ T ih =>
    obtain ⟨mid, hmid, hlast⟩ := steps_succ_eq_ok.mp hrun
    exact .schedule _ _ (ih hmid) hlast

/-- After a run and a reset, one slot dispatches a matching that it does not dispatch from a new
    scheduler. -/
theorem exists_told_apart (conf : SchedulerConf n m) (slots : ℕ → conf.model.Input × IQSwitch n m)
    (T : ℕ) (input : conf.model.Input) (sw : IQSwitch n m) (p : (Fin n → Option (Fin m)) → Bool)
    (hreset : returns
      (steps (fun t a => conf.model.schedule (slots t).1 (slots t).2 a) conf.create T)
      (fun st => returns (conf.model.schedule input sw (conf.reset st))
        (fun a => p (conf.model.inMatch a))) = true)
    (hnew : returns (conf.model.schedule input sw conf.create)
      (fun b => !p (conf.model.inMatch b)) = true) :
    ∃ st, conf.Reachable st ∧ ¬ conf.model.Indistinguishable (conf.reset st) conf.create := by
  obtain ⟨st, hrun, hst⟩ := exists_of_returns hreset
  obtain ⟨a, ha, hpa⟩ := exists_of_returns hst
  obtain ⟨b, hb, hpb⟩ := exists_of_returns hnew
  refine ⟨st, Reachable.create.steps slots hrun, fun hsame => ?_⟩
  have hslot : Lockstep (fun a b => conf.model.inMatch a = conf.model.inMatch b)
      (conf.model.schedule input sw (conf.reset st)) (conf.model.schedule input sw conf.create) :=
    hsame (fun _ => (input, sw)) 0
  rw [ha, hb, lockstep_ok] at hslot
  rw [← hslot, hpa] at hpb
  cases hpb

/-- A switch in which each packet queue that a packet arrives at holds this packet alone. -/
def arrivingAt (ports : List (Fin 2 × Fin 2)) : IQSwitch 2 2 :=
  .simplified ⟨fun s d => ports.count (s, d), ports.map some, []⟩

/-- After a reset, iSLIP constructed with pointers `1` grants another input, edge colouring repeats
    the last matching of the run before, and the round-robin window ranks from the last input of
    that run. -/
theorem not_reset_indistinguishable :
    (∃ st, Reachable (.islip 1 (fun _ => 1) (fun _ => 0) : SchedulerConf 2 2) st ∧
      ¬ (model (.islip 1 (fun _ => 1) (fun _ => 0) : SchedulerConf 2 2)).Indistinguishable
        (reset (.islip 1 (fun _ => 1) (fun _ => 0)) st)
        (create (.islip 1 (fun _ => 1) (fun _ => 0)))) ∧
    (∃ st, Reachable (.randomizedEdgeColoring 1 : SchedulerConf 2 2) st ∧
      ¬ (model (.randomizedEdgeColoring 1 : SchedulerConf 2 2)).Indistinguishable
        (reset (.randomizedEdgeColoring 1) st) (create (.randomizedEdgeColoring 1))) ∧
    ∃ st, Reachable (.slidingWindowRr ⟨1, 4, false, false⟩ : SchedulerConf 2 2) st ∧
      ¬ (model (.slidingWindowRr ⟨1, 4, false, false⟩ : SchedulerConf 2 2)).Indistinguishable
        (reset (.slidingWindowRr ⟨1, 4, false, false⟩) st)
        (create (.slidingWindowRr ⟨1, 4, false, false⟩)) := by
  refine ⟨?_, ?_, ?_⟩
  · refine exists_told_apart (.islip 1 (fun _ => 1) (fun _ => 0))
      (fun _ => ((), arrivingAt [])) 0 () (arrivingAt [(0, 0), (1, 0)])
      (fun inMatch => decide (inMatch 0 = some 0)) ?_ ?_
    · decide +kernel
    · decide +kernel
  · -- the slot after the reset still has the match of the slot before it
    refine exists_told_apart (.randomizedEdgeColoring 1)
      (fun t => (EdgeColoring.firstDraws, arrivingAt (if t = 0 then [(0, 0)] else []))) 2
      EdgeColoring.firstDraws (arrivingAt []) (fun inMatch => decide (inMatch 0 = some 0)) ?_ ?_
    · decide +kernel
    · decide +kernel
  · refine exists_told_apart (.slidingWindowRr ⟨1, 4, false, false⟩)
      (fun _ => (Shuffle.inOrder 2, arrivingAt [(1, 0)])) 1
      (Shuffle.inOrder 2) (arrivingAt [(0, 0), (1, 0)])
      (fun inMatch => decide (inMatch 1 = some 0)) ?_ ?_
    · decide +kernel
    · decide +kernel

end SchedulerConf

end SschedSimulator
