import SschedSimulator.Scheduler.SlidingWindow.BestFitGraph

namespace SschedSimulator

open Foundation

/-!
# `SW_QPS_Best_Fit` — an output grants as many proposals as it can

The trial of an output is first fit on copies, so its initial matching is as large as what first fit
would grant; the solver can only enlarge it.  Every reservation that is then installed is at a frame
free for both ports, whatever the trial had chosen.

* `Mirrors` — the trial beside a scan of the real tables;
* `installRow_fold` — the reservations of one output;
* `acceptOutput_eq_ok` — one output, as `BestFit` describes it;
* `bestFit_of_reachable` — every output of every call.
-/

namespace SwQpsBestFit

variable {n m B : ℕ} {frames : List ℕ}

/-! ### The trial -/

/-- The trial of `out` started in `start`, when a scan of the real tables has come to `acc`. -/
structure Mirrors (B : ℕ) (start acc : Accepting n m) (out : Fin m) (ins : List (Fin n))
    (tr : Trial n) : Prop where
  tables : acc.toBooking.Consistent B B B
  inputAvail : tr.inputAvail = acc.inputAvailability
  outAvail : tr.outAvail = acc.outputAvailability out
  inFlags : tr.inFlags = acc.inputMatchBitmap
  outFlags : tr.outFlags = acc.outputMatchBitmap out
  initialMatch : MatchingOf (openPairs B start.toBooking out ins) tr.initialMatch
  taken : ∀ i f, tr.initialMatch i = some f → acc.outFlag out f = true
  kept : ∀ i f, acc.toBooking.bothFree i out f = true → start.toBooking.bothFree i out f = true
  departures : acc.virtualDepartures.length
    = start.virtualDepartures.length + matchSize tr.initialMatch

section

variable {start acc : Accepting n m} {out : Fin m} {ins : List (Fin n)} {tr : Trial n}

theorem mirrors_start (h : acc.toBooking.Consistent B B B) (out : Fin m) (ins : List (Fin n)) :
    Mirrors B acc acc out ins (.start acc.toBooking out) where
  tables := h
  inputAvail := rfl
  outAvail := rfl
  inFlags := rfl
  outFlags := rfl
  initialMatch := ⟨isMatching_none, fun _ _ hnone => nomatch hnone⟩
  taken := fun _ _ hnone => nomatch hnone
  kept := fun _ _ hfree => hfree
  departures := by rw [Trial.start, matchSize_none, Nat.add_zero]

/-- The trial gives a frame to an input that has none yet. -/
theorem Mirrors.take (h : Mirrors B start acc out ins tr) (hB : B ≤ bitmapWidth) {i : Fin n}
    (hi : i ∈ ins) (hnone : tr.initialMatch i = none) {f : ℕ} (hf : f < B)
    (hfree : acc.toBooking.bothFree i out f = true) :
    ∃ tr', tr.take f i = .ok tr' ∧ Mirrors B start (acc.grantAt f i out) out ins tr' ∧
      tr'.initialMatch = Function.update tr.initialMatch i (some f) := by
  have hwidth : f < bitmapWidth := by omega
  obtain ⟨hin, hout⟩ := Booking.bothFree_iff.mp hfree
  unfold Trial.take
  rw [require_pos hwidth, ok_bind]
  refine ⟨_, rfl, ⟨h.tables.take hB hf hf hin hout, ?_, ?_, ?_, ?_, ⟨?_, ?_⟩, ?_, ?_, ?_⟩, rfl⟩
  · show _ = Function.update acc.inputAvailability i (acc.inputAvailability i - 1)
    rw [h.inputAvail]
  · show tr.outAvail - 1
      = Function.update acc.outputAvailability out (acc.outputAvailability out - 1) out
    rw [Function.update_self, h.outAvail]
  · show _ = Function.update acc.inputMatchBitmap i ((acc.inputMatchBitmap i).set f)
    rw [h.inFlags]
  · show tr.outFlags.set f
      = Function.update acc.outputMatchBitmap out ((acc.outputMatchBitmap out).set f) out
    rw [Function.update_self, h.outFlags]
  · -- Frame `f` is still free for the output, so nobody has taken it.
    refine h.initialMatch.matching.update (fun i' hi' => ?_)
    rw [h.taken i' f hi'] at hout
    cases hout
  · intro i' g hg
    dsimp only at hg
    by_cases hii : i' = i
    · rw [hii, Function.update_self, Option.some.injEq] at hg
      rw [hii, ← hg]
      exact mem_openPairs.mpr ⟨⟨hi, hf⟩, h.kept i f hfree⟩
    · rw [Function.update_of_ne hii] at hg
      exact h.initialMatch.mem i' g hg
  · intro i' g hg
    dsimp only at hg
    rw [Accepting.grantAt_outFlag acc hwidth]
    by_cases hii : i' = i
    · rw [hii, Function.update_self, Option.some.injEq] at hg
      simp [hg]
    · rw [Function.update_of_ne hii] at hg
      simp [h.taken i' g hg]
  · intro i' g hg
    refine h.kept i' g (Booking.bothFree_iff.mpr ?_)
    obtain ⟨hin', hout'⟩ := Booking.bothFree_iff.mp hg
    rw [Accepting.grantAt_inFlag acc hwidth, Bool.or_eq_false_iff] at hin'
    rw [Accepting.grantAt_outFlag acc hwidth, Bool.or_eq_false_iff] at hout'
    exact ⟨hin'.2, hout'.2⟩
  · have hdep := h.departures
    rw [matchSize_update hnone, Accepting.grantAt_virtualDepartures, List.length_append,
      List.length_singleton]
    omega

/-- The trial finds what the scan grants. -/
theorem Mirrors.trialLoop (hB : B ≤ bitmapWidth) (hframes : ∀ f ∈ frames, f < B)
    {rest : List (Fin n)} (hrest : rest.Nodup)
    (hnew : ∀ i ∈ rest, i ∈ ins ∧ tr.initialMatch i = none)
    (h : Mirrors B start acc out ins tr) :
    ∃ tr', trialLoop frames rest tr = .ok tr' ∧
      Mirrors B start (Accepting.scan frames (rest.map (·, out)) acc) out ins tr' := by
  induction rest generalizing acc tr with
  | nil => exact ⟨tr, rfl, h⟩
  | cons i rest ih =>
    obtain ⟨hi, hrest'⟩ := List.nodup_cons.mp hrest
    have hnew' : ∀ j ∈ rest, j ∈ ins ∧ tr.initialMatch j = none :=
      fun j hj => hnew j (List.mem_cons_of_mem i hj)
    unfold SwQpsBestFit.trialLoop
    by_cases hzero : tr.outAvail = 0
    · rw [if_pos hzero, Accepting.scan_eq_self (Accepting.freeAt_eq_nil h.tables hframes (by
        rw [← h.outAvail, hzero]
        exact lt_irrefl 0))]
      exact ⟨tr, rfl, h⟩
    · rw [if_neg hzero]
      have hsearch : firstFit (tr.inFlags i ||| tr.outFlags) frames
          = .ok (frames.find? (acc.toBooking.bothFree i out)) := by
        rw [h.inFlags, h.outFlags]
        exact acc.firstFree_eq (fun f hf => lt_of_lt_of_le (hframes f hf) hB) i out
      have hscan : Accepting.scan frames ((i :: rest).map (·, out)) acc
          = Accepting.scan frames (rest.map (·, out))
            (Accepting.scanProposal frames acc (i, out)) := rfl
      rw [hscan]
      cases hfind : frames.find? (acc.toBooking.bothFree i out) with
      | none =>
        have hsame : Accepting.scanProposal frames acc (i, out) = acc := by
          rw [Accepting.scanProposal, hfind]
        rw [hsame]
        split
        · exact ih hrest' hnew' h
        · rw [hsearch, hfind, ok_bind]
          exact ih hrest' hnew' h
      | some f =>
        have hgrant : Accepting.scanProposal frames acc (i, out) = acc.grantAt f i out := by
          rw [Accepting.scanProposal, hfind]
        -- An input with a free frame is not passed over.
        have havail : tr.inputAvail i ≠ 0 := by
          intro hnone
          have hchoose := h.tables.choose_eq hframes i out
          rw [Booking.choose, if_pos (h.inputAvail ▸ hnone)] at hchoose
          cases hchoose.trans hfind
        have hf : f < B := hframes f (List.mem_of_find?_eq_some hfind)
        obtain ⟨tr', htake, hmirrors, hmatch⟩ := h.take hB (hnew i (by simp)).1 (hnew i (by simp)).2
          hf (List.find?_some hfind)
        rw [if_neg havail, hsearch, hfind, ok_bind]
        dsimp only
        rw [htake, ok_bind, hgrant]
        refine ih hrest' (fun j hj => ⟨(hnew' j hj).1, ?_⟩) hmirrors
        have hji : j ≠ i := fun he => hi (he ▸ hj)
        rw [hmatch, Function.update_of_ne hji]
        exact (hnew' j hj).2

end

/-! ### The reservations of one output -/

/-- Reserve the frame that a row gives to an input. -/
def installRow (out : Fin m) (row : Fin n → Option ℕ) (acc : Accepting n m) (i : Fin n) :
    Except Fault (Accepting n m) :=
  match row i with
  | none => .ok acc
  | some f => do
    let b ← acc.toBooking.reserve f i out
    .ok { toBooking := b, virtualDepartures := acc.virtualDepartures ++ [(i, out)] }

/-- The mate of a blue node is looked up by the input. -/
theorem install_eq (out : Fin m) (mate : ℕ → Option ℕ) (nodeMap : ℕ → ℕ) (k : ℕ)
    {ins : List (Fin n)} (acc : Accepting n m) {i : Fin n} (hi : i ∈ ins) :
    install out mate nodeMap acc (k + ins.idxOf i, i)
      = installRow out (mateFrame mate nodeMap k ins) acc i := by
  unfold install installRow mateFrame
  rw [if_pos (List.contains_iff_mem.mpr hi)]
  cases mate (k + ins.idxOf i) <;> rfl

/-- A row of frames that are free for both ports is reserved without meeting an occupied cell. -/
theorem installRow_fold (hB : B ≤ bitmapWidth) (out : Fin m) {row : Fin n → Option ℕ}
    (hrow : IsMatching row) {l : List (Fin n)} (hl : l.Nodup) {acc : Accepting n m}
    (h : acc.toBooking.Consistent B B B)
    (hopen : ∀ i ∈ l, ∀ f, row i = some f → f < B ∧ acc.toBooking.bothFree i out f = true) :
    ∃ acc', l.foldlM (installRow out row) acc = .ok acc' ∧ acc'.toBooking.Consistent B B B ∧
      (∀ f i, acc'.schedules f i
        = if i ∈ l ∧ row i = some f then some out else acc.schedules f i) ∧
      acc'.virtualDepartures
        = acc.virtualDepartures ++ (l.filter (fun i => (row i).isSome)).map (·, out) := by
  induction l generalizing acc with
  | nil => exact ⟨acc, rfl, h, fun f i => by simp, by simp⟩
  | cons i rest ih =>
    obtain ⟨hi, hrest⟩ := List.nodup_cons.mp hl
    rw [List.foldlM_cons]
    cases hri : row i with
    | none =>
      obtain ⟨acc', hrun, hcons, hsched, hdep⟩ :=
        ih hrest h (fun j hj => hopen j (List.mem_cons_of_mem i hj))
      refine ⟨acc', by rw [installRow, hri, ok_bind, hrun], hcons, fun f j => ?_, ?_⟩
      · rw [hsched]
        by_cases hji : j = i
        · simp [hji, hri]
        · simp [hji]
      · rw [hdep, List.filter_cons_of_neg (by simp [hri])]
    | some f =>
      obtain ⟨hf, hfree⟩ := hopen i (by simp) f hri
      obtain ⟨hin, hout⟩ := Booking.bothFree_iff.mp hfree
      have hwidth : f < bitmapWidth := by omega
      -- The frames of the others are neither those of `i` nor taken by it.
      have hopen' : ∀ j ∈ rest, ∀ g, row j = some g →
          g < B ∧ (acc.grantAt f i out).toBooking.bothFree j out g = true := by
        intro j hj g hg
        obtain ⟨hgB, hgfree⟩ := hopen j (List.mem_cons_of_mem i hj) g hg
        obtain ⟨hgin, hgout⟩ := Booking.bothFree_iff.mp hgfree
        have hji : j ≠ i := fun he => hi (he ▸ hj)
        have hgf : g ≠ f := fun he => hji (hrow (he ▸ hg) hri)
        refine ⟨hgB, Booking.bothFree_iff.mpr ⟨?_, ?_⟩⟩
        · rw [Accepting.grantAt_inFlag acc hwidth, hgin]
          simp [hji]
        · rw [Accepting.grantAt_outFlag acc hwidth, hgout]
          simp [hgf]
      have hbooked : (acc.grantAt f i out).toBooking.Consistent B B B := h.take hB hf hf hin hout
      obtain ⟨acc', hrun, hcons, hsched, hdep⟩ := ih hrest hbooked hopen'
      refine ⟨acc', ?_, hcons, fun g j => ?_, ?_⟩
      · rw [installRow, hri]
        dsimp only
        rw [Booking.reserve_eq_ok acc.toBooking hwidth (h.covers.cell_eq_none hf hin), ok_bind,
          ok_bind]
        exact hrun
      · rw [hsched, show (acc.grantAt f i out).schedules g j
          = if g = f ∧ j = i then some out else acc.schedules g j from
            update₂_apply acc.schedules f g i j (some out)]
        by_cases hji : j = i
        · simp [hji, hi, hri, eq_comm]
        · simp [hji]
      · rw [hdep, List.filter_cons_of_pos (by simp [hri]), Accepting.grantAt_virtualDepartures]
        simp

/-! ### One output -/

/-- What the accept phase does for `out`: the proposals are `ins`, in the order of the sort
    `sorted`.  The initial matching is one of the graph, also as the solver sees it; the proposals
    granted are as many as a partial matching of the proposals with the free frames can have, and
    not fewer than first fit would grant. -/
structure BestFit (B : ℕ) (frames : List ℕ) (ins sorted : List (Fin n)) (out : Fin m)
    (acc acc' : Accepting n m) : Prop where
  initialMatch : ∃ tr ag, trialLoop frames sorted (.start acc.toBooking out) = .ok tr ∧
    MatchingOf (openPairs B acc.toBooking out ins) tr.initialMatch ∧
    buildGraph B acc.toBooking out ins tr.initialMatch = .ok ag ∧
    ag.g.IsMatching (ag.g.marked ag.initialMatchingMap)
  granted : ∃ row, MatchingOf (openPairs B acc.toBooking out ins) row ∧
    (∀ f i, acc'.schedules f i = if row i = some f then some out else acc.schedules f i) ∧
    acc'.virtualDepartures
      = acc.virtualDepartures ++ (ins.filter (fun i => (row i).isSome)).map (·, out)
  greatest : IsGreatest
    {k | ∃ row, MatchingOf (openPairs B acc.toBooking out ins) row ∧ matchSize row = k}
    (acc'.virtualDepartures.length - acc.virtualDepartures.length)
  firstFit : ∀ skip, ∃ acc₁,
    acc.acceptLoop (fun available => available != 0) skip frames out sorted = .ok acc₁ ∧
      acc₁.virtualDepartures.length ≤ acc'.virtualDepartures.length

/-- One output. -/
theorem acceptOutput_eq_ok (hB : B ≤ bitmapWidth) (sort : DescSort (Fin n))
    {maxMatching : Solver} (hsolver : Solves maxMatching) (queues : Fin n → QueueSampler m)
    {timeSlot : ℕ} (ht : timeSlot < B) {outAccepts : Fin m → List (Fin n)} (out : Fin m)
    (hins : (outAccepts out).Nodup) {acc : Accepting n m} (h : acc.toBooking.Consistent B B B) :
    ∃ acc', acceptOutput B sort maxMatching queues timeSlot outAccepts acc out = .ok acc' ∧
      acc'.toBooking.Consistent B B B ∧
      BestFit B (CircularGenerator.frames timeSlot B false) (outAccepts out)
        (sort.run (fun i => (queues i).getPacketNumber out) (outAccepts out)) out acc acc' := by
  have hframes : ∀ f ∈ CircularGenerator.frames timeSlot B false, f < B :=
    fun f hf => ((CircularGenerator.mem_frames ht).mp hf).1
  generalize hsorted : sort.run (fun i => (queues i).getPacketNumber out) (outAccepts out) = sorted
  obtain ⟨tr, htrial, hmirrors⟩ := (mirrors_start h out (outAccepts out)).trialLoop hB hframes
    (hsorted ▸ sort.nodup hins) (fun i hi => ⟨sort.mem.mp (hsorted ▸ hi), rfl⟩)
  obtain ⟨ag, hgraph, k, hpainted⟩ :=
    (buildGraph_paints hB acc.toBooking out hins tr.initialMatch).exists_ok (fun _ _ he => he)
  have hmarked := hpainted.marked_isMatching hins hmirrors.initialMatch
  have hlargest := hpainted.largest hins
    (hsolver ag.g ag.initialMatchingMap (hpainted.plain hins) hmarked)
  generalize hmate : maxMatching ag.g ag.initialMatchingMap = mate at hlargest
  generalize hrow : mateFrame mate ag.nodeMap k (outAccepts out) = row at hlargest
  obtain ⟨acc', hinstall, hcons, hsched, hdep⟩ := installRow_fold hB out hlargest.matching hins h
    (fun i _ f hf => by
      obtain ⟨⟨-, hlt⟩, hfree⟩ := mem_openPairs.mp (hlargest.mem i f hf)
      exact ⟨hlt, hfree⟩)
  have hmem : ∀ i f, row i = some f → i ∈ outAccepts out :=
    fun i f hf => (mem_openPairs.mp (hlargest.mem i f hf)).1.1
  -- The solver's matching is installed in the order of the proposals.
  have hrun : ag.blueNodes.foldlM (install out mate ag.nodeMap) acc = .ok acc' := by
    rw [hpainted.blueNodes, List.foldlM_map, ← hinstall]
    exact foldlM_congr (fun i hi acc => by rw [install_eq out mate ag.nodeMap k acc hi, hrow]) acc
  have hsize : acc'.virtualDepartures.length
      = acc.virtualDepartures.length + matchSize row := by
    rw [hdep, List.length_append, List.length_map, length_filter_isSome hins hmem]
  refine ⟨acc', ?_, hcons, ⟨tr, ag, htrial, hmirrors.initialMatch, hgraph, hmarked⟩,
    ⟨row, hlargest.toMatchingOf, fun f i => ?_, hdep⟩, ?_, fun skip => ?_⟩
  · unfold acceptOutput
    split
    · -- Without proposals there is no blue node.
      rename_i hnil
      rw [hpainted.blueNodes, hnil, List.map_nil] at hrun
      exact hrun
    · rw [hsorted, htrial, ok_bind, hgraph, ok_bind, hmate, hrun]
  · rw [hsched]
    congr 1
    exact propext (and_iff_right_of_imp (hmem i f))
  · rw [hsize, Nat.add_sub_cancel_left]
    exact hlargest.isGreatest
  · refine ⟨_, Accepting.acceptLoop_eq_scan h hB hframes skip out sorted, ?_⟩
    have hle := hlargest.maximal tr.initialMatch hmirrors.initialMatch
    have hfirst := hmirrors.departures
    omega

/-! ### A round -/

/-- The accept phase when the outputs `outs` have been served. -/
def acceptSome (B : ℕ) (sort : DescSort (Fin n)) (maxMatching : Solver)
    (queues : Fin n → QueueSampler m) (timeSlot : ℕ) (outAccepts : Fin m → List (Fin n))
    (outs : List (Fin m)) (acc : Accepting n m) : Except Fault (Accepting n m) :=
  outs.foldlM (acceptOutput B sort maxMatching queues timeSlot outAccepts) acc

/-- Some of the outputs. -/
theorem acceptSome_eq_ok (hB : B ≤ bitmapWidth) (sort : DescSort (Fin n))
    {maxMatching : Solver} (hsolver : Solves maxMatching) (queues : Fin n → QueueSampler m)
    {timeSlot : ℕ} (ht : timeSlot < B) {outAccepts : Fin m → List (Fin n)}
    (hins : ∀ out, (outAccepts out).Nodup) (outs : List (Fin m)) (acc : Accepting n m)
    (h : acc.toBooking.Consistent B B B) :
    ∃ acc' gs, acceptSome B sort maxMatching queues timeSlot outAccepts outs acc = .ok acc' ∧
      acc'.toBooking.Consistent B B B ∧ gs.Sublist (proposalPairs outAccepts outs) ∧
      acc'.virtualDepartures = acc.virtualDepartures ++ gs := by
  unfold acceptSome
  induction outs generalizing acc with
  | nil => exact ⟨acc, [], rfl, h, List.Sublist.refl _, (List.append_nil _).symm⟩
  | cons out rest ih =>
    obtain ⟨acc₁, hrun₁, hcons₁, hbest⟩ := acceptOutput_eq_ok hB sort hsolver queues ht out
      (hins out) h
    obtain ⟨row, -, -, hdep₁⟩ := hbest.granted
    obtain ⟨acc₂, gs, hrun₂, hcons₂, hsub, hdep₂⟩ := ih acc₁ hcons₁
    have hgranted : (((outAccepts out).filter (fun i => (row i).isSome)).map (·, out)).Sublist
        ((outAccepts out).map (·, out)) := List.filter_sublist.map _
    exact ⟨acc₂, _, by rw [List.foldlM_cons, hrun₁, ok_bind, hrun₂], hcons₂,
      hgranted.append hsub, by rw [hdep₂, hdep₁, List.append_assoc]⟩

/-- The inputs that propose to an output in a call. -/
def offers (draws : Draws n m) (sw : IQSwitch n m) (st : State n m) : Fin m → List (Fin n) :=
  proposers (SlidingWindowQps.getQueueLengthForInput (SlidingWindowQps.handlePacketArrivals sw st))
    draws.sample draws.shuffle.val

theorem nodup_offers (draws : Draws n m) (sw : IQSwitch n m) (st : State n m) (out : Fin m) :
    (offers draws sw st out).Nodup := nodup_proposers draws.shuffle.nodup out

/-- An output keeps all its proposals, in their order. -/
theorem foldl_push (ins kept : List (Fin n)) :
    ins.foldl (fun l i => l ++ [i]) kept = kept ++ ins := by
  induction ins generalizing kept with
  | nil => exact (List.append_nil _).symm
  | cons i rest ih => rw [List.foldl_cons, ih, List.append_assoc, List.singleton_append]

/-- A round keeps the state sound; only its sample can stop it. -/
theorem qps_post (hB : B ≤ bitmapWidth) (sort : DescSort (Fin n)) {maxMatching : Solver}
    (hsolver : Solves maxMatching) (draws : Draws n m) (sw : IQSwitch n m) {timeSlot : ℕ}
    (ht : timeSlot < B) {st : State n m} (h : SlidingWindowQps.Sound (window B) st) :
    Post (qps B sort maxMatching draws sw timeSlot st)
      (fun e => e = .badSample ∧ ¬ SlidingWindowQps.GoodDraws draws sw st)
      (fun st₁ => SlidingWindowQps.Sound (window B) st₁ ∧
        ∃ acc, accept B sort maxMatching timeSlot (offers draws sw st)
          (SlidingWindowQps.handlePacketArrivals sw st) = .ok acc ∧
          st₁.toBooking = acc.toBooking) := by
  unfold qps
  refine (propose_post (fun i _ ins => ins ++ [i]) draws.shuffle.val (fun _ => [])).bind ?_
  rintro outAccepts ⟨hkept, hpos⟩
  have hoffers : outAccepts = offers draws sw st :=
    funext (fun out => (hkept out).trans (foldl_push _ _))
  subst hoffers
  obtain ⟨acc, gs, hrun, hcons, hsub, hdep⟩ := acceptSome_eq_ok hB sort hsolver
    (SlidingWindowQps.handlePacketArrivals sw st).inputQueues ht (nodup_offers draws sw st)
    (List.finRange m) { toBooking := st.toBooking, virtualDepartures := [] } h.tables
  rw [List.nil_append] at hdep
  -- The pairs granted are distinct, and each of them has a packet.
  have hnodup : gs.Nodup :=
    hsub.nodup (nodup_proposalPairs (List.nodup_finRange m) (nodup_offers draws sw st))
  have hpacket : ∀ p ∈ gs, 0 < (SlidingWindowQps.handlePacketArrivals sw st).inputQueues p.1 p.2 :=
    fun p hp => hpos p.2 p.1 (mem_proposalPairs.mp (hsub.subset hp)).2
  have hbooked : SlidingWindowQps.Sound (window B)
      { SlidingWindowQps.handlePacketArrivals sw st with toBooking := acc.toBooking } :=
    ⟨hcons, (h.arrivals sw).nonneg⟩
  obtain ⟨queues, hrem, hsound, -⟩ := hbooked.departures hnodup hpacket
  have haccept : accept B sort maxMatching timeSlot (offers draws sw st)
      (SlidingWindowQps.handlePacketArrivals sw st) = .ok acc := hrun
  dsimp only
  rw [haccept, ok_bind, hdep, hrem]
  exact ⟨hsound, acc, rfl, rfl⟩

/-- So does a call, which dispatches a partial matching. -/
theorem schedule_post (hB1 : 1 ≤ B) (hB : B ≤ bitmapWidth) (sort : DescSort (Fin n))
    {maxMatching : Solver} (hsolver : Solves maxMatching) (draws : Draws n m) (sw : IQSwitch n m)
    {st : State n m} (h : SlidingWindowQps.Sound (window B) st) :
    Post (schedule B sort maxMatching draws sw st)
      (fun e => e = .badSample ∧ ¬ SlidingWindowQps.GoodDraws draws sw st)
      (fun st' => SlidingWindowQps.Sound (window B) st' ∧ IsMatching st'.inMatch) := by
  have ht : st.cfRelTime % B < B := Nat.mod_lt _ (by omega)
  unfold schedule
  refine (qps_post hB sort hsolver draws sw ht h).bind ?_
  rintro st₁ ⟨hsound₁, -⟩
  obtain ⟨st₂, hdisp, hsound₂, -, hmatch, -, -⟩ :=
    SlidingWindowQps.dispatchSchedule_eq_ok
      (show (window B).batchSize ≤ bitmapWidth from hB) ht hsound₁
  rw [hdisp, ok_bind]
  refine ⟨⟨hsound₂.tables, hsound₂.nonneg⟩, ?_⟩
  show IsMatching st₂.inMatch
  rw [hmatch]
  exact hsound₁.tables.matching _ ht

/-! ### Runs -/

/-- The states between calls: from construction or a reset by calls that return. -/
inductive Reachable (B : ℕ) (sort : DescSort (Fin n)) (maxMatching : Solver) :
    State n m → Prop where
  | initial : Reachable B sort maxMatching (SlidingWindowQps.State.initial (window B))
  | reset {st : State n m} : Reachable B sort maxMatching st →
      Reachable B sort maxMatching (SlidingWindowQps.reset (window B) st)
  | schedule {st st' : State n m} (draws : Draws n m) (sw : IQSwitch n m) :
      Reachable B sort maxMatching st → schedule B sort maxMatching draws sw st = .ok st' →
      Reachable B sort maxMatching st'

theorem sound_of_reachable (hB1 : 1 ≤ B) (hB : B ≤ bitmapWidth) {sort : DescSort (Fin n)}
    {maxMatching : Solver} (hsolver : Solves maxMatching) {st : State n m}
    (h : Reachable B sort maxMatching st) : SlidingWindowQps.Sound (window B) st := by
  induction h with
  | initial => exact SlidingWindowQps.sound_initial (window B)
  | reset _ ih =>
    have hinit : SlidingWindowQps.Sound (window B)
      (SlidingWindowQps.State.initial (window B) : State n m) :=
      SlidingWindowQps.sound_initial (window B)
    exact ⟨hinit.tables, hinit.nonneg⟩
  | schedule draws sw _ hrun ih =>
    exact ((schedule_post hB1 hB sort hsolver draws sw ih).of_ok hrun).1

/-- In every call, each output in turn grants as many of its proposals as a partial matching with
    the frames free for both ports allows, starting from an initial matching that is one of the
    graph, and at least as many as first fit.  Between outputs, after the round and after the
    dispatch the tables agree. -/
theorem bestFit_of_reachable (hB1 : 1 ≤ B) (hB : B ≤ bitmapWidth) {sort : DescSort (Fin n)}
    {maxMatching : Solver} (hsolver : Solves maxMatching) {st : State n m}
    (h : Reachable B sort maxMatching st) {draws : Draws n m} {sw : IQSwitch n m}
    (hgood : SlidingWindowQps.GoodDraws draws sw st) :
    (∀ out : Fin m, ∃ acc acc',
      acceptSome B sort maxMatching (SlidingWindowQps.handlePacketArrivals sw st).inputQueues
        (st.cfRelTime % B) (offers draws sw st) ((List.finRange m).take out)
        { toBooking := st.toBooking, virtualDepartures := [] } = .ok acc ∧
      SlidingWindowQps.ReservationInvariant B acc.toBooking ∧
      acceptOutput B sort maxMatching (SlidingWindowQps.handlePacketArrivals sw st).inputQueues
        (st.cfRelTime % B) (offers draws sw st) acc out = .ok acc' ∧
      BestFit B (CircularGenerator.frames (st.cfRelTime % B) B false) (offers draws sw st out)
        (sort.run (fun i => ((SlidingWindowQps.handlePacketArrivals sw st).inputQueues
          i).getPacketNumber out) (offers draws sw st out)) out acc acc' ∧
      SlidingWindowQps.ReservationInvariant B acc'.toBooking) ∧
    ∃ acc st₁ st',
      accept B sort maxMatching (st.cfRelTime % B) (offers draws sw st)
        (SlidingWindowQps.handlePacketArrivals sw st) = .ok acc ∧
      qps B sort maxMatching draws sw (st.cfRelTime % B) st = .ok st₁ ∧
      st₁.toBooking = acc.toBooking ∧
      SlidingWindowQps.ReservationInvariant B st₁.toBooking ∧
      schedule B sort maxMatching draws sw st = .ok st' ∧
      SlidingWindowQps.ReservationInvariant B st'.toBooking ∧ IsMatching st'.inMatch := by
  have ht : st.cfRelTime % B < B := Nat.mod_lt _ (by omega)
  have hsound := sound_of_reachable hB1 hB hsolver h
  refine ⟨fun out => ?_, ?_⟩
  · -- the outputs before `out` have been served
    obtain ⟨acc, -, hrun, hcons, -, -⟩ := acceptSome_eq_ok hB sort hsolver
      (SlidingWindowQps.handlePacketArrivals sw st).inputQueues ht (nodup_offers draws sw st)
      ((List.finRange m).take out) { toBooking := st.toBooking, virtualDepartures := [] }
      hsound.tables
    obtain ⟨acc', hrun', hcons', hbest⟩ := acceptOutput_eq_ok hB sort hsolver
      (SlidingWindowQps.handlePacketArrivals sw st).inputQueues ht out
      (nodup_offers draws sw st out) hcons
    exact ⟨acc, acc', hrun, SlidingWindowQps.reservationInvariant_of_consistent hcons, hrun', hbest,
      SlidingWindowQps.reservationInvariant_of_consistent hcons'⟩
  · obtain ⟨st₁, hrun₁, hsound₁, acc, hacc, htables⟩ :=
      (qps_post hB sort hsolver draws sw ht hsound).exists_ok (fun _ _ he => he.2 hgood)
    obtain ⟨st', hrun', hsound', hmatching⟩ :=
      (schedule_post hB1 hB sort hsolver draws sw hsound).exists_ok (fun _ _ he => he.2 hgood)
    exact ⟨acc, st₁, st', hacc, hrun₁, htables,
      SlidingWindowQps.reservationInvariant_of_consistent hsound₁.tables, hrun',
      SlidingWindowQps.reservationInvariant_of_consistent hsound'.tables, hmatching⟩

/-- Two inputs propose to one output, and the solver looks at all sets of edges. -/
theorem bestFit_of_two_proposals :
    ∃ (draws : Draws 2 2) (sw : IQSwitch 2 2) (sorted : List (Fin 2)) (acc acc' : Accepting 2 2)
      (st' : State 2 2),
      offers draws sw (SlidingWindowQps.State.initial (window 2)) 0 = [1, 0] ∧
      BestFit 2 [0, 1] [1, 0] sorted 0 acc acc' ∧
      schedule 2 .insertion ListGraph.exhaustive draws sw
        (SlidingWindowQps.State.initial (window 2)) = .ok st' ∧
      SlidingWindowQps.ReservationInvariant 2 st'.toBooking := by
  have hsolver : Solves ListGraph.exhaustive :=
    fun g initial _ _ => ListGraph.exhaustive_isMaxMatching g initial
  have hgood : SlidingWindowQps.GoodDraws ⟨⟨[1, 0], by decide⟩, fun _ => some 0⟩
      (.simplified ⟨fun _ _ => 1, [some (0, 0), some (1, 0)], []⟩)
      (SlidingWindowQps.State.initial (window 2) : State 2 2) := by
    unfold SlidingWindowQps.GoodDraws GoodSample
    decide
  have hreach : Reachable 2 .insertion ListGraph.exhaustive
      (SlidingWindowQps.State.initial (window 2) : State 2 2) := .initial
  obtain ⟨hout, acc, st₁, st', -, -, -, -, hrun, hinv, -⟩ :=
    bestFit_of_reachable (by decide) (by decide) hsolver hreach hgood
  obtain ⟨acc, acc', -, -, -, hbest, -⟩ := hout 0
  exact ⟨_, _, _, acc, acc', st', by decide, hbest, hrun, hinv⟩

end SwQpsBestFit

end SschedSimulator
