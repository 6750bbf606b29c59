import SschedSimulator.Matching.SbQpsFixed

namespace SschedSimulator

open Foundation Alternation

/-!
# What the rounds of `SB_QPS_Fixed` make of the frames

Whatever permutation the inputs sample in the first round, an input with some weight gets its pair in
frame 0 and keeps it, so that frame 0 may become any permutation up to inputs that weigh nothing.  A
configuration without rounds, or with neither of the two ways to book a frame, leaves all frames
empty.

* `runRounds_chosen` — frame 0 after rounds that all sample `p`;
* `runRounds_none` — the frames of a configuration that books nothing.
-/

/-- There is a round, and it books matches. -/
def MatchingConfiguration.Books (cfg : MatchingConfiguration) : Prop :=
  0 < cfg.rounds ∧ (cfg.rqpsSerena = true ∨ cfg.useAvailmap = true)

instance (cfg : MatchingConfiguration) : Decidable cfg.Books := inferInstanceAs (Decidable (_ ∧ _))

namespace Matching.SbQpsFixed

variable {n : ℕ} {cfg : MatchingConfiguration} {weights : Weights n} {st : State n}

/-! ### A cell that is taken stays taken -/

/-- At most the maps of the ports `i` and `o` differ. -/
structure FlagsOnly (i o : Fin n) (st st' : State n) : Prop where
  schedules : st'.schedules = st.schedules
  inputAvailability : st'.inputAvailability = st.inputAvailability
  outputAvailability : st'.outputAvailability = st.outputAvailability
  matchAvailIn : ∀ j, j ≠ i → st'.matchAvailIn j = st.matchAvailIn j
  matchAvailOut : ∀ q, q ≠ o → st'.matchAvailOut q = st.matchAvailOut q

/-- Setting the flags changes the maps of the two ports only. -/
theorem setFlags_post (frame : ℕ) (i o : Fin n) (st : State n) :
    Post (setFlags frame i o st) (fun _ => True) (FlagsOnly i o st) := by
  refine (Post.top _).bind (fun mi _ => (Post.top _).bind (fun mo _ => ?_))
  exact ⟨rfl, rfl, rfl, fun j hj => Function.update_of_ne hj ..,
    fun q hq => Function.update_of_ne hq ..⟩

/-- What a match changes: one free cell, and its two ports. -/
structure Matched (frame : ℕ) (i o : Fin n) (st st' : State n) : Prop where
  free : st.schedules frame i = none
  schedules : st'.schedules = update₂ st.schedules frame i (some o)
  input : ∀ j, j ≠ i → st'.inputAvailability j = st.inputAvailability j ∧
    st'.matchAvailIn j = st.matchAvailIn j
  output : ∀ q, q ≠ o → st'.outputAvailability q = st.outputAvailability q ∧
    st'.matchAvailOut q = st.matchAvailOut q

/-- A match that returns has changed no more than that. -/
theorem matchElement_post (frame : ℕ) (i o : Fin n) (st : State n) :
    Post (matchElement cfg frame i o st) (fun _ => True) (Matched frame i o st) := by
  unfold matchElement
  have hflags : Post (if cfg.useAvailmap = true then setFlags frame i o st else .ok st)
      (fun _ => True) (FlagsOnly i o st) := by
    split
    · exact setFlags_post frame i o st
    · exact ⟨rfl, rfl, rfl, fun _ _ => rfl, fun _ _ => rfl⟩
  refine hflags.bind (fun st' h => ?_)
  refine Post.require_bind (fun _ => trivial) (fun _ => ?_)
  refine Post.require_bind (fun _ => trivial) (fun hfree => ?_)
  rw [h.schedules] at hfree
  refine ⟨hfree, by rw [h.schedules], fun j hj => ⟨?_, h.matchAvailIn j hj⟩,
    fun q hq => ⟨?_, h.matchAvailOut q hq⟩⟩
  · show Function.update st'.inputAvailability i _ j = _
    rw [Function.update_of_ne hj, h.inputAvailability]
  · show Function.update st'.outputAvailability o _ q = _
    rw [Function.update_of_ne hq, h.outputAvailability]

/-- The cell holds the pair. -/
def HoldsPair (f : ℕ) (i o : Fin n) (st : State n) : Prop := st.schedules f i = some o

/-- A pair of a frame stays when another element is matched. -/
theorem matchElement_keeps {f : ℕ} {i o : Fin n} (h : HoldsPair f i o st) (frame : ℕ)
    (i' o' : Fin n) : Post (matchElement cfg frame i' o' st) (fun _ => True) (HoldsPair f i o) := by
  refine (matchElement_post frame i' o' st).imp (fun st' h' => ?_)
  rw [HoldsPair, h'.schedules, update₂_apply, if_neg]
  · exact h
  · rintro ⟨rfl, rfl⟩
    exact Option.some_ne_none o (h.symm.trans h'.free)

/-- It stays while an output accepts, -/
theorem acceptFrom_keeps {f : ℕ} {i o : Fin n} (h : HoldsPair f i o st) (round : ℕ) (out : Fin n)
    (ins : List (Fin n)) :
    Post (acceptFrom cfg round out ins st) (fun _ => True) (HoldsPair f i o) := by
  induction ins generalizing st with
  | nil => exact h
  | cons i' rest ih =>
    unfold acceptFrom
    split
    · exact h
    split
    · exact ih h
    split
    · split
      · exact matchElement_keeps h round i' out
      · exact h
    split
    · refine (Post.top _).bind (fun amap _ => ?_)
      split
      · exact (matchElement_keeps h _ i' out).bind (fun st' h' => ih h')
      · exact ih h
    · exact ih h

/-- and so over a round. -/
theorem qps_keeps {f : ℕ} {i o : Fin n} (h : HoldsPair f i o st) (round : ℕ)
    (sample : Fin n → Fin n) :
    Post (qps cfg round sample st) (fun _ => True) (HoldsPair f i o) :=
  Post.foldlM h (fun out _ _ h' => acceptFrom_keeps h' round out _)

/-! ### The first round -/

/-- Where every output is sampled by one input, it keeps that input's proposal. -/
theorem outAccepts_perm {cutoff : ℕ} (hcutoff : 0 < cutoff) (good : Fin n → Bool)
    (p : Equiv.Perm (Fin n)) (o : Fin n) :
    outAccepts cutoff good p o = if good (p.symm o) then [p.symm o] else [] := by
  have hloop : ∀ (l : List (Fin n)), l.Nodup → ∀ acc : Fin n → List (Fin n),
      (∀ i ∈ l, acc (p i) = []) → l.foldl (fun acc i =>
        if good i = false then acc
        else if (acc (p i)).length < cutoff then
          Function.update acc (p i) (acc (p i) ++ [i])
        else acc) acc o
        = if p.symm o ∈ l ∧ good (p.symm o) = true then [p.symm o] else acc o := by
    intro l
    induction l with
    | nil =>
      intro _ acc _
      rw [if_neg (by simp)]
      rfl
    | cons a rest ih =>
      intro hl acc hacc
      obtain ⟨ha, hrest⟩ := List.nodup_cons.mp hl
      have hempty : acc (p a) = [] := hacc a List.mem_cons_self
      rw [List.foldl_cons]
      cases hgood : good a with
      | false =>
        rw [if_pos rfl, ih hrest acc (fun i hi => hacc i (List.mem_cons_of_mem a hi))]
        -- The input that is passed over is not good.
        have hiff : (p.symm o ∈ rest ∧ good (p.symm o) = true)
            ↔ (p.symm o ∈ a :: rest ∧ good (p.symm o) = true) := by
          rw [List.mem_cons]
          refine and_congr_left (fun h => (or_iff_right ?_).symm)
          rintro rfl
          rw [hgood] at h
          cases h
        simp only [hiff]
      | true =>
        rw [if_neg (by decide), if_pos (by rw [hempty]; exact hcutoff), hempty, List.nil_append]
        rw [ih hrest _ (fun i hi => ?_)]
        · by_cases ho : p.symm o = a
          · subst ho
            rw [if_neg (fun h => ha h.1), Equiv.apply_symm_apply, Function.update_self,
              if_pos ⟨List.mem_cons_self, hgood⟩]
          · have hne : o ≠ p a := fun h => ho (by rw [h, Equiv.symm_apply_apply])
            rw [Function.update_of_ne hne]
            simp only [List.mem_cons, ho, false_or]
        · have hne : p i ≠ p a := fun h => ha (p.injective h ▸ hi)
          rw [Function.update_of_ne hne]
          exact hacc i (List.mem_cons_of_mem a hi)
  rw [outAccepts, hloop _ (List.nodup_finRange n) _ (fun _ _ => rfl)]
  simp only [List.mem_finRange, true_and]

/-- Frame 0 is free at an input... -/
structure InputOpen (cfg : MatchingConfiguration) (st : State n) (i : Fin n) : Prop where
  cell : st.schedules 0 i = none
  availability : st.inputAvailability i = cfg.frameSize
  map : 0 < (st.matchAvailIn i).asize ∧ (st.matchAvailIn i).avail 0 = true

/-- ...and at an output. -/
structure OutputOpen (cfg : MatchingConfiguration) (st : State n) (o : Fin n) : Prop where
  availability : st.outputAvailability o = cfg.frameSize
  map : 0 < (st.matchAvailOut o).asize ∧ (st.matchAvailOut o).avail 0 = true

/-- In the first round, when the inputs have sampled `p` and the outputs `later` have not accepted:
    the good inputs of the other outputs have their pairs in frame 0. -/
structure Opening (cfg : MatchingConfiguration) (good : Fin n → Bool) (p : Equiv.Perm (Fin n))
    (later : List (Fin n)) (st : State n) : Prop where
  chosen : ∀ i, good i = true → p i ∉ later → HoldsPair 0 i (p i) st
  input : ∀ i, p i ∈ later → InputOpen cfg st i
  output : ∀ o ∈ later, OutputOpen cfg st o

section

variable {good : Fin n → Bool} {p : Equiv.Perm (Fin n)} {out : Fin n} {later : List (Fin n)}

/-- The output accepts nothing: its input is not good. -/
theorem Opening.skip (h : Opening cfg good p (out :: later) st)
    (hgood : ¬ good (p.symm out) = true) : Opening cfg good p later st where
  chosen := by
    intro i hi hlater
    refine h.chosen i hi (fun hmem => ?_)
    rcases List.mem_cons.mp hmem with heq | hmem
    · rw [← heq, Equiv.symm_apply_apply] at hgood
      exact hgood hi
    · exact hlater hmem
  input := fun i hi => h.input i (List.mem_cons_of_mem _ hi)
  output := fun o ho => h.output o (List.mem_cons_of_mem _ ho)

/-- The match of the output in frame 0. -/
theorem Opening.book (h : Opening cfg good p (out :: later) st) (hout : out ∉ later) :
    Post (matchElement cfg 0 (p.symm out) out st) (fun _ => True) (Opening cfg good p later) := by
  refine (matchElement_post 0 (p.symm out) out st).imp (fun st' h' => ?_)
  have hne : ∀ i, p i ∈ later → i ≠ p.symm out := by
    rintro i hi rfl
    rw [Equiv.apply_symm_apply] at hi
    exact hout hi
  refine ⟨fun i hi hlater => ?_, fun i hi => ?_, fun o ho => ?_⟩
  · rw [HoldsPair, h'.schedules, update₂_apply]
    by_cases hio : i = p.symm out
    · rw [if_pos ⟨rfl, hio⟩, hio, Equiv.apply_symm_apply]
    · rw [if_neg (fun hc => hio hc.2)]
      refine h.chosen i hi (fun hmem => ?_)
      rcases List.mem_cons.mp hmem with heq | hmem
      · exact hio (by rw [← heq, Equiv.symm_apply_apply])
      · exact hlater hmem
  · have hopen := h.input i (List.mem_cons_of_mem _ hi)
    have hi' := hne i hi
    refine ⟨?_, (h'.input i hi').1.trans hopen.availability, (h'.input i hi').2 ▸ hopen.map⟩
    rw [h'.schedules, update₂_apply, if_neg (fun hc => hi' hc.2)]
    exact hopen.cell
  · have hopen := h.output o (List.mem_cons_of_mem _ ho)
    have ho' : o ≠ out := fun hc => hout (hc ▸ ho)
    exact ⟨(h'.output o ho').1.trans hopen.availability, (h'.output o ho').2 ▸ hopen.map⟩

/-- Either way to book a frame finds frame 0. -/
theorem Opening.accept (h : Opening cfg good p (out :: later) st) (hout : out ∉ later)
    (hframe : 0 < cfg.frameSize) (hflag : cfg.rqpsSerena = true ∨ cfg.useAvailmap = true) :
    Post (acceptFrom cfg 0 out (if good (p.symm out) then [p.symm out] else []) st)
      (fun _ => True) (Opening cfg good p later) := by
  split
  · have hin := h.input (p.symm out) (by rw [Equiv.apply_symm_apply]; exact List.mem_cons_self)
    have hopen := h.output out List.mem_cons_self
    have hsize : (cfg.frameSize : ℤ) ≠ 0 := by omega
    unfold acceptFrom
    rw [hopen.availability, hin.availability, if_neg hsize, if_neg hsize]
    split
    · exact h.book hout
    · rename_i hr
      rw [if_pos (hflag.resolve_left hr)]
      obtain ⟨amap, hinter, hasize, havail⟩ := AvailabilityTemplate.exists_inter
        AvailabilityMap.memory (st.matchAvailIn (p.symm out)) (st.matchAvailOut out)
      have hpos : 0 < amap.asize := hasize ▸ lt_max_of_lt_left hin.map.1
      have hfirst : amap.ffs = 0 := amap.ffs_eq_zero hpos (by
        rw [havail 0 (by omega), hin.map.2, hopen.map.2]
        rfl)
      rw [hinter, ok_bind, hfirst, if_pos ⟨le_refl 0, by omega⟩]
      refine (h.book hout).bind (fun st' h' => ?_)
      exact h'
  · rename_i hgood
    exact h.skip hgood

/-- The first round books the permutation that is sampled. -/
theorem qps_chosen (hframe : 0 < cfg.frameSize) (hcutoff : 0 < cfg.cutoff)
    (hflag : cfg.rqpsSerena = true ∨ cfg.useAvailmap = true)
    (h : Opening cfg st.good p (List.finRange n) st) :
    Post (qps cfg 0 p st) (fun _ => True)
      (fun st' => ∀ i, st.good i = true → HoldsPair 0 i (p i) st') := by
  have hloop := Post.foldlM_rest (f := fun st' out =>
      acceptFrom cfg 0 out (outAccepts cfg.cutoff st.good p out) st') (E := fun _ => True)
    (fun rest st' => rest.Nodup ∧ Opening cfg st.good p rest st') (List.finRange n) st
    ⟨List.nodup_finRange n, h⟩ (fun out rest st' h' => ?_)
  · exact hloop.imp (fun st' h' i hi => h'.2.chosen i hi List.not_mem_nil)
  · obtain ⟨hout, hrest⟩ := List.nodup_cons.mp h'.1
    rw [outAccepts_perm hcutoff]
    exact (h'.2.accept hout hframe hflag).imp (fun _ h'' => ⟨hrest, h''⟩)

end

/-- When the rounds begin, frame 0 is free everywhere. -/
theorem opening_start {m : AvailabilityMap} (hm : 0 < m.asize)
    (hin : ∀ i, st.matchAvailIn i = m) (hout : ∀ o, st.matchAvailOut o = m) (good : Fin n → Bool)
    (p : Equiv.Perm (Fin n)) :
    Opening cfg good p (List.finRange n) { reset cfg st with good := good } where
  chosen := fun i _ hi => absurd (List.mem_finRange (p i)) hi
  input := by
    intro i _
    refine ⟨rfl, rfl, ?_⟩
    show 0 < (st.matchAvailIn i).reset.asize ∧ (st.matchAvailIn i).reset.avail 0 = true
    rw [hin i]
    exact ⟨hm, m.avail_reset (by omega)⟩
  output := by
    intro o _
    refine ⟨rfl, ?_⟩
    show 0 < (st.matchAvailOut o).reset.asize ∧ (st.matchAvailOut o).reset.avail 0 = true
    rw [hout o]
    exact ⟨hm, m.avail_reset (by omega)⟩

/-- A new scheduler whose inputs sample `p` in every round: when the rounds are over, the inputs with
    some weight have their pairs in frame 0. -/
theorem runRounds_chosen (hframe : 0 < cfg.frameSize) (hsize : cfg.frameSize ≤ 1024)
    (hcutoff : 0 < cfg.cutoff) (hbooks : cfg.Books) (hweights : ∀ i o, 0 ≤ weights i o)
    (p : Equiv.Perm (Fin n)) (hst : construct n cfg = .ok st) :
    Post (runRounds cfg weights (fun _ => p) st cfg.rounds) (fun _ => True)
      (fun st' => ∀ i, ∑ o, weights i o ≠ 0 → HoldsPair 0 i (p i) st') := by
  obtain ⟨m, hm, hrep⟩ := AvailabilityTemplate.ofFrames_eq_ok AvailabilityMap.memory hsize
  rw [construct, hm, ok_bind] at hst
  cases hst
  have hpos : 0 < m.asize := by
    rw [hrep.asize]
    omega
  obtain ⟨rounds, hrounds⟩ : ∃ rounds, cfg.rounds = rounds + 1 :=
    Nat.exists_eq_succ_of_ne_zero hbooks.1.ne'
  rw [hrounds]
  clear hrounds
  induction rounds with
  | zero =>
    refine ((handleArrivals_post cfg hweights _).mono (fun _ _ => trivial)
      (fun _ h => h)).bind (fun st' h => ?_)
    rw [h.2]
    refine (qps_chosen hframe hcutoff hbooks.2 (opening_start hpos (fun _ => rfl) (fun _ => rfl) _
      p)).bind (fun st'' h'' => ?_)
    exact fun i hi => h'' i (decide_eq_true hi)
  | succ rounds ih =>
    rw [runRounds_succ]
    refine ih.bind (fun st' h => ?_)
    -- what frame 0 holds stays there in the later rounds
    have hkeeps : ∀ i, ∑ o, weights i o ≠ 0 →
        Post (qps cfg (rounds + 1) p st') (fun _ => True) (HoldsPair 0 i (p i)) :=
      fun i hi => qps_keeps (h i hi) _ _
    cases hrun : qps cfg (rounds + 1) p st' with
    | error e => trivial
    | ok st'' => exact fun i hi => (hkeeps i hi).of_ok hrun

/-! ### Configurations that book nothing -/

theorem acceptFrom_none (hr : ¬ cfg.rqpsSerena = true) (hmap : ¬ cfg.useAvailmap = true) (round : ℕ)
    (out : Fin n) (ins : List (Fin n)) : acceptFrom cfg round out ins st = .ok st := by
  induction ins with
  | nil => rfl
  | cons i rest ih =>
    unfold acceptFrom
    rw [if_neg hr, if_neg hmap, ih, ite_self, ite_self]

/-- All frames are empty when the rounds are over. -/
theorem runRounds_none (hbooks : ¬ cfg.Books) (hweights : ∀ i o, 0 ≤ weights i o)
    (draws : ℕ → Fin n → Fin n) (st : State n) :
    Post (runRounds cfg weights draws st cfg.rounds) (fun _ => ∃ i, largestInt < ∑ o, weights i o)
      (fun st' => ∀ f i, st'.schedules f i = none) := by
  refine (handleArrivals_post cfg hweights st).bind (fun st' h => ?_)
  have hempty : ∀ f i, st'.schedules f i = none := by
    rw [h.2]
    exact fun _ _ => rfl
  rcases Nat.eq_zero_or_pos cfg.rounds with hzero | hpos
  · rw [hzero]
    exact hempty
  · have hflag := fun h => hbooks ⟨hpos, h⟩
    refine Post.foldlM (I := fun (st' : State n) => ∀ f i, st'.schedules f i = none) hempty
      (fun round _ st' h' => Post.foldlM h' (fun out _ st' h' => ?_))
    rw [acceptFrom_none (fun hr => hflag (.inl hr)) (fun hmap => hflag (.inr hmap))]
    exact h'

end Matching.SbQpsFixed

end SschedSimulator
