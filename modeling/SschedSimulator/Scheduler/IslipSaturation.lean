import SschedSimulator.Foundation.TokenRing
import SschedSimulator.Scheduler.IslipConvergence
import SschedSimulator.Scheduler.IslipProgress
import SschedSimulator.Switch.Stability

namespace SschedSimulator

open Foundation

/-!
# `maximal_scheduler.cc` — `iSLIP` while no VOQ is empty

While every VOQ has a packet, every output grants the input that its grant pointer is at, every
input that is granted accepts one of its outputs, and that output moves its pointer on.  So the
grant pointers are tokens on a ring with a site for each input: whatever they start from, after
`n - 1` slots they have spread out.

* `Synchronised.circulates` — one slot, as a step of the tokens;
* `desynchronised` — from then on the matchings have the size of the smaller side, and if there are
  not more outputs than inputs, then every VOQ is served exactly once in `n` consecutive slots.
-/

namespace Islip

variable {n m iterations : ℕ}

/-- Every VOQ has a packet when the scheduler is called. -/
def Backlogged (sys : System (model n m iterations)) (channels : Fin n → List (Packet n m)) :
    Prop :=
  ∀ i o, 0 < (sys.switch.readInputs channels).getQueueLength i o

/-- The output that sends the token of site `i` on: the one that input `i` accepts. -/
def sender (sys : System (model n m iterations)) (channels : Fin n → List (Packet n m)) (i : ℕ) :
    Option (Fin m) :=
  if hi : i < n then
    accepted (enterSlot (sys.switch.readInputs channels) sys.scheduler) ⟨i, hi⟩
  else none

/-- The grant pointers of a system, one for each output. -/
def pointers (sys : System (model n m iterations)) : Fin m → ℕ := sys.scheduler.grantPointers

/-! ### One slot -/

section

variable {sys sys' : System (model n m iterations)} {channels : Fin n → List (Packet n m)}

/-- An output grants the input that its pointer is at. -/
theorem Synchronised.grantOutput_eq (h : Synchronised sys) (hfull : Backlogged sys channels)
    (o : Fin m) :
    grantOutput (enterSlot (sys.switch.readInputs channels) sys.scheduler) o
      = some ⟨sys.scheduler.grantPointers o, h.grantRange o⟩ := by
  have hrange := h.grantRange o
  have hopen : ¬ (enterSlot (sys.switch.readInputs channels) sys.scheduler).outMatch o ≠ none :=
    not_not.mpr rfl
  rw [grantOutput, if_neg hopen]
  refine (RoundRobin.scan_eq_some hrange).mpr ⟨?_, fun y hy => ?_⟩
  · exact (h.enterSlot_status channels _ o).mpr (hfull _ o)
  · -- The pointer is at distance `0` of itself.
    have hzero : RoundRobin.distance n (sys.scheduler.grantPointers o)
        (sys.scheduler.grantPointers o) = 0 := by
      rw [RoundRobin.distance_eq hrange hrange, if_pos le_rfl, Nat.sub_self]
    exact absurd (hzero ▸ hy) (Nat.not_lt_zero _)

/-- An output that is accepted is at the input that accepts it. -/
theorem Synchronised.pointer_of_accepted (h : Synchronised sys) (hfull : Backlogged sys channels)
    {i : Fin n} {o : Fin m}
    (hacc : accepted (enterSlot (sys.switch.readInputs channels) sys.scheduler) i = some o) :
    sys.scheduler.grantPointers o = i := by
  have hgrant := accepted_eq_some hacc
  rw [h.grantOutput_eq hfull o] at hgrant
  exact congrArg Fin.val (Option.some.inj hgrant)

theorem sender_fin (sys : System (model n m iterations)) (channels : Fin n → List (Packet n m))
    (i : Fin n) :
    sender sys channels i
      = accepted (enterSlot (sys.switch.readInputs channels) sys.scheduler) i := dif_pos i.isLt

/-- An input that is granted accepts an output. -/
theorem Synchronised.exists_sender (h : Synchronised sys) (hfull : Backlogged sys channels)
    (o : Fin m) : ∃ o', sender sys channels (pointers sys o) = some o' := by
  obtain ⟨o', ho'⟩ := exists_accepted (sound_enterSlot (sys.switch.readInputs channels)
    h.grantRange h.acceptRange) (h.grantOutput_eq hfull o)
  exact ⟨o', (sender_fin sys channels _).trans ho'⟩

/-- A slot moves the tokens of the accepted outputs on. -/
theorem Synchronised.circulates (hit : 1 ≤ iterations) (h : Synchronised sys)
    (hfull : Backlogged sys channels)
    (hslot : switching (model n m iterations) () channels sys = .ok sys') :
    Circulates n (pointers sys) (pointers sys') (sender sys channels) := by
  obtain ⟨st, -, hfirst, hgp, -⟩ := schedule_eq_first hit (schedule_of_switching hslot)
  -- A pointer moves on when the input it points to accepts the output.
  have hsends : ∀ o, sender sys channels (pointers sys o)
      = accepted (enterSlot (sys.switch.readInputs channels) sys.scheduler)
        ⟨pointers sys o, h.grantRange o⟩ := fun o => sender_fin sys channels ⟨_, h.grantRange o⟩
  refine ⟨h.grantRange, h.exists_sender hfull, fun {i o} hi => ?_, fun {o} ho => ?_,
    fun {o} ho => ?_⟩
  · unfold sender at hi
    split at hi
    · exact h.pointer_of_accepted hfull hi
    · cases hi
  · rw [hsends] at ho
    show sys'.scheduler.grantPointers o = _
    rw [hgp]
    rcases hfirst.output o with ⟨-, -, hno⟩ | ⟨i, -, hacc, -, hptr⟩
    · exact absurd ho (hno _ trivial)
    · rw [hptr, accepted_injective hacc ho]
      rfl
  · show sys'.scheduler.grantPointers o = _
    rw [hgp]
    rcases hfirst.output o with ⟨-, hptr, -⟩ | ⟨i, -, hacc, -, -⟩
    · exact hptr
    · refine absurd ?_ ho
      rw [show pointers sys o = i from h.pointer_of_accepted hfull hacc, sender_fin]
      exact hacc

/-- An output that sends its token on is matched to the input it was at. -/
theorem inMatch_of_sender (hit : 1 ≤ iterations)
    (hslot : switching (model n m iterations) () channels sys = .ok sys') {i : Fin n} {o : Fin m}
    (hsend : sender sys channels i = some o) : sys'.scheduler.inMatch i = some o := by
  obtain ⟨st, -, hfirst, -, -, hin⟩ := schedule_eq_first hit (schedule_of_switching hslot)
  rw [sender_fin] at hsend
  exact hin i o ((hfirst.input i).of_accepted hsend).1

/-- The inputs that some pointer is at are matched, and there are not more of them than the smaller
    side has ports. -/
theorem Synchronised.matchSize_bounds (hit : 1 ≤ iterations) (h : Synchronised sys)
    (hfull : Backlogged sys channels)
    (hslot : switching (model n m iterations) () channels sys = .ok sys') :
    (Finset.univ.image (pointers sys)).card ≤ matchSize sys'.scheduler.inMatch ∧
      matchSize sys'.scheduler.inMatch ≤ min n m := by
  obtain ⟨next, hok, -, hsafe, -⟩ := h.switching_eq_ok channels
  obtain rfl : next = sys' := Except.ok.inj (hok.symm.trans hslot)
  constructor
  · rw [matchSize, ← Finset.card_map Fin.valEmbedding]
    refine Finset.card_le_card (fun i hi => ?_)
    obtain ⟨o, -, rfl⟩ := Finset.mem_image.mp hi
    obtain ⟨o', ho'⟩ := h.exists_sender hfull o
    have hmatched := inMatch_of_sender hit hslot (i := ⟨_, h.grantRange o⟩) ho'
    exact Finset.mem_map.mpr ⟨⟨_, h.grantRange o⟩,
      Finset.mem_filter.mpr ⟨Finset.mem_univ _, by rw [hmatched]; rfl⟩, rfl⟩
  · have hsize : matchSize next.scheduler.outMatch = matchSize next.scheduler.inMatch :=
      MutuallyInverse.matchSize_eq hsafe.mutual_iff
    have hinputs := matchSize_le_ports next.scheduler.inMatch
    have houtputs := matchSize_le_ports next.scheduler.outMatch
    rw [Fintype.card_fin] at hinputs houtputs
    exact le_min hinputs (hsize ▸ houtputs)

end

/-! ### Many slots -/

/-- The run of a switch from a synchronised state. -/
theorem Synchronised.exists_trace {sys : System (model n m iterations)} (h : Synchronised sys)
    (channels : ℕ → Fin n → List (Packet n m)) :
    ∃ w, w 0 = sys ∧ Trace (model n m iterations) (fun _ => ()) channels w ∧
      ∀ t, Synchronised (w t) :=
  SschedSimulator.exists_trace (fun _ => ()) channels h (fun t mid hmid => by
    obtain ⟨next, hok, hnext, -⟩ := hmid.switching_eq_ok (channels t)
    exact ⟨next, hok, hnext⟩)

section

variable {channels : ℕ → Fin n → List (Packet n m)} {w : ℕ → System (model n m iterations)}

theorem circulates_trace (hit : 1 ≤ iterations)
    (htrace : Trace (model n m iterations) (fun _ => ()) channels w)
    (hsync : ∀ t, Synchronised (w t)) {T : ℕ} (hfull : ∀ t < T, Backlogged (w t) (channels t)) :
    ∀ t < T, Circulates n (pointers (w t)) (pointers (w (t + 1))) (sender (w t) (channels t)) :=
  fun t ht => (hsync t).circulates hit (hfull t ht) (htrace.step t)

/-- If the pointers are at different inputs, then every output serves the inputs in turn. -/
theorem inMatch_of_rotates (hit : 1 ≤ iterations)
    (htrace : Trace (model n m iterations) (fun _ => ()) channels w)
    (hsync : ∀ t, Synchronised (w t)) {T k : ℕ}
    (hfull : ∀ t ≤ T + k, Backlogged (w t) (channels t))
    (hinj : Function.Injective (pointers (w T))) (i : Fin n) (o : Fin m) :
    (w (T + k + 1)).scheduler.inMatch i = some o ↔ (pointers (w T) o + k) % n = i := by
  have hcirc := circulates_trace hit htrace hsync (T := T + k + 1) (fun t ht => hfull t (by omega))
  obtain ⟨hthen, hpos⟩ := rotates (T := T) (k := k) (fun t ht => hcirc t (by omega)) hinj
    (hsync T).grantRange
  have hsent : ∀ o, (w (T + k + 1)).scheduler.inMatch
      ⟨pointers (w (T + k)) o, (hsync (T + k)).grantRange o⟩ = some o := by
    intro o
    apply inMatch_of_sender hit (htrace.step (T + k))
    apply (hcirc (T + k) (by omega)).sent_of_uncrowded
    exact fun y z hy hz => hthen (hy.trans hz.symm)
  rw [← hpos o]
  constructor
  · intro hio
    obtain ⟨next, hok, -, hsafe, -⟩ := (hsync (T + k)).switching_eq_ok (channels (T + k))
    obtain rfl : next = w (T + k + 1) := Except.ok.inj (hok.symm.trans (htrace.step (T + k)))
    exact congrArg Fin.val (hsafe.inMatching (hsent o) hio)
  · intro hpointer
    rw [← hsent o]
    exact congrArg _ (Fin.ext hpointer.symm)

end

/-- However the pointers start and whatever happened before, once every VOQ has had a packet in
    `n - 1` consecutive slots the matchings have the size of the smaller side as long as that goes
    on; and if there are not more outputs than inputs, then each VOQ is served exactly once in `n`
    consecutive slots. -/
theorem desynchronised (hit : 1 ≤ iterations) {gp : Fin m → ℕ} {ap : Fin n → ℕ}
    (hgp : ∀ o, gp o < n) (hap : ∀ i, ap i < m) {start sys : System (model n m iterations)}
    (hstart : Start gp ap start) (hrun : Run (model n m iterations) start sys)
    (channels : ℕ → Fin n → List (Packet n m)) :
    ∃ w, w 0 = sys ∧ Trace (model n m iterations) (fun _ => ()) channels w ∧
      ∀ T, n - 1 ≤ T →
        ((∀ t ≤ T, Backlogged (w t) (channels t)) →
          matchSize (w (T + 1)).scheduler.inMatch = min n m) ∧
        (m ≤ n → (∀ t < T + n, Backlogged (w t) (channels t)) →
          ∀ i o, ∃! k, k < n ∧ (w (T + k + 1)).scheduler.inMatch i = some o) := by
  obtain ⟨w, h0, htrace, hsync⟩ :=
    ((hstart.synchronised hgp hap).run hrun).exists_trace channels
  refine ⟨w, h0, htrace, fun T hT => ⟨fun hfull => ?_, fun hmn hfull i o => ?_⟩⟩
  · have hcirc := circulates_trace hit htrace hsync (T := T) (fun t ht => hfull t ht.le)
    have hsites := card_sites hcirc (hsync T).grantRange hT
    obtain ⟨hlower, hupper⟩ := (hsync T).matchSize_bounds hit (hfull T le_rfl) (htrace.step T)
    rw [hsites, Fintype.card_fin] at hlower
    exact le_antisymm hupper hlower
  · have hcirc := circulates_trace hit htrace hsync (T := T) (fun t ht => hfull t (by omega))
    have hinj := injective_of_card_le hcirc (hsync T).grantRange hT (by rwa [Fintype.card_fin])
    have hserved : ∀ k < n, (w (T + k + 1)).scheduler.inMatch i = some o ↔
        (pointers (w T) o + k) % n = i := fun k hk =>
      inMatch_of_rotates hit htrace hsync (fun t ht => hfull t (by omega)) hinj i o
    -- Input `i` is visited at the step that its distance from the pointer gives.
    have hrange : pointers (w T) o < n := (hsync T).grantRange o
    refine ⟨RoundRobin.distance n (pointers (w T) o) i, ⟨RoundRobin.distance_lt hrange, ?_⟩, ?_⟩
    · rw [hserved _ (RoundRobin.distance_lt hrange), Nat.add_comm]
      exact congrArg Fin.val (RoundRobin.visit_distance hrange i)
    · rintro k ⟨hk, hmatch⟩
      rw [hserved k hk, Nat.add_comm] at hmatch
      have hvisit : RoundRobin.visit (pointers (w T) o) ⟨k, hk⟩ = i := Fin.ext hmatch
      rw [← hvisit, RoundRobin.distance_visit hrange ⟨k, hk⟩]

/-- Two inputs that get a packet for every output in every slot: both inputs are served from the
    second slot on, and every VOQ in every other slot. -/
theorem desynchronised_two :
    ∃ w : ℕ → System (model 2 2 1),
      w 0 = ⟨IQSwitch.empty 2 2, initial (fun _ => 0) (fun _ => 0)⟩ ∧
      ∀ T, 1 ≤ T → matchSize (w (T + 1)).scheduler.inMatch = 2 ∧
        ∀ i o, ∃! k, k < 2 ∧ (w (T + k + 1)).scheduler.inMatch i = some o := by
  let channels : Fin 2 → List (Packet 2 2) := fun i => [⟨i, 0, 0, 0⟩, ⟨i, 1, 0, 0⟩]
  have hfull : ∀ sys : System (model 2 2 1), Backlogged sys channels := by
    intro sys i o
    rw [IQSwitch.readInputs_queueLength]
    have hcount : 0 < (arrivalsOf channels).count (i, o) := by
      revert i o
      decide
    omega
  obtain ⟨w, h0, -, hw⟩ := @desynchronised 2 2 1 (by decide) (fun _ => 0) (fun _ => 0) (by decide)
    (by decide) _ _ (.empty (IQSwitch.empty_empty 2 2)) .refl (fun _ => channels)
  refine ⟨w, h0, fun T hT => ⟨?_, ?_⟩⟩
  · exact (hw T hT).1 (fun t _ => hfull (w t))
  · exact (hw T hT).2 (by decide) (fun t _ => hfull (w t))

end Islip

end SschedSimulator
