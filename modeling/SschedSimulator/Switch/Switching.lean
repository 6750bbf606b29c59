import SschedSimulator.Switch.IQSwitch

namespace SschedSimulator

open Foundation

/-!
# `switching()` — a switch driven by a scheduler

A slot reads the input channels, calls the scheduler and writes the outputs.  The scheduler is
a parameter: a state, the random choices of one call, `schedule()` and the `_in_match` it leaves.

Packet conservation is proved once for every scheduler: `Conserves` says of `schedule()` alone
that what the scheduler holds changes by the arrivals and by what it dispatches, and
`Conserves.run` concludes that the queues of the switch and the packets held by the scheduler
stay equal over whole runs.
-/

variable {n m : ℕ}

/-- A scheduler as a switch sees it. -/
structure SchedulerModel (n m : ℕ) where
  State : Type
  /-- the random choices made in one call -/
  Input : Type
  schedule : Input → IQSwitch n m → State → Except Fault State
  inMatch : State → Fin n → Option (Fin m)

/-- A switch together with the state of its scheduler. -/
structure System (S : SchedulerModel n m) where
  switch : IQSwitch n m
  scheduler : S.State

variable {S : SchedulerModel n m}

/-- `switching`: one slot. -/
def switching (S : SchedulerModel n m) (input : S.Input) (channels : Fin n → List (Packet n m))
    (sys : System S) : Except Fault (System S) := do
  let sw := sys.switch.readInputs channels
  let scheduler ← S.schedule input sw sys.scheduler
  let sw' ← sw.writeOutputs (S.inMatch scheduler)
  .ok ⟨sw'.tick, scheduler⟩

/-- A slot that returns leaves the scheduler in the state its call returned. -/
theorem schedule_of_switching {input : S.Input} {channels : Fin n → List (Packet n m)}
    {sys sys' : System S} (h : switching S input channels sys = .ok sys') :
    S.schedule input (sys.switch.readInputs channels) sys.scheduler = .ok sys'.scheduler := by
  obtain ⟨scheduler, hsched, h'⟩ := bind_eq_ok.mp h
  obtain ⟨sw', -, h''⟩ := bind_eq_ok.mp h'
  rw [hsched, ← Except.ok.inj h'']

/-- A slot in which the scheduler returns a matching returns: every matched queue that has a packet
    loses one. -/
theorem switching_eq_ok (input : S.Input) {channels : Fin n → List (Packet n m)} {sys : System S}
    {s' : S.State}
    (hrun : S.schedule input (sys.switch.readInputs channels) sys.scheduler = .ok s')
    (hmatch : IsMatching (S.inMatch s')) :
    ∃ sys', switching S input channels sys = .ok sys' ∧ sys'.scheduler = s' ∧
      ∀ i o, sys'.switch.getQueueLength i o
        = (sys.switch.readInputs channels).getQueueLength i o
          - if S.inMatch s' i = some o then 1 else 0 := by
  obtain ⟨sw', hwrite, hlen⟩ :=
    (IQSwitch.writeOutputs_post (sys.switch.readInputs channels) (S.inMatch s')).exists_ok
      (fun _ _ he => he.2 hmatch)
  refine ⟨⟨sw'.tick, s'⟩, ?_, rfl, fun i o => ?_⟩
  · rw [switching, hrun, ok_bind, hwrite, ok_bind]
  · rw [IQSwitch.tick_getQueueLength, hlen]

/-- A queue still has a packet after the slot unless its last one has left. -/
theorem pos_of_departed_iff {length : ℕ} {departed : Prop} [Decidable departed] :
    0 < length ∧ ¬ (departed ∧ length = 1) ↔ 0 < length - if departed then 1 else 0 := by
  split
  · rename_i hdeparted
    simp only [hdeparted, true_and]
    omega
  · rename_i hdeparted
    simp only [hdeparted, false_and, not_false_eq_true, and_true]
    omega

/-- The system after the first `T` slots. -/
def runSlots (S : SchedulerModel n m) (inputs : ℕ → S.Input)
    (channels : ℕ → Fin n → List (Packet n m)) (sys : System S) : ℕ → Except Fault (System S)
  | 0 => .ok sys
  | T + 1 => do
    let sys' ← runSlots S inputs channels sys T
    switching S (inputs T) (channels T) sys'

/-- `sys'` is reached from `sys` by slots in which no assertion fails, each called with random
    choices that meet `C` on the switch and the scheduler it reads. -/
inductive RunWhere (S : SchedulerModel n m) (C : S.Input → IQSwitch n m → S.State → Prop)
    (sys : System S) : System S → Prop where
  | refl : RunWhere S C sys sys
  | step {mid sys' : System S} (input : S.Input) (channels : Fin n → List (Packet n m)) :
      RunWhere S C sys mid → C input (mid.switch.readInputs channels) mid.scheduler →
      switching S input channels mid = .ok sys' → RunWhere S C sys sys'

/-- `sys'` is reached from `sys` by slots in which no assertion fails. -/
abbrev Run (S : SchedulerModel n m) : System S → System S → Prop :=
  RunWhere S (fun _ _ _ => True)

theorem Run.step {sys mid sys' : System S} (input : S.Input)
    (channels : Fin n → List (Packet n m)) (h : Run S sys mid)
    (hok : switching S input channels mid = .ok sys') : Run S sys sys' :=
  RunWhere.step input channels h trivial hok

/-- What a property of one slot says about a run. -/
theorem RunWhere.induction {C : S.Input → IQSwitch n m → S.State → Prop} {P : System S → Prop}
    {sys sys' : System S} (h : RunWhere S C sys sys') (h0 : P sys)
    (hstep : ∀ input channels mid next, P mid →
      C input (mid.switch.readInputs channels) mid.scheduler →
      switching S input channels mid = .ok next → P next) : P sys' := by
  induction h with
  | refl => exact h0
  | step input channels _ hC hrun ih => exact hstep input channels _ _ ih hC hrun

/-- A property with which every slot returns, and which it leaves, holds over a run. -/
theorem RunWhere.preserved {C : S.Input → IQSwitch n m → S.State → Prop} {P : System S → Prop}
    {sys sys' : System S} (h : RunWhere S C sys sys') (h0 : P sys)
    (hslot : ∀ input channels mid, P mid → C input (mid.switch.readInputs channels) mid.scheduler →
      ∃ next, switching S input channels mid = .ok next ∧ P next) : P sys' := by
  refine h.induction h0 (fun input channels mid next hmid hC hok => ?_)
  obtain ⟨next', hok', hnext⟩ := hslot input channels mid hmid hC
  rw [hok, Except.ok.injEq] at hok'
  rwa [hok']

/-! ### Conservation -/

/-- The scheduler neither loses nor invents packets.  `held s i o` is the number of packets from
    `i` to `o` that the scheduler accounts for in state `s`; a call that meets `C` adds the
    arrivals and takes away what it dispatches.  `E` bounds the faults of the slot; it has to
    admit `outputOccupied` where the dispatched row may not be a matching. -/
structure Conserves (S : SchedulerModel n m) (C : S.Input → IQSwitch n m → S.State → Prop)
    (Inv : S.State → Prop) (held : S.State → Fin n → Fin m → ℤ)
    (E : S.Input → IQSwitch n m → S.State → Fault → Prop) : Prop where
  post : ∀ input sw s, Inv s → C input sw s → Post (S.schedule input sw s) (E input sw s)
    (fun s' => Inv s' ∧ (¬ IsMatching (S.inMatch s') → E input sw s .outputOccupied) ∧
      ∀ i o, 0 ≤ held s' i o ∧ held s' i o + (if S.inMatch s' i = some o then 1 else 0)
        = held s i o + sw.getArrivals.count (i, o))

/-- The queues of the switch hold what the scheduler accounts for. -/
def Balanced (held : S.State → Fin n → Fin m → ℤ) (sys : System S) : Prop :=
  ∀ i o, (sys.switch.getQueueLength i o : ℤ) = held sys.scheduler i o

section

variable {C : S.Input → IQSwitch n m → S.State → Prop} {Inv : S.State → Prop}
  {held : S.State → Fin n → Fin m → ℤ} {E : S.Input → IQSwitch n m → S.State → Fault → Prop}

/-- What the scheduler holds after a call, together with what it dispatches, is what the switch
    holds after reading. -/
theorem Conserves.schedule_post (h : Conserves S C Inv held E) (input : S.Input)
    (channels : Fin n → List (Packet n m)) {sys : System S} (hinv : Inv sys.scheduler)
    (hC : C input (sys.switch.readInputs channels) sys.scheduler) (hbal : Balanced held sys) :
    Post (S.schedule input (sys.switch.readInputs channels) sys.scheduler)
      (E input (sys.switch.readInputs channels) sys.scheduler) (fun s' => Inv s' ∧
        (¬ IsMatching (S.inMatch s') →
          E input (sys.switch.readInputs channels) sys.scheduler .outputOccupied) ∧
        ∀ i o, 0 ≤ held s' i o ∧ held s' i o + (if S.inMatch s' i = some o then 1 else 0)
          = (sys.switch.readInputs channels).getQueueLength i o) := by
  refine (h.post input (sys.switch.readInputs channels) sys.scheduler hinv hC).imp ?_
  rintro s' ⟨hinv', hmatch, hlaw⟩
  refine ⟨hinv', hmatch, fun i o => ⟨(hlaw i o).1, ?_⟩⟩
  rw [(hlaw i o).2, IQSwitch.readInputs_arrivals, IQSwitch.readInputs_queueLength, ← hbal i o]
  push_cast
  rfl

/-- Every dispatched pair finds a packet in its queue. -/
theorem Conserves.served (h : Conserves S C Inv held E) (input : S.Input)
    (channels : Fin n → List (Packet n m)) {sys : System S} (hinv : Inv sys.scheduler)
    (hC : C input (sys.switch.readInputs channels) sys.scheduler) (hbal : Balanced held sys)
    {s' : S.State}
    (hrun : S.schedule input (sys.switch.readInputs channels) sys.scheduler = .ok s')
    {i : Fin n} {o : Fin m} (hio : S.inMatch s' i = some o) :
    0 < (sys.switch.readInputs channels).getQueueLength i o := by
  obtain ⟨-, -, hlaw⟩ := (h.schedule_post input channels hinv hC hbal).of_ok hrun
  obtain ⟨hpos, heq⟩ := hlaw i o
  -- What is still held after the call is not negative, and the dispatched packet comes on top.
  rw [if_pos hio] at heq
  omega

/-- One slot keeps the balance, and stops only at a fault in `E`. -/
theorem Conserves.switching_post (h : Conserves S C Inv held E) (input : S.Input)
    (channels : Fin n → List (Packet n m)) {sys : System S} (hinv : Inv sys.scheduler)
    (hC : C input (sys.switch.readInputs channels) sys.scheduler) (hbal : Balanced held sys) :
    Post (switching S input channels sys)
      (E input (sys.switch.readInputs channels) sys.scheduler)
      (fun sys' => Inv sys'.scheduler ∧ Balanced held sys') := by
  refine (h.schedule_post input channels hinv hC hbal).bind ?_
  rintro s' ⟨hinv', hmatch, hlaw⟩
  refine ((IQSwitch.writeOutputs_post (sys.switch.readInputs channels) (S.inMatch s')).mono
    (fun e he => ?_) (fun sw' hsw' => hsw')).bind ?_
  · rw [he.1]
    exact hmatch he.2
  · -- The queue of a dispatched pair is not empty, so the subtraction takes off exactly one.
    intro sw' hlen
    refine ⟨hinv', fun i o => ?_⟩
    obtain ⟨hpos, heq⟩ := hlaw i o
    simp only [IQSwitch.tick_getQueueLength, hlen]
    split at heq
    · rename_i hio
      rw [if_pos hio]
      omega
    · rename_i hio
      rw [if_neg hio]
      omega

/-- The invariant and the balance hold over whole runs. -/
theorem Conserves.run (h : Conserves S C Inv held E) {sys sys' : System S}
    (hrun : RunWhere S C sys sys') (hinv : Inv sys.scheduler) (hbal : Balanced held sys) :
    Inv sys'.scheduler ∧ Balanced held sys' := by
  apply hrun.induction ⟨hinv, hbal⟩
  intro input channels mid next hmid hC hok
  exact (h.switching_post input channels hmid.1 hC hmid.2).of_ok hok

end

end SschedSimulator
