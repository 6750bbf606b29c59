import SschedSimulator.Foundation.Lockstep
import SschedSimulator.Scheduler.Islip

namespace SschedSimulator

open Foundation

/-!
# `maximal_scheduler.cc` — `iSLIP` with the pointers that it is given

The factory takes the pointers from the configuration, and nothing checks them.  A scan adds a
pointer to the number of its step and takes the remainder, in `int`: a remainder of a negative
number is not positive, and is no index unless it is `0`.

* `Ints.schedule` — the operations of the source, with the index of every step checked;
* `PointerFits` — the pointers with which every step of a scan finds a port, also after the pointer
  has moved;
* `Ints.schedule_lockstep` — with such pointers the scheduler is the one of `Islip`, its pointers
  reduced modulo the number of ports.
-/

namespace Islip

variable {n m ports iterations : ℕ}

/-- `(k + offset) % ports`, as an index; a sum that overflows has no value. -/
def portAt (offset : ℤ) (k : Fin ports) : Except Fault (Fin ports) := do
  require ((k : ℤ) + offset < 2 ^ 31) .indexOutOfRange
  let port := ((k : ℤ) + offset).tmod ports
  if h : 0 ≤ port ∧ port.toNat < ports then .ok ⟨port.toNat, h.2⟩ else .error .indexOutOfRange

/-- The steps of a scan that are still to come. -/
def scanFrom (offset : ℤ) (test : Fin ports → Bool) :
    List (Fin ports) → Except Fault (Option (Fin ports))
  | [] => .ok none
  | k :: rest => do
    let port ← portAt offset k
    if test port then .ok (some port) else scanFrom offset test rest

/-- The first port from `offset` on that passes the test. -/
def scan (offset : ℤ) (test : Fin ports → Bool) : Except Fault (Option (Fin ports)) :=
  scanFrom offset test (List.finRange ports)

namespace Ints

/-- Steps 1 and 2 for one output. -/
def grantOutput (st : State n m ℤ) (out : Fin m) : Except Fault (Option (Fin n)) :=
  if st.outMatch out ≠ none then .ok none
  else scan (st.grantPointers out)
    (fun input => (st.inMatch input).isNone && st.queueStatus input out)

/-- Steps 1 and 2: `check`. -/
def grant (st : State n m ℤ) : Except Fault (Fin m → Option (Fin n)) :=
  (List.finRange m).foldlM (fun check out => do
    let granted ← grantOutput st out
    .ok (Function.update check out granted)) (fun _ => none)

/-- A pointer after its port was matched to `partner`. -/
def nextPointer (first : Bool) (partner : Fin ports) (ptr : ℤ) : ℤ :=
  if first then (((partner : ℕ) + 1) % ports : ℕ) else ptr

/-- Step 3 for one input. -/
def acceptInput (first : Bool) (check : Fin m → Option (Fin n)) (st : State n m ℤ) (i : Fin n) :
    Except Fault (State n m ℤ) :=
  if st.inMatch i ≠ none then .ok st
  else do
    match ← scan (st.acceptPointer i) (fun output => decide (check output = some i)) with
    | none => .ok st
    | some output => do
      require (st.inMatch i = none ∧ st.outMatch output = none) .portTaken
      .ok
        { st with
          inMatch := Function.update st.inMatch i (some output)
          outMatch := Function.update st.outMatch output (some i)
          acceptPointer :=
            Function.update st.acceptPointer i (nextPointer first output (st.acceptPointer i))
          grantPointers :=
            Function.update st.grantPointers output
              (nextPointer first i (st.grantPointers output)) }

/-- Iteration `it`. -/
def iterate (st : State n m ℤ) (it : ℕ) : Except Fault (State n m ℤ) := do
  let check ← grant st
  (List.finRange n).foldlM (acceptInput (it == 0) check) st

/-- `schedule`. -/
def schedule (iterations : ℕ) (sw : IQSwitch n m) (st : State n m ℤ) :
    Except Fault (State n m ℤ) := do
  let st' ← (List.range iterations).foldlM iterate (enterSlot sw st)
  .ok { st' with
    queueStatus := handleDepartures sw.getQueueLength st'.inMatch st'.queueStatus }

/-- The scheduler as a switch drives it. -/
abbrev model (n m iterations : ℕ) : SchedulerModel n m where
  State := State n m ℤ
  Input := Unit
  schedule := fun _ => schedule iterations
  inMatch := State.inMatch

end Ints

/-! ### Pointers that fit -/

/-- A pointer into `ports` ports with which no step of a scan leaves them, or overflows.  The
    scheduler itself moves it to any of the ports. -/
def PointerFits (ports : ℕ) (ptr : ℤ) : Prop :=
  ptr < 2 ^ 31 ∧ (ports ≤ 1 ∨ ports ≤ 2 ^ 30 ∧ 0 ≤ ptr ∧ ptr + ports ≤ 2 ^ 31)

instance (ports : ℕ) (ptr : ℤ) : Decidable (PointerFits ports ptr) :=
  inferInstanceAs (Decidable (_ ∧ _))

/-- A pointer reduced to the range of the ports. -/
def inRange (ports : ℕ) (ptr : ℤ) : ℕ := (ptr % ports).toNat

/-- A port number is in range as it is. -/
theorem inRange_of_lt {ptr : ℕ} (h : ptr < ports) : inRange ports ptr = ptr := by
  rw [inRange, Int.emod_eq_of_lt (Int.natCast_nonneg ptr) (Int.ofNat_lt.mpr h), Int.toNat_natCast]

/-- Every step finds its port. -/
theorem portAt_eq {ptr : ℤ} (h : PointerFits ports ptr) (k : Fin ports) :
    portAt ptr k = .ok (RoundRobin.visit (inRange ports ptr) k) := by
  have hk := k.isLt
  have hsum : (k : ℤ) + ptr < 2 ^ 31 := by
    obtain ⟨hptr, hone | ⟨-, -, hfit⟩⟩ := h <;> omega
  have hport : ((k : ℤ) + ptr).tmod ports = ((k + inRange ports ptr) % ports : ℕ) := by
    have hmod : (((k + inRange ports ptr) % ports : ℕ) : ℤ) = ((k : ℤ) + ptr) % ports := by
      have hnonneg := Int.emod_nonneg ptr (show (ports : ℤ) ≠ 0 by omega)
      rw [inRange, Int.natCast_mod, Int.natCast_add, Int.toNat_of_nonneg hnonneg,
        Int.add_emod_emod]
    rw [hmod]
    obtain ⟨-, hone | ⟨-, hnonneg, -⟩⟩ := h
    · obtain rfl : ports = 1 := by omega
      rw [Int.natCast_one, Int.tmod_one, Int.emod_one]
    · exact Int.tmod_eq_emod_of_nonneg (by omega)
  have hlt := Nat.mod_lt ((k : ℕ) + inRange ports ptr) k.pos
  rw [portAt, require_pos hsum, ok_bind]
  dsimp only
  simp only [hport, Int.toNat_natCast]
  rw [dif_pos ⟨Int.natCast_nonneg _, hlt⟩]
  rfl

/-- A scan with checks is the scan of `RoundRobin`. -/
theorem scan_eq {ptr : ℤ} (h : PointerFits ports ptr) (test : Fin ports → Bool) :
    scan ptr test = .ok (RoundRobin.scan (inRange ports ptr) test) := by
  unfold scan RoundRobin.scan
  induction List.finRange ports with
  | nil => rfl
  | cons k rest ih =>
    rw [scanFrom, portAt_eq h, ok_bind, ih, List.map_cons, List.find?_cons]
    cases test (RoundRobin.visit (inRange ports ptr) k) <;> rfl

/-- A pointer at `0` fits as well. -/
theorem PointerFits.zero {ptr : ℤ} (h : PointerFits ports ptr) : PointerFits ports 0 := by
  obtain ⟨-, hone | ⟨hports, -⟩⟩ := h
  · exact ⟨by omega, .inl hone⟩
  · exact ⟨by omega, .inr ⟨hports, le_refl 0, by omega⟩⟩

/-- Where the pointer moves, it fits as well. -/
theorem pointerFits_nextPointer (first : Bool) (partner : Fin ports) {ptr : ℤ}
    (h : PointerFits ports ptr) : PointerFits ports (Ints.nextPointer first partner ptr) := by
  unfold Ints.nextPointer
  split
  · have hlt := Nat.mod_lt ((partner : ℕ) + 1) partner.pos
    obtain ⟨-, hone | ⟨hports, -⟩⟩ := h
    · exact ⟨by omega, .inl hone⟩
    · exact ⟨by omega, .inr ⟨hports, by omega, by omega⟩⟩
  · exact h

/-- It moves to the same port, reduced or not. -/
theorem inRange_nextPointer (first : Bool) (partner : Fin ports) (ptr : ℤ) :
    inRange ports (Ints.nextPointer first partner ptr)
      = nextPointer first partner (inRange ports ptr) := by
  unfold Ints.nextPointer nextPointer
  split
  · exact inRange_of_lt (Nat.mod_lt _ partner.pos)
  · rfl

namespace Ints

/-- All pointers fit. -/
structure Fits (st : State n m ℤ) : Prop where
  grant : ∀ o, PointerFits n (st.grantPointers o)
  accept : ∀ i, PointerFits m (st.acceptPointer i)

theorem Fits.reset {st : State n m ℤ} (h : Fits st) : Fits (Islip.reset st) where
  grant := fun o => (h.grant o).zero
  accept := fun i => (h.accept i).zero

/-- The scheduler with its pointers in range. -/
def normal (st : State n m ℤ) : State n m :=
  { st with
    grantPointers := fun o => inRange n (st.grantPointers o)
    acceptPointer := fun i => inRange m (st.acceptPointer i) }

/-- A pointer changes in one place, before or after it is reduced. -/
theorem inRange_update {α : Type} [DecidableEq α] (ptrs : α → ℤ) (a : α) (ptr : ℤ) :
    (fun b => inRange ports (Function.update ptrs a ptr b))
      = Function.update (fun b => inRange ports (ptrs b)) a (inRange ports ptr) :=
  Function.comp_update (inRange ports) ptrs a ptr

section

variable {st : State n m ℤ}

/-- Steps 1 and 2 find the ports that the reduced pointers find. -/
theorem grant_eq (h : Fits st) : grant st = .ok (Islip.grantOutput (normal st)) := by
  have houtput : ∀ out, grantOutput st out = .ok (Islip.grantOutput (normal st) out) := by
    intro out
    unfold grantOutput Islip.grantOutput
    show (if st.outMatch out ≠ none then _ else _)
      = Except.ok (if st.outMatch out ≠ none then none else _)
    split
    · rfl
    · exact scan_eq (h.grant out) _
  have hloop := Post.foldlM_parts (fun (check : Fin m → Option (Fin n)) out => check out)
    (f := fun check out => do
      let granted ← grantOutput st out
      .ok (Function.update check out granted)) (E := fun _ => False)
    (P := fun _ _ => True) (Q := fun out granted => granted = Islip.grantOutput (normal st) out)
    (List.nodup_finRange m) (fun _ _ => trivial) (s := fun _ => none) (fun out _ check _ => by
      rw [houtput, ok_bind]
      exact ⟨Function.update_self .., fun o ho => Function.update_of_ne ho ..⟩)
  obtain ⟨check, hrun, hcheck, -⟩ := hloop.exists_ok (fun _ _ he => he)
  rw [grant, hrun]
  exact congrArg Except.ok (funext (fun out => hcheck out (List.mem_finRange out)))

/-- The two schedulers side by side. -/
def Normalises (st : State n m ℤ) (st' : State n m) : Prop := Fits st ∧ st' = normal st

/-- So does step 3, and it moves the pointers alike. -/
theorem acceptInput_lockstep (h : Fits st) (first : Bool) (check : Fin m → Option (Fin n))
    (i : Fin n) : Lockstep Normalises (acceptInput first check st i)
      (Islip.acceptInput first check (normal st) i) := by
  unfold acceptInput Islip.acceptInput
  show Lockstep Normalises (if st.inMatch i ≠ none then _ else _)
    (if st.inMatch i ≠ none then _ else _)
  split
  · exact ⟨h, rfl⟩
  · rw [scan_eq (h.accept i), ok_bind]
    cases hscan : RoundRobin.scan ((normal st).acceptPointer i)
        (fun output => decide (check output = some i)) with
    | none =>
      rw [show RoundRobin.scan (inRange m (st.acceptPointer i)) _ = none from hscan]
      exact ⟨h, rfl⟩
    | some output =>
      rw [show RoundRobin.scan (inRange m (st.acceptPointer i)) _ = some output from hscan]
      refine Lockstep.bind_same _ (fun _ => ⟨⟨fun o => ?_, fun j => ?_⟩, ?_⟩)
      · show PointerFits n (Function.update st.grantPointers output _ o)
        rw [Function.update_apply]
        split
        · exact pointerFits_nextPointer first i (h.grant output)
        · exact h.grant o
      · show PointerFits m (Function.update st.acceptPointer i _ j)
        rw [Function.update_apply]
        split
        · exact pointerFits_nextPointer first output (h.accept i)
        · exact h.accept j
      · simp only [normal, inRange_update, inRange_nextPointer]

/-- An iteration. -/
theorem iterate_lockstep (h : Fits st) (it : ℕ) :
    Lockstep Normalises (iterate st it) (Islip.iterate (normal st) it) := by
  rw [iterate, grant_eq h, ok_bind]
  refine Lockstep.foldlM ⟨h, rfl⟩ (fun i _ a b hab => ?_)
  rw [hab.2]
  exact acceptInput_lockstep hab.1 _ _ i

/-- With pointers that fit, a call does what it does with the pointers in range. -/
theorem schedule_lockstep (h : Fits st) (iterations : ℕ) (sw : IQSwitch n m) :
    Lockstep Normalises (schedule iterations sw st)
      (Islip.schedule iterations sw (normal st)) := by
  refine Lockstep.bind (R := Normalises) (Lockstep.foldlM ⟨⟨h.grant, h.accept⟩, rfl⟩
    (fun it _ a b hab => ?_)) (fun a b hab => ?_)
  · rw [hab.2]
    exact iterate_lockstep hab.1 it
  · rw [hab.2]
    exact ⟨⟨hab.1.grant, hab.1.accept⟩, rfl⟩

end

/-! ### Runs of a switch -/

/-- The switch with the pointers of its scheduler in range. -/
def normalSystem (sys : System (model n m iterations)) : System (Islip.model n m iterations) :=
  ⟨sys.switch, normal sys.scheduler⟩

/-- One slot. -/
theorem switching_lockstep {sys : System (model n m iterations)} (h : Fits sys.scheduler)
    (channels : Fin n → List (Packet n m)) :
    Lockstep (fun a b => Fits a.scheduler ∧ b = normalSystem a)
      (switching (model n m iterations) () channels sys)
      (switching (Islip.model n m iterations) () channels (normalSystem sys)) := by
  refine (schedule_lockstep h iterations _).bind (fun a b hab => ?_)
  rw [hab.2]
  exact Lockstep.bind_same _ (fun sw' => ⟨hab.1, rfl⟩)

/-- The scheduler whose pointers are in range is synchronised with the switch. -/
structure Synchronised (sys : System (model n m iterations)) : Prop where
  fits : Fits sys.scheduler
  normal : Islip.Synchronised (normalSystem sys)

theorem Synchronised.status {sys : System (model n m iterations)} (h : Synchronised sys)
    (s : Fin n) (d : Fin m) :
    sys.scheduler.queueStatus s d = true ↔ 0 < sys.switch.getQueueLength s d :=
  h.normal.status s d

/-- One slot. -/
theorem Synchronised.switching_eq_ok {sys : System (model n m iterations)} (h : Synchronised sys)
    (channels : Fin n → List (Packet n m)) :
    ∃ next, switching (model n m iterations) () channels sys = .ok next ∧ Synchronised next := by
  obtain ⟨next', hok', hsync, -⟩ := h.normal.switching_eq_ok channels
  have hlockstep := switching_lockstep h.fits channels
  rw [hok'] at hlockstep
  obtain ⟨next, _, hok, heq, hfits, hnormal⟩ | ⟨e, -, he⟩ := hlockstep.cases
  · cases heq
    exact ⟨next, hok, hfits, hnormal ▸ hsync⟩
  · cases he

theorem Synchronised.run {sys sys' : System (model n m iterations)} (h : Synchronised sys)
    (hrun : Run (model n m iterations) sys sys') : Synchronised sys' := by
  exact hrun.preserved h (fun _ channels mid hmid _ => hmid.switching_eq_ok channels)

/-- Every step of a scan finds a port. -/
def FindsPorts (ports : ℕ) (ptr : ℤ) : Prop := ∀ k : Fin ports, ∃ port, portAt ptr k = .ok port

/-- A scan in which no port passes the test goes through all steps. -/
theorem scan_post {ptr : ℤ} {test : Fin ports → Bool} (htest : ∀ port, test port = false) :
    Post (scan ptr test) (fun _ => True) (fun found => found = none ∧ FindsPorts ports ptr) := by
  have hloop : ∀ steps : List (Fin ports), Post (scanFrom ptr test steps) (fun _ => True)
      (fun found => found = none ∧ ∀ k ∈ steps, ∃ port, portAt ptr k = .ok port) := by
    intro steps
    induction steps with
    | nil => exact ⟨rfl, fun _ hk => absurd hk List.not_mem_nil⟩
    | cons k rest ih =>
      unfold scanFrom
      cases hport : portAt ptr k with
      | error e => exact trivial
      | ok port =>
        rw [ok_bind, htest, if_neg Bool.false_ne_true]
        refine ih.imp (fun found h => ⟨h.1, fun k' hk' => ?_⟩)
        rcases List.mem_cons.mp hk' with rfl | hmem
        · exact ⟨port, hport⟩
        · exact h.2 k' hmem
  exact (hloop _).imp (fun found h => ⟨h.1, fun k => h.2 k (List.mem_finRange k)⟩)

/-- A scheduler before the first iteration of a slot in which no queue has a packet. -/
structure Idle (st : State n m ℤ) : Prop where
  inMatch : ∀ i, st.inMatch i = none
  outMatch : ∀ o, st.outMatch o = none
  queueStatus : ∀ i o, st.queueStatus i o = false

/-- No output grants, and every step of its scan has found a port. -/
theorem grant_post {st : State n m ℤ} (h : Idle st) : Post (grant st) (fun _ => True)
    (fun check => (∀ o, check o = none) ∧ ∀ o, FindsPorts n (st.grantPointers o)) := by
  have hoff : ∀ o i, ((st.inMatch i).isNone && st.queueStatus i o) = false := by
    intro o i
    rw [h.queueStatus, Bool.and_false]
  refine (Post.foldlM_parts (fun (check : Fin m → Option (Fin n)) o => check o)
    (P := fun _ _ => True) (Q := fun o granted => granted = none ∧ FindsPorts n (st.grantPointers o))
    (List.nodup_finRange m) (fun _ _ => trivial) (fun o _ check _ => ?_)).imp
    (fun check hcheck => ⟨fun o => (hcheck.1 o (List.mem_finRange o)).1,
      fun o => (hcheck.1 o (List.mem_finRange o)).2⟩)
  rw [grantOutput, if_neg (not_not_intro (h.outMatch o))]
  refine (scan_post (hoff o)).bind (fun granted hgranted => ⟨?_, fun o' ho' => ?_⟩)
  · rwa [Function.update_self]
  · exact Function.update_of_ne ho' _ _

/-- With nothing granted no input accepts. -/
theorem acceptLoop_post {st : State n m ℤ} (h : Idle st) {check : Fin m → Option (Fin n)}
    (hcheck : ∀ o, check o = none) (first : Bool) :
    Post ((List.finRange n).foldlM (acceptInput first check) st) (fun _ => True)
      (fun _ => ∀ i, FindsPorts m (st.acceptPointer i)) := by
  refine (Post.foldlM_rest (fun rest st' => st' = st ∧
    ∀ i, i ∉ rest → FindsPorts m (st.acceptPointer i)) _ _
    ⟨rfl, fun i hi => absurd (List.mem_finRange i) hi⟩ ?_).imp
    (fun _ hall i => hall.2 i List.not_mem_nil)
  rintro i rest st' ⟨rfl, hdone⟩
  have hoff : ∀ o, decide (check o = some i) = false := by
    intro o
    rw [hcheck, decide_eq_false_iff_not]
    exact fun hi => nomatch hi
  rw [acceptInput, if_neg (not_not_intro (h.inMatch i))]
  refine (scan_post hoff).bind (fun found hfound => ?_)
  rw [hfound.1]
  refine ⟨rfl, fun j hj => ?_⟩
  by_cases hji : j = i
  · rw [hji]
    exact hfound.2
  · exact hdone j (fun hmem => (List.mem_cons.mp hmem).elim hji hj)

end Ints

end Islip

end SschedSimulator
