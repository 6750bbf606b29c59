import Mathlib.Data.Nat.Factorization.Basic
import SschedSimulator.Foundation.Interleaving
import SschedSimulator.Matching.SbQpsFixed

namespace SschedSimulator

open Foundation Alternation

/-!
# `ParallelScheduler` — matchings computed by several threads

Each thread computes a perfect matching of its own and hands it on through a promise.  In round `r`
a thread whose number is divisible by `2 ^ (r + 1)` takes the matching of the thread `2 ^ r` above
it, and thread 0 merges what it has taken into its own.  A run interleaves the threads and
`compute`, which joins them and takes the matching of thread 0, in any order.

* `receives_unique`, `exists_receives` — every thread but 0 hands over to exactly one other;
* `Exchanging` — what holds in every state of every run;
* `lossFree_iff` — the exchange is loss-free up to three threads, if no merge overflows; from four
  threads on matchings that no merge looks at are dropped.
-/

/-- What can go wrong in a thread. -/
inductive ParallelFault where
  /-- `get()` on a future whose value was taken: `std::future_error` -/
  | alreadyRetrieved
  /-- an index outside `_futures` -/
  | indexOutOfRange
  /-- an assertion of `merge`, or a sum that does not fit -/
  | merging (e : MatchingFault)
  deriving DecidableEq, Repr

namespace Matching.ParallelScheduler

variable {n T : ℕ}

/-- A thread in `matching_thread`: the rounds it has done, and `schedule`. -/
structure Worker (n : ℕ) where
  round : ℕ
  schedule : MatchingRow n
  finished : Bool

/-- The threads, their promises and who took the value of each future (`none` is `compute`);
    `joined` threads have been joined. -/
structure System (n T : ℕ) where
  worker : Fin T → Worker n
  promise : Fin T → Option (MatchingRow n)
  readers : Fin T → List (Option (Fin T))
  joined : ℕ
  result : Option (MatchingRow n)

/-- The threads have computed the matchings `loc`. -/
def System.start (loc : Fin T → MatchingRow n) : System n T where
  worker := fun i => { round := 0, schedule := loc i, finished := false }
  promise := fun _ => none
  readers := fun _ => []
  joined := 0
  result := none

def System.setWorker (st : System n T) (i : Fin T) (w : Worker n) : System n T :=
  { st with worker := Function.update st.worker i w }

/-- `_futures[j].get()`; `none` while the promise is not set. -/
def get (j : Fin T) (reader : Option (Fin T)) (st : System n T) :
    Except ParallelFault (Option (MatchingRow n × System n T)) :=
  if st.readers j ≠ [] then .error .alreadyRetrieved
  else
    match st.promise j with
    | none => .ok none
    | some row => .ok (some (row, { st with readers := Function.update st.readers j [reader] }))

/-- `if (id == 0) merge(schedule, received, schedule, weights)`. -/
def mergeReceived (weights : Weights n) (i : Fin T) (schedule received : MatchingRow n) :
    Except ParallelFault (MatchingRow n) :=
  if i.val = 0 then
    match SbQpsFixed.mergeInto weights schedule received with
    | .ok merged => .ok merged
    | .error e => .error (.merging e)
  else .ok schedule

/-- One iteration of the loop of `matching_thread`, or `prom.set_value(schedule)` after it. -/
def threadStep (weights : Weights n) (st : System n T) (i : Fin T) :
    Except ParallelFault (Option (System n T)) :=
  let w := st.worker i
  if w.finished then .ok none
  else if 2 ^ w.round < T then
    if h : i.val % (2 ^ w.round * 2) = 0 ∧ i.val + 2 ^ w.round < T then
      match get ⟨i.val + 2 ^ w.round, h.2⟩ (some i) st with
      | .error e => .error e
      | .ok none => .ok none
      | .ok (some (received, st')) => do
        let schedule ← mergeReceived weights i w.schedule received
        .ok (some (st'.setWorker i { w with round := w.round + 1, schedule := schedule }))
    else .ok (some (st.setWorker i { w with round := w.round + 1 }))
  else
    .ok (some { st.setWorker i { w with finished := true } with
      promise := Function.update st.promise i (some w.schedule) })

/-- `compute` joins the threads in turn and takes the value of the first future. -/
def computeStep (st : System n T) : Except ParallelFault (Option (System n T)) :=
  if h : st.joined < T then
    if (st.worker ⟨st.joined, h⟩).finished then .ok (some { st with joined := st.joined + 1 })
    else .ok none
  else if st.result ≠ none then .ok none
  else if h : 0 < T then
    match get ⟨0, h⟩ none st with
    | .error e => .error e
    | .ok none => .ok none
    | .ok (some (row, st')) => .ok (some { st' with result := some row })
  else .error .indexOutOfRange

/-- A step of a thread, or of `compute`. -/
def step (weights : Weights n) (st : System n T) :
    Option (Fin T) → Except ParallelFault (Option (System n T))
  | some i => threadStep weights st i
  | none => computeStep st

/-- Thread `i` is in a round in which it needs the value of thread `j`, which is not set. -/
def Waits (st : System n T) (i j : Fin T) : Prop :=
  (st.worker i).finished = false ∧ 2 ^ (st.worker i).round < T ∧
    i.val % (2 ^ (st.worker i).round * 2) = 0 ∧ i.val + 2 ^ (st.worker i).round = j.val ∧
    st.promise j = none

/-- What is claimed of the state after `k` steps, when the threads computed `loc`. -/
structure LossFreeState (weights : Weights n) (loc : Fin T → Equiv.Perm (Fin n)) (k : ℕ)
    (st : System n T) : Prop where
  /-- nobody is about to fault, in particular to read a future again -/
  noFault : ∀ a e, step weights st a ≠ .error e
  readOnce : ∀ j, (st.readers j).length ≤ 1
  noWaitCycle : ∀ i, ¬ Relation.TransGen (Waits st) i i
  /-- until `compute` has returned, somebody can step; and it returns after a bounded time -/
  progress : st.result = none → ∃ a st', step weights st a = .ok (some st')
  bounded : k ≤ (T + 1) * (T + 1)
  /-- when it has, every result was received by one other thread, that of thread 0 by `compute` -/
  received : st.result ≠ none →
    ∀ j, if j.val = 0 then st.readers j = [none] else ∃ i, i ≠ j ∧ st.readers j = [some i]
  returned : ∀ row, st.result = some row →
    ∃ p : Equiv.Perm (Fin n), row = Serena.rowOf p ∧ ∀ i, weight weights (loc i) ≤ weight weights p

/-- The exchange among `T` threads is loss-free: for all matchings of the threads and every order of
    steps. -/
def LossFree (T : ℕ) (weights : Weights n) : Prop :=
  ∀ (loc : Fin T → Equiv.Perm (Fin n)) (k : ℕ) (st : System n T),
    Interleaving (step weights) (.start (fun i => Serena.rowOf (loc i))) k st →
      LossFreeState weights loc k st

/-! ### Who hands over to whom -/

/-- In round `r` the thread `i` takes the value of the thread `j`. -/
def Receives (i r j : ℕ) : Prop := i % (2 ^ r * 2) = 0 ∧ i + 2 ^ r = j

instance (i r j : ℕ) : Decidable (Receives i r j) := inferInstanceAs (Decidable (_ ∧ _))

theorem Receives.pos {i r j : ℕ} (h : Receives i r j) : 0 < j := by
  have hpos := Nat.two_pow_pos r
  have hj := h.2
  omega

/-- The round is the number of zeros at the end of `j`, in binary. -/
theorem Receives.dvd {i r j : ℕ} (h : Receives i r j) : 2 ^ r ∣ j ∧ ¬ 2 ^ (r + 1) ∣ j := by
  obtain ⟨hmod, rfl⟩ := h
  have hi : 2 ^ (r + 1) ∣ i := Nat.dvd_of_mod_eq_zero hmod
  refine ⟨Nat.dvd_add ((Nat.pow_dvd_pow 2 (by omega)).trans hi) (dvd_refl _), fun hdvd => ?_⟩
  have hpos := Nat.two_pow_pos r
  have hle := Nat.le_of_dvd hpos ((Nat.dvd_add_right hi).mp hdvd)
  rw [pow_succ] at hle
  omega

/-- Every value is taken by one thread, in one round. -/
theorem receives_unique {i i' r r' j : ℕ} (h : Receives i r j) (h' : Receives i' r' j) :
    i = i' ∧ r = r' := by
  have hle : ∀ a b, 2 ^ a ∣ j → ¬ 2 ^ (b + 1) ∣ j → a ≤ b := by
    intro a b ha hb
    by_contra hlt
    exact hb ((Nat.pow_dvd_pow 2 (by omega)).trans ha)
  obtain rfl : r = r' :=
    le_antisymm (hle _ _ h.dvd.1 h'.dvd.2) (hle _ _ h'.dvd.1 h.dvd.2)
  have hj := h.2
  have hj' := h'.2
  exact ⟨by omega, rfl⟩

theorem exists_receives {j : ℕ} (hj : j ≠ 0) : ∃ i r, Receives i r j := by
  obtain ⟨r, m, ⟨c, rfl⟩, rfl⟩ := Nat.exists_eq_two_pow_mul_odd hj
  exact ⟨2 ^ r * 2 * c, r, Nat.mul_mod_right _ c, by ring⟩

/-! ### What thread 0 merges -/

section

variable {weights : Weights n} {loc : Fin T → Equiv.Perm (Fin n)}

/-- The matching of thread 0 after `r` rounds. -/
noncomputable def spine (weights : Weights n) (loc : Fin T → Equiv.Perm (Fin n)) (first : Fin T) :
    ℕ → Equiv.Perm (Fin n)
  | 0 => loc first
  | r + 1 =>
    if h : 2 ^ r < T then heavier weights (spine weights loc first r) (loc ⟨2 ^ r, h⟩)
    else spine weights loc first r

theorem le_heavier (weights : Weights n) (p q : Equiv.Perm (Fin n)) :
    weight weights p ≤ weight weights (heavier weights p q) ∧
      weight weights q ≤ weight weights (heavier weights p q) :=
  max_le_iff.mp (le_sum_heavier weights p q)

/-- The weight grows from round to round... -/
theorem spine_mono (first : Fin T) {r r' : ℕ} (h : r ≤ r') :
    weight weights (spine weights loc first r) ≤ weight weights (spine weights loc first r') := by
  induction h with
  | refl => exact le_refl _
  | @step r' _ ih =>
    refine ih.trans ?_
    rw [spine]
    split
    · exact (le_heavier weights _ _).1
    · exact le_refl _

/-- ...and covers the threads whose number is a power of two. -/
theorem le_spine (first : Fin T) {r r' : ℕ} (hr : 2 ^ r < T) (h : r < r') :
    weight weights (loc ⟨2 ^ r, hr⟩) ≤ weight weights (spine weights loc first r') := by
  refine le_trans ?_ (spine_mono first h)
  show _ ≤ weight weights (spine weights loc first (r + 1))
  rw [spine, dif_pos hr]
  exact (le_heavier weights _ _).2

/-- Threads that are no power of two do not count. -/
theorem spine_eq (first : Fin T) {p : Equiv.Perm (Fin n)} (hfirst : loc first = p)
    (hpow : ∀ r (h : 2 ^ r < T), loc ⟨2 ^ r, h⟩ = p) (r : ℕ) : spine weights loc first r = p := by
  induction r with
  | zero => exact hfirst
  | succ r ih =>
    unfold spine
    split
    · rename_i hr
      rw [ih, hpow r hr]
      ext i : 1
      exact heavier_of_le (le_refl _)
    · exact ih

/-- All sums fit that thread 0 forms when it merges in round `r`. -/
def MergeFits (weights : Weights n) (loc : Fin T → Equiv.Perm (Fin n)) (first : Fin T) (r : ℕ) :
    Prop :=
  ∀ h : 2 ^ r < T, WalksFit IsInt weights (spine weights loc first r) (loc ⟨2 ^ r, h⟩)

/-- A single thread merges nothing. -/
theorem mergeFits_of_all (hfit : 1 < T → ∀ p q : Equiv.Perm (Fin n), WalksFit IsInt weights p q)
    (first : Fin T) (r : ℕ) : MergeFits weights loc first r :=
  fun h => hfit (Nat.one_le_two_pow.trans_lt h) _ _

end

/-! ### The invariant of the exchange -/

/-- The steps that a thread has done. -/
def Worker.steps (w : Worker n) : ℕ := w.round + if w.finished then 1 else 0

/-- What holds after `k` steps. -/
structure Exchanging (weights : Weights n) (loc : Fin T → Equiv.Perm (Fin n)) (k : ℕ)
    (st : System n T) : Prop where
  first : ∀ i, i.val = 0 →
    (st.worker i).schedule = Serena.rowOf (spine weights loc i (st.worker i).round)
  others : ∀ i, i.val ≠ 0 → (st.worker i).schedule = Serena.rowOf (loc i)
  merged : ∀ i, i.val = 0 → ∀ r < (st.worker i).round, MergeFits weights loc i r
  promised : ∀ i, st.promise i
    = if (st.worker i).finished then some (st.worker i).schedule else none
  finished : ∀ i, (st.worker i).finished = true → T ≤ 2 ^ (st.worker i).round
  read : ∀ i j, some i ∈ st.readers j ↔ ∃ r < (st.worker i).round, Receives i r j
  readByCompute : ∀ j, none ∈ st.readers j ↔ j.val = 0 ∧ st.result ≠ none
  readOnce : ∀ j, (st.readers j).length ≤ 1
  joined : st.joined ≤ T ∧ ∀ i, i.val < st.joined → (st.worker i).finished = true
  returned : ∀ row, st.result = some row →
    st.joined = T ∧ ∃ i : Fin T, i.val = 0 ∧ st.promise i = some row
  rounds : ∀ i, (st.worker i).round ≤ T
  count : k = ∑ i, (st.worker i).steps + st.joined + if st.result = none then 0 else 1

section

variable {weights : Weights n} {loc : Fin T → Equiv.Perm (Fin n)} {k : ℕ} {st : System n T}

theorem exchanging_start (weights : Weights n) (loc : Fin T → Equiv.Perm (Fin n)) :
    Exchanging weights loc 0 (.start (fun i => Serena.rowOf (loc i))) where
  first := fun _ _ => rfl
  others := fun _ _ => rfl
  merged := fun _ _ _ h => absurd h (Nat.not_lt_zero _)
  promised := fun _ => rfl
  finished := fun _ h => by cases h
  read := fun i j => iff_of_false List.not_mem_nil (fun ⟨_, h, _⟩ => absurd h (Nat.not_lt_zero _))
  readByCompute := fun j => iff_of_false List.not_mem_nil (fun h => h.2 rfl)
  readOnce := fun _ => Nat.zero_le _
  joined := ⟨Nat.zero_le _, fun _ h => absurd h (Nat.not_lt_zero _)⟩
  returned := fun _ h => by cases h
  rounds := fun _ => Nat.zero_le _
  count := by simp [System.start, Worker.steps]

/-- A step of one thread is counted. -/
theorem sum_steps_update (worker : Fin T → Worker n) (i : Fin T) {w : Worker n}
    (h : w.steps = (worker i).steps + 1) :
    ∑ j, (Function.update worker i w j).steps = ∑ j, (worker j).steps + 1 := by
  rw [← Finset.add_sum_erase _ _ (Finset.mem_univ i),
    ← Finset.add_sum_erase _ _ (Finset.mem_univ i),
    Function.update_self, h]
  have hrest : ∑ j ∈ Finset.univ.erase i, (Function.update worker i w j).steps
      = ∑ j ∈ Finset.univ.erase i, (worker j).steps :=
    Finset.sum_congr rfl (fun j hj => by rw [Function.update_of_ne (Finset.ne_of_mem_erase hj)])
  omega

/-- A thread that is not done has a round that it can still do. -/
theorem Exchanging.round_lt (h : Exchanging weights loc k st) {i : Fin T}
    (hround : 2 ^ (st.worker i).round < T) :
    (st.worker i).finished = false ∧ (st.worker i).round + 1 ≤ T := by
  constructor
  · by_contra hfinished
    have := h.finished i (by simpa using hfinished)
    omega
  · have := Nat.lt_two_pow_self (n := (st.worker i).round)
    omega

/-- The value that a thread is about to take has not been taken. -/
theorem Exchanging.not_read (h : Exchanging weights loc k st) {i j : Fin T}
    (hreceives : Receives i (st.worker i).round j) : st.readers j = [] := by
  refine List.eq_nil_iff_forall_not_mem.mpr (fun a ha => ?_)
  cases a with
  | none =>
    have hj := ((h.readByCompute j).mp ha).1
    have := hreceives.pos
    omega
  | some i' =>
    obtain ⟨r, hr, hreceives'⟩ := (h.read i' j).mp ha
    obtain ⟨hi, rfl⟩ := receives_unique hreceives hreceives'
    rw [Fin.ext hi] at hr
    omega

/-- Who has taken which value, once thread `i` has taken those of its round. -/
theorem Exchanging.read_advance (h : Exchanging weights loc k st) {i : Fin T} {w : Worker n}
    (hw : w.round = (st.worker i).round + 1) {readers : Fin T → List (Option (Fin T))}
    (hreaders : ∀ j, readers j
      = if Receives i (st.worker i).round j then [some i] else st.readers j) (a j : Fin T) :
    some a ∈ readers j ↔ ∃ r < (Function.update st.worker i w a).round, Receives a r j := by
  rw [hreaders]
  split
  · -- The value taken in this round is taken by nobody else.
    rename_i hnow
    rw [List.mem_singleton, Option.some.injEq]
    constructor
    · intro ha
      subst ha
      rw [Function.update_self, hw]
      exact ⟨_, Nat.lt_succ_self _, hnow⟩
    · intro ha
      obtain ⟨r, -, hr⟩ := ha
      exact Fin.ext (receives_unique hr hnow).1
  · rename_i hnow
    rw [h.read]
    by_cases ha : a = i
    · subst ha
      rw [Function.update_self, hw]
      constructor
      · intro ⟨r, hr, hrec⟩
        exact ⟨r, Nat.lt_succ_of_lt hr, hrec⟩
      · intro ⟨r, hr, hrec⟩
        rcases Nat.lt_succ_iff_lt_or_eq.mp hr with hlt | rfl
        · exact ⟨r, hlt, hrec⟩
        · exact absurd hrec hnow
    · rw [Function.update_of_ne ha]

/-- A thread goes on to its next round; `readers` are as that thread's needs say. -/
theorem Exchanging.advance (h : Exchanging weights loc k st) {i : Fin T}
    (hround : 2 ^ (st.worker i).round < T) {schedule : MatchingRow n}
    {readers : Fin T → List (Option (Fin T))}
    (hfirst : i.val = 0 →
      schedule = Serena.rowOf (spine weights loc i ((st.worker i).round + 1)) ∧
        MergeFits weights loc i (st.worker i).round)
    (hothers : i.val ≠ 0 → schedule = (st.worker i).schedule)
    (hreaders : ∀ j, readers j
      = if Receives i (st.worker i).round j then [some i] else st.readers j)
    {st' : System n T}
    (hst' : st' = { st with readers := readers }.setWorker i
      { st.worker i with round := (st.worker i).round + 1, schedule := schedule }) :
    Exchanging weights loc (k + 1) st' := by
  obtain ⟨hrunning, hle⟩ := h.round_lt hround
  subst hst'
  let w := { st.worker i with round := (st.worker i).round + 1, schedule := schedule }
  have hself : Function.update st.worker i w i = w := Function.update_self ..
  have hother : ∀ j, j ≠ i → Function.update st.worker i w j = st.worker j :=
    fun j hj => Function.update_of_ne hj ..
  have hfinished : ∀ j, (Function.update st.worker i w j).finished = (st.worker j).finished := by
    intro j
    by_cases hj : j = i
    · rw [hj, hself]
    · rw [hother j hj]
  -- Worker `i` goes one round on, and at most the promise it reads gets a reader.
  refine ⟨fun j hj => ?_, fun j hj => ?_, fun j hj r hr => ?_, fun j => ?_, fun j hj => ?_,
    h.read_advance rfl hreaders, fun j => ?_, fun j => ?_, ⟨h.joined.1, fun j hj => ?_⟩,
    h.returned, fun j => ?_, ?_⟩
  · show (Function.update st.worker i w j).schedule
      = Serena.rowOf (spine weights loc j (Function.update st.worker i w j).round)
    by_cases hji : j = i
    · subst hji
      rw [hself]
      exact (hfirst hj).1
    · rw [hother j hji]
      exact h.first j hj
  · show (Function.update st.worker i w j).schedule = Serena.rowOf (loc j)
    by_cases hji : j = i
    · subst hji
      rw [hself]
      exact (hothers hj).trans (h.others j hj)
    · rw [hother j hji]
      exact h.others j hj
  · change r < (Function.update st.worker i w j).round at hr
    by_cases hji : j = i
    · subst hji
      rw [hself] at hr
      rcases Nat.lt_succ_iff_lt_or_eq.mp hr with hlt | rfl
      · exact h.merged j hj r hlt
      · exact (hfirst hj).2
    · rw [hother j hji] at hr
      exact h.merged j hj r hr
  · show st.promise j = if (Function.update st.worker i w j).finished
      then some (Function.update st.worker i w j).schedule else none
    by_cases hji : j = i
    · subst hji
      rw [h.promised, hfinished, hrunning]
      rfl
    · rw [hother j hji]
      exact h.promised j
  · change (Function.update st.worker i w j).finished = true at hj
    rw [hfinished] at hj
    have hji : j ≠ i := by
      intro hji
      rw [hji, hrunning] at hj
      cases hj
    show T ≤ 2 ^ (Function.update st.worker i w j).round
    rw [hother j hji]
    exact h.finished j hj
  · show none ∈ readers j ↔ j.val = 0 ∧ st.result ≠ none
    rw [hreaders]
    split
    · rename_i hnow
      refine iff_of_false (by simp) (fun hj => ?_)
      have := hnow.pos
      omega
    · exact h.readByCompute j
  · show (readers j).length ≤ 1
    rw [hreaders]
    split
    · exact le_refl 1
    · exact h.readOnce j
  · show (Function.update st.worker i w j).finished = true
    rw [hfinished]
    exact h.joined.2 j hj
  · show (Function.update st.worker i w j).round ≤ T
    by_cases hji : j = i
    · rw [hji, hself]
      exact hle
    · rw [hother j hji]
      exact h.rounds j
  · have hsteps : w.steps = (st.worker i).steps + 1 := Nat.add_right_comm ..
    show k + 1 = ∑ j, (Function.update st.worker i w j).steps + st.joined
      + if st.result = none then 0 else 1
    rw [sum_steps_update st.worker i hsteps, h.count]
    omega

/-- A thread that is through with its rounds sets its promise. -/
theorem Exchanging.setValue (h : Exchanging weights loc k st) {i : Fin T}
    (hrunning : (st.worker i).finished = false) (hround : T ≤ 2 ^ (st.worker i).round)
    {st' : System n T}
    (hst' : st' = { st.setWorker i { st.worker i with finished := true } with
      promise := Function.update st.promise i (some (st.worker i).schedule) }) :
    Exchanging weights loc (k + 1) st' := by
  subst hst'
  let w := { st.worker i with finished := true }
  have hself : Function.update st.worker i w i = w := Function.update_self ..
  have hother : ∀ j, j ≠ i → Function.update st.worker i w j = st.worker j :=
    fun j hj => Function.update_of_ne hj ..
  have hsame : ∀ j, (Function.update st.worker i w j).round = (st.worker j).round ∧
      (Function.update st.worker i w j).schedule = (st.worker j).schedule := by
    intro j
    by_cases hj : j = i
    · rw [hj, hself]
      exact ⟨rfl, rfl⟩
    · rw [hother j hj]
      exact ⟨rfl, rfl⟩
  -- The promise of `i` is set once, when the thread ends.
  have hnone : st.promise i = none := by rw [h.promised, hrunning]; rfl
  refine ⟨fun j hj => ?_, fun j hj => ?_, fun j hj r hr => h.merged j hj r ((hsame j).1 ▸ hr),
    fun j => ?_, fun j hj => ?_, fun a j => ?_, h.readByCompute, h.readOnce, ⟨h.joined.1, fun j hj => ?_⟩, fun row hrow => ?_, fun j => ?_, ?_⟩
  · show (Function.update st.worker i w j).schedule
      = Serena.rowOf (spine weights loc j (Function.update st.worker i w j).round)
    rw [(hsame j).1, (hsame j).2]
    exact h.first j hj
  · show (Function.update st.worker i w j).schedule = Serena.rowOf (loc j)
    rw [(hsame j).2]
    exact h.others j hj
  · show Function.update st.promise i _ j = if (Function.update st.worker i w j).finished
      then some (Function.update st.worker i w j).schedule else none
    by_cases hji : j = i
    · subst hji
      rw [Function.update_self, hself]
      rfl
    · rw [Function.update_of_ne hji, hother j hji]
      exact h.promised j
  · show T ≤ 2 ^ (Function.update st.worker i w j).round
    rw [(hsame j).1]
    by_cases hji : j = i
    · rw [hji]
      exact hround
    · change (Function.update st.worker i w j).finished = true at hj
      rw [hother j hji] at hj
      exact h.finished j hj
  · show some a ∈ st.readers j ↔ ∃ r < (Function.update st.worker i w a).round, Receives a r j
    rw [(hsame a).1]
    exact h.read a j
  · show (Function.update st.worker i w j).finished = true
    by_cases hji : j = i
    · rw [hji, hself]
    · rw [hother j hji]
      exact h.joined.2 j hj
  · obtain ⟨hjoined, j, hj, hpromise⟩ := h.returned row hrow
    have hji : j ≠ i := by
      intro hji
      rw [hji, hnone] at hpromise
      cases hpromise
    exact ⟨hjoined, j, hj, (Function.update_of_ne hji ..).trans hpromise⟩
  · show (Function.update st.worker i w j).round ≤ T
    rw [(hsame j).1]
    exact h.rounds j
  · have hsteps : w.steps = (st.worker i).steps + 1 := by
      show _ + (if true = true then 1 else 0) = _ + (if (st.worker i).finished then 1 else 0) + 1
      rw [hrunning]
      rfl
    show k + 1 = ∑ j, (Function.update st.worker i w j).steps + st.joined
      + if st.result = none then 0 else 1
    rw [sum_steps_update st.worker i hsteps, h.count]
    omega

/-- What `mergeReceived` makes of the matchings of two threads. -/
theorem Exchanging.mergeReceived_post (h : Exchanging weights loc k st) {i j : Fin T}
    (hreceives : Receives i (st.worker i).round j) :
    Post (mergeReceived weights i (st.worker i).schedule (Serena.rowOf (loc j)))
      (fun _ => ¬ MergeFits weights loc i (st.worker i).round) (fun schedule =>
        (i.val = 0 → schedule = Serena.rowOf (spine weights loc i ((st.worker i).round + 1)) ∧
          MergeFits weights loc i (st.worker i).round) ∧
        (i.val ≠ 0 → schedule = (st.worker i).schedule)) := by
  unfold mergeReceived
  split
  · rename_i hi
    -- Thread 0 takes the value of the thread whose number is the power of two.
    have hj : 2 ^ (st.worker i).round = j.val := by
      have := hreceives.2
      omega
    have hlt : 2 ^ (st.worker i).round < T := hj ▸ j.isLt
    have hfin : (⟨2 ^ (st.worker i).round, hlt⟩ : Fin T) = j := Fin.ext hj
    have hmerge : MergeFits weights loc i (st.worker i).round
        ↔ WalksFit IsInt weights (spine weights loc i (st.worker i).round) (loc j) :=
      ⟨fun hall => hfin ▸ hall hlt, fun hfit _ => hfin ▸ hfit⟩
    rw [h.first i hi, hmerge]
    by_cases hfit : WalksFit IsInt weights (spine weights loc i (st.worker i).round) (loc j)
    · rw [SbQpsFixed.mergeInto_rowOf hfit]
      refine ⟨fun _ => ⟨?_, hfit⟩, fun hne => absurd hi hne⟩
      rw [spine, dif_pos hlt, hfin]
    · rw [SbQpsFixed.mergeInto_eq_error hfit]
      exact hfit
  · rename_i hi
    exact ⟨fun h0 => absurd h0 hi, fun _ => rfl⟩

/-- A step of a thread: it is through, or waits, or goes on, or a merge overflows. -/
theorem Exchanging.threadStep (h : Exchanging weights loc k st) (i : Fin T) :
    ((threadStep weights st i = .ok none ∧
        ((st.worker i).finished = true ∨ ∃ j, Waits st i j)) ∨
      ∃ st', threadStep weights st i = .ok (some st') ∧ Exchanging weights loc (k + 1) st') ∨
    ∃ e, threadStep weights st i = .error e ∧ ¬ MergeFits weights loc i (st.worker i).round := by
  unfold ParallelScheduler.threadStep
  dsimp only
  by_cases hfinished : (st.worker i).finished = true
  · rw [if_pos hfinished]
    exact .inl (.inl ⟨rfl, .inl hfinished⟩)
  rw [if_neg hfinished]
  have hrunning := Bool.eq_false_iff.mpr hfinished
  by_cases hround : 2 ^ (st.worker i).round < T
  · rw [if_pos hround]
    by_cases htake : i.val % (2 ^ (st.worker i).round * 2) = 0 ∧
        i.val + 2 ^ (st.worker i).round < T
    · rw [dif_pos htake]
      let j : Fin T := ⟨i.val + 2 ^ (st.worker i).round, htake.2⟩
      have hreceives : Receives i (st.worker i).round j := ⟨htake.1, rfl⟩
      unfold ParallelScheduler.get
      rw [if_neg (not_not.mpr (h.not_read hreceives))]
      have hpromised := h.promised j
      cases hpromise : st.promise j with
      | none => exact .inl (.inl ⟨rfl, .inr ⟨j, hrunning, hround, htake.1, rfl, hpromise⟩⟩)
      | some row =>
        -- The value is the matching that the other thread computed.
        have hrow : row = Serena.rowOf (loc j) := by
          rw [hpromise] at hpromised
          split at hpromised
          · rw [Option.some.inj hpromised]
            exact h.others j hreceives.pos.ne'
          · cases hpromised
        have hpost := h.mergeReceived_post hreceives
        dsimp only
        rw [hrow]
        cases hmerge : mergeReceived weights i (st.worker i).schedule (Serena.rowOf (loc j)) with
        | error e =>
          rw [hmerge] at hpost
          exact .inr ⟨e, rfl, hpost⟩
        | ok schedule =>
          rw [hmerge] at hpost
          refine .inl (.inr ⟨_, rfl, h.advance hround hpost.1 hpost.2 (fun j' => ?_) rfl⟩)
          by_cases hj : j' = j
          · subst hj
            rw [if_pos hreceives]
            exact Function.update_self ..
          · have hnot : ¬ Receives i (st.worker i).round j' := fun hc =>
              hj (Fin.ext (hc.2.symm.trans hreceives.2))
            rw [if_neg hnot]
            exact Function.update_of_ne hj ..
    · rw [dif_neg htake]
      -- Thread 0 takes a value in every round.
      have hi : i.val ≠ 0 := fun hi => htake ⟨by rw [hi]; exact Nat.zero_mod _, by omega⟩
      refine .inl (.inr ⟨_, rfl, h.advance hround (fun h0 => absurd h0 hi) (fun _ => rfl)
        (fun j => ?_) rfl⟩)
      rw [if_neg]
      intro hc
      exact htake ⟨hc.1, hc.2 ▸ j.isLt⟩
  · rw [if_neg hround]
    exact .inl (.inr ⟨_, rfl, h.setValue hrunning (not_lt.mp hround) rfl⟩)

/-- A step of `compute`: it has returned, or joins a thread that runs, or goes on. -/
theorem Exchanging.computeStep (h : Exchanging weights loc k st) (hT : 0 < T) :
    (computeStep st = .ok none ∧
      (st.result ≠ none ∨ ∃ i, (st.worker i).finished = false)) ∨
    ∃ st', computeStep st = .ok (some st') ∧ Exchanging weights loc (k + 1) st' := by
  unfold ParallelScheduler.computeStep
  -- `compute` waits for the threads in turn.
  by_cases hjoined : st.joined < T
  · rw [dif_pos hjoined]
    by_cases hfinished : (st.worker ⟨st.joined, hjoined⟩).finished = true
    · rw [if_pos hfinished]
      refine .inr ⟨_, rfl,
        { h with joined := ⟨hjoined, fun i hi => ?_⟩, returned := ?_, count := ?_ }⟩
      · rcases Nat.lt_succ_iff_lt_or_eq.mp hi with hlt | heq
        · exact h.joined.2 i hlt
        · obtain rfl : i = ⟨st.joined, hjoined⟩ := Fin.ext heq
          exact hfinished
      · intro row hrow
        have := (h.returned row hrow).1
        omega
      · have := h.count
        show k + 1 = ∑ i, (st.worker i).steps + (st.joined + 1) + if st.result = none then 0 else 1
        omega
    · rw [if_neg hfinished]
      exact .inl ⟨rfl, .inr ⟨_, Bool.eq_false_iff.mpr hfinished⟩⟩
  rw [dif_neg hjoined]
  -- All threads are joined: it takes the value of the first promise.
  have hall : st.joined = T := le_antisymm h.joined.1 (not_lt.mp hjoined)
  by_cases hresult : st.result = none
  · rw [if_neg (not_not.mpr hresult), dif_pos hT]
    let first : Fin T := ⟨0, hT⟩
    have hunread : st.readers first = [] := by
      refine List.eq_nil_iff_forall_not_mem.mpr (fun a ha => ?_)
      cases a with
      | none => exact ((h.readByCompute first).mp ha).2 hresult
      | some i =>
        obtain ⟨r, -, hreceives⟩ := (h.read i first).mp ha
        exact absurd hreceives.pos (Nat.lt_irrefl 0)
    have hpromise : st.promise first = some (st.worker first).schedule := by
      rw [h.promised, h.joined.2 first (by rw [hall]; exact hT)]
      rfl
    unfold ParallelScheduler.get
    rw [if_neg (not_not.mpr hunread), hpromise]
    right
    refine ⟨_, rfl, { h with
      read := fun i j => ?_
      readByCompute := fun j => ?_
      readOnce := fun j => ?_
      returned := fun row hrow => ?_
      count := ?_ }⟩
    · show some i ∈ Function.update st.readers first [none] j ↔ _
      by_cases hj : j = first
      · subst hj
        rw [Function.update_self]
        refine iff_of_false (by simp) (fun hc => ?_)
        obtain ⟨r, -, hreceives⟩ := hc
        exact absurd hreceives.pos (Nat.lt_irrefl 0)
      · rw [Function.update_of_ne hj]
        exact h.read i j
    · show none ∈ Function.update st.readers first [none] j ↔ _
      by_cases hj : j = first
      · subst hj
        rw [Function.update_self]
        exact iff_of_true (List.mem_singleton_self _) ⟨rfl, Option.some_ne_none _⟩
      · rw [Function.update_of_ne hj, h.readByCompute]
        have hj0 : j.val ≠ 0 := fun hc => hj (Fin.ext hc)
        exact iff_of_false (fun hc => hj0 hc.1) (fun hc => hj0 hc.1)
    · show (Function.update st.readers first [none] j).length ≤ 1
      by_cases hj : j = first
      · rw [hj, Function.update_self]
        exact le_refl 1
      · rw [Function.update_of_ne hj]
        exact h.readOnce j
    · exact ⟨hall, first, rfl, hpromise.trans hrow⟩
    · have hcount := h.count
      rw [if_pos hresult] at hcount
      show k + 1 = ∑ i, (st.worker i).steps + st.joined + 1
      omega
  · rw [if_pos hresult]
    exact .inl ⟨rfl, .inl hresult⟩

/-- The invariant holds in every state of every run. -/
theorem exchanging_of_run (hT : 0 < T)
    (h : Interleaving (step weights) (.start (fun i => Serena.rowOf (loc i))) k st) :
    Exchanging weights loc k st := by
  refine h.invariant (exchanging_start weights loc) (fun k mid a st' hmid hstep => ?_)
  cases a with
  | some i =>
    rcases hmid.threadStep i with (⟨hblocked, -⟩ | ⟨next, hnext, hinv⟩) | ⟨e, herror, -⟩
    · cases hblocked.symm.trans hstep
    · cases hnext.symm.trans hstep
      exact hinv
    · cases herror.symm.trans hstep
  | none =>
    rcases hmid.computeStep hT with ⟨hblocked, -⟩ | ⟨next, hnext, hinv⟩
    · cases hblocked.symm.trans hstep
    · cases hnext.symm.trans hstep
      exact hinv

/-! ### What follows in every state -/

theorem Exchanging.noFault (h : Exchanging weights loc k st) (hT : 0 < T)
    (hfit : ∀ i r, MergeFits weights loc i r) (a : Option (Fin T)) (e : ParallelFault) :
    step weights st a ≠ .error e := by
  intro herror
  cases a with
  | some i =>
    rcases h.threadStep i with (⟨hok, -⟩ | ⟨next, hok, -⟩) | ⟨-, -, hnot⟩
    · cases hok.symm.trans herror
    · cases hok.symm.trans herror
    · exact hnot (hfit i _)
  | none =>
    rcases h.computeStep hT with ⟨hok, -⟩ | ⟨next, hok, -⟩
    · cases hok.symm.trans herror
    · cases hok.symm.trans herror

/-- A thread waits for one above it. -/
theorem Waits.lt {i j : Fin T} (h : Waits st i j) : i < j := by
  have hpos := Nat.two_pow_pos (st.worker i).round
  have hj := h.2.2.2.1
  exact Fin.lt_def.mpr (by omega)

/-- The last thread that runs is not blocked, and if none runs then `compute` is not. -/
theorem Exchanging.progress (h : Exchanging weights loc k st) (hT : 0 < T)
    (hfit : ∀ i r, MergeFits weights loc i r) (hresult : st.result = none) : ∃ a st', step weights st a = .ok (some st') := by
  by_cases hrunning : ∃ i, (st.worker i).finished = false
  · obtain ⟨i, hi, hlast⟩ := Set.Finite.exists_maximal
      (Set.toFinite {i | (st.worker i).finished = false}) hrunning
    rcases h.threadStep i with (⟨-, hblocked⟩ | ⟨st', hstep, -⟩) | ⟨-, -, hnot⟩
    · rcases hblocked with hfinished | ⟨j, hwaits⟩
      · cases hfinished.symm.trans hi
      · have hj : (st.worker j).finished = false := by
          have hpromised := h.promised j
          rw [hwaits.2.2.2.2] at hpromised
          split at hpromised
          · cases hpromised
          · rename_i hne
            exact Bool.eq_false_iff.mpr hne
        exact absurd (hlast hj hwaits.lt.le) (not_le.mpr hwaits.lt)
    · exact ⟨some i, st', hstep⟩
    · exact absurd (hfit i _) hnot
  · rcases h.computeStep hT with ⟨-, hblocked⟩ | ⟨st', hstep, -⟩
    · rcases hblocked with hne | hne
      · exact absurd hresult hne
      · exact absurd hne hrunning
    · exact ⟨none, st', hstep⟩

theorem Exchanging.bounded (h : Exchanging weights loc k st) : k ≤ (T + 1) * (T + 1) := by
  have hsteps : ∑ i, (st.worker i).steps ≤ T * (T + 1) := by
    have hle := Finset.sum_le_card_nsmul Finset.univ (fun i => (st.worker i).steps) (T + 1)
      (fun i _ => by
        have := h.rounds i
        unfold Worker.steps
        split <;> omega)
    rwa [Finset.card_univ, Fintype.card_fin, smul_eq_mul] at hle
  have hjoined := h.joined.1
  rw [h.count, Nat.add_mul T 1 (T + 1)]
  split <;> omega

/-- When `compute` has returned, all values were taken. -/
theorem Exchanging.received (h : Exchanging weights loc k st) (hresult : st.result ≠ none)
    (j : Fin T) :
    if j.val = 0 then st.readers j = [none] else ∃ i, i ≠ j ∧ st.readers j = [some i] := by
  -- A future is read at most once, so that one reader is the only one.
  have honly : ∀ a, a ∈ st.readers j → st.readers j = [a] := by
    intro a ha
    have honce := h.readOnce j
    obtain ⟨b, hb⟩ := List.length_eq_one_iff.mp
      (le_antisymm honce (List.length_pos_of_mem ha))
    rw [hb, List.mem_singleton] at ha
    rw [hb, ha]
  split
  · rename_i hj
    exact honly none ((h.readByCompute j).mpr ⟨hj, hresult⟩)
  · rename_i hj
    obtain ⟨row, hrow⟩ := Option.ne_none_iff_exists'.mp hresult
    obtain ⟨i, r, hreceives⟩ := exists_receives hj
    have hij := hreceives.2
    have hpos := Nat.two_pow_pos r
    let i' : Fin T := ⟨i, by omega⟩
    have hfinished := h.finished i' (h.joined.2 i' (by rw [(h.returned row hrow).1]; exact i'.isLt))
    have hr : r < (st.worker i').round := by
      by_contra hge
      have hle := Nat.pow_le_pow_right (show 0 < 2 by decide) (not_lt.mp hge)
      omega
    refine ⟨i', fun he => ?_, honly _ ((h.read i' j).mpr ⟨r, hr, hreceives⟩)⟩
    have := congrArg Fin.val he
    change i = j.val at this
    omega

/-- What is returned is the matching of thread 0. -/
theorem Exchanging.returned_eq (h : Exchanging weights loc k st) {row : MatchingRow n}
    (hrow : st.result = some row) : ∃ (first : Fin T) (r : ℕ), first.val = 0 ∧ T ≤ 2 ^ r ∧
      row = Serena.rowOf (spine weights loc first r) := by
  obtain ⟨-, first, hfirst, hpromise⟩ := h.returned row hrow
  rw [h.promised] at hpromise
  split at hpromise
  · rename_i hfinished
    refine ⟨first, (st.worker first).round, hfirst, h.finished first hfinished, ?_⟩
    rw [← h.first first hfirst]
    exact (Option.some.inj hpromise).symm
  · cases hpromise

/-- Everything but the weight: in every state of every run. -/
theorem Exchanging.lossFreeState (h : Exchanging weights loc k st) (hT : 0 < T)
    (hfit : ∀ i r, MergeFits weights loc i r)
    (hweight : ∀ first : Fin T, first.val = 0 → ∀ r, T ≤ 2 ^ r → ∀ i,
      weight weights (loc i) ≤ weight weights (spine weights loc first r)) :
    LossFreeState weights loc k st where
  noFault := h.noFault hT hfit
  readOnce := h.readOnce
  noWaitCycle := not_transGen_self id (fun _ _ hwaits => hwaits.lt)
  progress := h.progress hT hfit
  bounded := h.bounded
  received := h.received
  returned := by
    intro row hrow
    obtain ⟨first, r, hfirst, hr, rfl⟩ := h.returned_eq hrow
    exact ⟨_, rfl, hweight first hfirst r hr⟩

end

/-! ### When the exchange is loss-free -/

section

variable {weights : Weights n}

/-- Up to three threads all matchings are merged. -/
theorem le_spine_of_le_three {loc : Fin T → Equiv.Perm (Fin n)} (hT : T ≤ 3) {first : Fin T}
    (hfirst : first.val = 0) {r : ℕ} (hr : T ≤ 2 ^ r) (i : Fin T) :
    weight weights (loc i) ≤ weight weights (spine weights loc first r) := by
  have hi := i.isLt
  obtain hi0 | ⟨s, hs⟩ : i.val = 0 ∨ ∃ s, i.val = 2 ^ s := by
    obtain h | h | h : i.val = 0 ∨ i.val = 1 ∨ i.val = 2 := by omega
    · exact .inl h
    · exact .inr ⟨0, h⟩
    · exact .inr ⟨1, h⟩
  · obtain rfl : i = first := Fin.ext (hi0.trans hfirst.symm)
    exact spine_mono i (Nat.zero_le r)
  · have hlt : 2 ^ s < T := hs ▸ hi
    obtain rfl : i = ⟨2 ^ s, hlt⟩ := Fin.ext hs
    exact le_spine first hlt ((Nat.pow_lt_pow_iff_right (by decide)).mp (hlt.trans_le hr))

/-- A loss-free exchange has a run in which `compute` returns. -/
theorem LossFree.exists_result (hfree : LossFree T weights) (loc : Fin T → Equiv.Perm (Fin n)) :
    ∃ k st, Interleaving (step weights) (.start (fun i => Serena.rowOf (loc i))) k st ∧
      st.result ≠ none :=
  exists_run_to (fun k mid hmid hnot => (hfree loc k mid hmid).progress (not_not.mp hnot))
    (fun k mid hmid => (hfree loc k mid hmid).bounded)

/-- In a loss-free exchange no merge overflows: thread 0 may have any matching, and thread 1, too. -/
theorem LossFree.walksFit (hfree : LossFree T weights) (hT : 1 < T) (p q : Equiv.Perm (Fin n)) :
    WalksFit IsInt weights p q := by
  let loc : Fin T → Equiv.Perm (Fin n) := fun i => if i.val = 0 then p else q
  obtain ⟨k, st, hrun, hdone⟩ := hfree.exists_result loc
  have h := exchanging_of_run (zero_lt_one.trans hT) hrun
  obtain ⟨row, hrow⟩ := Option.ne_none_iff_exists'.mp hdone
  obtain ⟨-, first, hfirst, hpromise⟩ := h.returned row hrow
  -- Thread 0 has merged what it took from thread 1.
  have hfinished : (st.worker first).finished = true := by
    rw [h.promised] at hpromise
    split at hpromise
    · assumption
    · cases hpromise
  have hround : 0 < (st.worker first).round := by
    by_contra hzero
    have hle := h.finished first hfinished
    rw [Nat.eq_zero_of_not_pos hzero, pow_zero] at hle
    omega
  have hmerge := h.merged first hfirst 0 hround (by rwa [pow_zero])
  have hp : loc first = p := if_pos hfirst
  rw [spine, hp] at hmerge
  exact hmerge

/-- The matching `q` of thread 3 is dropped when all other threads have `p`. -/
theorem exists_dropped (hfit : ∀ p q : Equiv.Perm (Fin n), WalksFit IsInt weights p q) (hT : 3 < T)
    (p q : Equiv.Perm (Fin n)) :
    ∃ k st, Interleaving (step weights)
      (.start (fun i : Fin T => Serena.rowOf (if i.val = 3 then q else p))) k st ∧
      st.result = some (Serena.rowOf p) := by
  have hpos : 0 < T := by omega
  let loc : Fin T → Equiv.Perm (Fin n) := fun i => if i.val = 3 then q else p
  have hprogress : ∀ k mid,
      Interleaving (step weights) (.start (fun i => Serena.rowOf (loc i))) k mid →
      ¬ mid.result ≠ none → ∃ a next, step weights mid a = .ok (some next) :=
    fun k mid hmid hnot => (exchanging_of_run hpos hmid).progress hpos
      (mergeFits_of_all (fun _ => hfit)) (not_not.mp hnot)
  have hbound : ∀ k mid,
      Interleaving (step weights) (.start (fun i => Serena.rowOf (loc i))) k mid →
      k ≤ (T + 1) * (T + 1) := fun k mid hmid => (exchanging_of_run hpos hmid).bounded
  -- Three is no power of two.
  have hpow : ∀ r (h : 2 ^ r < T), loc ⟨2 ^ r, h⟩ = p := by
    intro r h
    refine if_neg (fun h3 => ?_)
    change 2 ^ r = 3 at h3
    cases r with
    | zero => omega
    | succ r =>
      rw [pow_succ] at h3
      omega
  obtain ⟨k, st, hrun, hdone⟩ := exists_run_to hprogress hbound
  refine ⟨k, st, hrun, ?_⟩
  obtain ⟨row, hrow⟩ := Option.ne_none_iff_exists'.mp hdone
  obtain ⟨first, r, hfirst, -, rfl⟩ := (exchanging_of_run hpos hrun).returned_eq hrow
  have hloc : loc first = p := if_neg (by omega)
  rw [hrow, spine_eq first hloc hpow r]

theorem not_lossFree (hT : 3 < T) {p q : Equiv.Perm (Fin n)}
    (hlt : weight weights p < weight weights q) : ¬ LossFree T weights := by
  intro hfree
  obtain ⟨k, st, hrun, hresult⟩ := exists_dropped (hfree.walksFit (by omega)) hT p q
  obtain ⟨p', hp', hle⟩ := (hfree _ k st hrun).returned _ hresult
  have hpp' : p = p' := Equiv.ext (fun i => Option.some.inj (congrFun hp' i))
  have hq := hle ⟨3, hT⟩
  rw [if_pos rfl, ← hpp'] at hq
  exact absurd hlt (not_lt.mpr hq)

/-- The exchange is loss-free exactly if there is one thread or no merge overflows, and there are at
    most three threads or all perfect matchings have the same weight. -/
theorem lossFree_iff (T : ℕ) (weights : Weights n) :
    LossFree T weights ↔
      0 < T ∧ (T ≤ 1 ∨ ∀ p q : Equiv.Perm (Fin n), WalksFit IsInt weights p q) ∧
        (T ≤ 3 ∨ ∀ p q : Equiv.Perm (Fin n), weight weights p = weight weights q) := by
  constructor
  · intro hfree
    refine ⟨?_, ?_, ?_⟩
    · -- Without threads `compute` finds no future.
      by_contra hT
      obtain rfl : T = 0 := Nat.eq_zero_of_not_pos hT
      exact (hfree (fun i => i.elim0) 0 _ .start).noFault none .indexOutOfRange rfl
    · rcases Nat.lt_or_ge 1 T with hlt | hle
      · exact .inr (hfree.walksFit hlt)
      · exact .inl hle
    · by_contra hne
      obtain ⟨hT, hne⟩ := not_or.mp hne
      obtain ⟨p, hne⟩ := not_forall.mp hne
      obtain ⟨q, hne⟩ := not_forall.mp hne
      rcases lt_or_gt_of_ne hne with hlt | hlt
      · exact not_lossFree (not_le.mp hT) hlt hfree
      · exact not_lossFree (not_le.mp hT) hlt hfree
  · intro ⟨hT, hfit, hcond⟩ loc k st hrun
    refine (exchanging_of_run hT hrun).lossFreeState hT
      (mergeFits_of_all (fun hlt => hfit.resolve_left (not_le.mpr hlt)))
      (fun first hfirst r hr i => ?_)
    rcases hcond with hle | heq
    · exact le_spine_of_le_three hle hfirst hr i
    · exact (heq _ _).le

/-- Four threads: the matching of thread 3 weighs more than the one that is returned.  Every entry is
    positive, so that each thread may well sample either of the two perfect matchings. -/
theorem lossFree_four_fails :
    let weights : Weights 2 := fun i o => if i = o then 1 else 2
    let loc : Fin 4 → Equiv.Perm (Fin 2) := fun i => if i.val = 3 then Equiv.swap 0 1 else 1
    (∃ k st, Interleaving (step weights) (.start (fun i => Serena.rowOf (loc i))) k st ∧
      st.result = some (Serena.rowOf 1) ∧ weight weights (1 : Equiv.Perm (Fin 2)) = 2 ∧
      weight weights (loc 3) = 4) ∧ ¬ LossFree 4 weights := by
  intro weights loc
  have hle : ∀ p : Equiv.Perm (Fin 2), weight weights p ≤ largestInt := by decide
  have hfit : ∀ p q : Equiv.Perm (Fin 2), WalksFit IsInt weights p q := fun p q =>
    walksFit_of_weight_le (by decide) (fun _ hx => isInt_of_abs_le hx) (hle p) (hle q)
  obtain ⟨k, st, hrun, hresult⟩ := exists_dropped hfit (show 3 < 4 by decide) 1 (Equiv.swap 0 1)
  refine ⟨⟨k, st, hrun, hresult, by decide, by decide⟩, ?_⟩
  exact not_lossFree (p := 1) (q := Equiv.swap 0 1) (by decide) (by decide)

end

end Matching.ParallelScheduler

end SschedSimulator
