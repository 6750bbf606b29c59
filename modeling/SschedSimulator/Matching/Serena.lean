import Mathlib.Data.Fintype.EquivFin
import Mathlib.Data.List.FinRange
import Mathlib.Tactic.Abel
import SschedSimulator.Foundation.Alternation
import SschedSimulator.Foundation.Outcome
import SschedSimulator.Foundation.PartialMatching
import SschedSimulator.Matching.IntSum

namespace SschedSimulator

open Foundation Alternation

/-!
# `serena.hpp` — completing and merging matchings

A matching of the matching program is a vector that holds the output of each input, or `-1`.
`fix_matching` pairs the ports that are left over; `merge` takes two perfect matchings and chooses,
for each cycle of their union, the heavier of the two.  It labels the inputs cycle by cycle, adding
up the difference of the two weights on the way, and then writes the result, possibly over one of
the vectors that it reads.  The differences are of type `int`: `mergeWith IsInt` is what the program
runs, and `merge` adds exactly.

* `matchingSize_eq` — the size of a partial matching;
* `fixMatching_eq_ok` — a partial matching becomes a perfect one that keeps its pairs;
* `mergeWith_eq_ok` — what `merge` computes, wherever the result is written, if all sums fit;
* `mergeWith_eq_error` — and if some does not.
-/

variable {n : ℕ}

/-- The assertions and range checks of the matching program. -/
inductive MatchingFault where
  /-- `assert(is_matching(S))` for an argument or the result of `merge` -/
  | notPerfect
  /-- `assert(S1.size() == S2.size())` in `merge`, with an empty vector -/
  | unevenSizes
  /-- `assert(unmatched_in.size() == unmatched_out.size())` in `fix_matching` -/
  | unevenPorts
  /-- `assert(c != -1)` in `merge` -/
  | unlabelled
  /-- an index outside a vector -/
  | indexOutOfRange
  /-- the `while` loop of `merge` is still running -/
  | unfinished
  /-- `assert(_schedules[frame][in] == NULL_SCHEDULE)` in `match_element` -/
  | cellOccupied
  /-- `assert(pos >= 0 && pos < size)` in `AvailabilityMap::set` -/
  | bitOutOfRange
  /-- a sum above or below the range of `int` -/
  | signedOverflow
  deriving DecidableEq, Repr

/-- The outputs of the inputs; `none` is `-1`. -/
abbrev MatchingRow (n : ℕ) := Fin n → Option (Fin n)

/-- The weight of each pair. -/
abbrev Weights (n : ℕ) := Fin n → Fin n → ℤ

namespace Serena

/-- `is_matching`: every entry is a port and every port is visited. -/
def isMatching (S : MatchingRow n) : Prop := (∀ i, S i ≠ none) ∧ ∀ o, ∃ i, S i = some o

instance (S : MatchingRow n) : Decidable (isMatching S) := inferInstanceAs (Decidable (_ ∧ _))

/-! ### `matching_size` -/

/-- The loop of `matching_size` over the inputs that are left. -/
def matchingSizeFrom (S : MatchingRow n) : List (Fin n) → (Fin n → Bool) → ℤ → ℤ
  | [], _, result => result
  | i :: rest, visited, result =>
    match S i with
    | none => matchingSizeFrom S rest visited result
    | some o =>
      if visited o then -1
      else matchingSizeFrom S rest (Function.update visited o true) (result + 1)

/-- `matching_size`. -/
def matchingSize (S : MatchingRow n) : ℤ :=
  matchingSizeFrom S (List.finRange n) (fun _ => false) 0

/-- The inputs that are left are matched to outputs that are not visited yet. -/
theorem matchingSizeFrom_eq {S : MatchingRow n} (h : IsMatching S) {l : List (Fin n)}
    (hl : l.Nodup) {visited : Fin n → Bool}
    (hnew : ∀ i ∈ l, ∀ o, S i = some o → visited o = false) (result : ℤ) :
    matchingSizeFrom S l visited result
      = result + (l.filter (fun i => (S i).isSome)).length := by
  induction l generalizing visited result with
  | nil => simp [matchingSizeFrom]
  | cons i rest ih =>
    obtain ⟨hi, hrest⟩ := List.nodup_cons.mp hl
    have hnew' : ∀ j ∈ rest, ∀ o, S j = some o → visited o = false :=
      fun j hj => hnew j (List.mem_cons_of_mem i hj)
    unfold matchingSizeFrom
    cases hS : S i with
    | none =>
      rw [List.filter_cons_of_neg (by simp [hS])]
      exact ih hrest hnew' result
    | some o =>
      have hvisited := hnew i (by simp) o hS
      rw [List.filter_cons_of_pos (by simp [hS]), List.length_cons]
      dsimp only
      rw [hvisited, if_neg Bool.false_ne_true, ih hrest (fun j hj p hp => ?_), Nat.cast_succ]
      · omega
      · -- No other input has the output of `i`.
        have hpo : p ≠ o := fun he => hi (h (he ▸ hp) hS ▸ hj)
        rw [Function.update_of_ne hpo]
        exact hnew' j hj p hp

/-- The size of a partial matching is the number of inputs that it matches. -/
theorem matchingSize_eq {S : MatchingRow n} (h : IsMatching S) :
    matchingSize S = matchSize S := by
  rw [matchingSize, matchingSizeFrom_eq h (List.nodup_finRange n) (fun _ _ _ _ => rfl), zero_add,
    length_filter_isSome (List.nodup_finRange n) (fun i _ _ => List.mem_finRange i)]

/-! ### `fix_matching` -/

def unmatchedIn (S : MatchingRow n) : List (Fin n) := (List.finRange n).filter (fun i => S i = none)

def unmatchedOut (S : MatchingRow n) : List (Fin n) :=
  (List.finRange n).filter (fun o => ∀ i, S i ≠ some o)

/-- Match the `j`th unmatched input with the `j`th unmatched output. -/
def matchUnmatched (S : MatchingRow n) (pairs : List (Fin n × Fin n)) : MatchingRow n :=
  pairs.foldl (fun S ik => Function.update S ik.1 (some ik.2)) S

/-- `fix_matching`. -/
def fixMatching (S : MatchingRow n) : Except MatchingFault (MatchingRow n) := do
  require ((unmatchedIn S).length = (unmatchedOut S).length) .unevenPorts
  .ok (matchUnmatched S ((unmatchedIn S).zip (unmatchedOut S)))

/-! ### `merge` -/

/-- The output held by an entry. -/
def port : Option (Fin n) → Except MatchingFault (Fin n)
  | some o => .ok o
  | none => .error .indexOutOfRange

/-- `S2_reverse`; its entries start at `0`. -/
def reverse (S2 : MatchingRow n) : Fin n → Fin n :=
  (List.finRange n).foldl (fun rev i =>
    match S2 i with
    | some o => Function.update rev o i
    | none => rev) (fun o => ⟨0, o.pos⟩)

/-- The labels of the inputs and the number of those without one. -/
structure Labels (n : ℕ) where
  inputMatchedCounter : Fin n → Option ℕ
  unmatchedInputs : ℤ

/-- Give the input `i` the label `c`. -/
def Labels.label (st : Labels n) (i : Fin n) (c : ℕ) : Labels n where
  inputMatchedCounter := Function.update st.inputMatchedCounter i (some c)
  unmatchedInputs := st.unmatchedInputs - 1

/-- The state of the inner loop: the output reached and the weight difference so far. -/
structure Walk (n : ℕ) extends Labels n where
  current : Fin n
  w : ℤ

section

variable (fits : ℤ → Prop) [DecidablePred fits]

/-- The inner loop, with the number of its iterations that are left. -/
def followCycle (S1 : MatchingRow n) (rev : Fin n → Fin n) (weights : Weights n) (ibk : Fin n)
    (c : ℕ) : ℕ → Walk n → Except MatchingFault (Walk n)
  | 0, st => .ok st
  | left + 1, st => do
    let k := st.current
    let current := rev k
    let w := st.w - weights current k
    require (fits w) .signedOverflow
    -- back to the input where the walk began
    if current = ibk then .ok { st with w := w }
    else do
      let out ← port (S1 current)
      require (fits (w + weights current out)) .signedOverflow
      followCycle S1 rev weights ibk c left
        { toLabels := st.toLabels.label current c
          current := out
          w := w + weights current out }

/-- The state of the outer loop. -/
structure Merging (n : ℕ) extends Labels n where
  selectedMatchingId : ℕ → ℕ
  c : ℕ

/-- The body of the outer loop: label the cycle of the first input without a label. -/
def mergeCycle (S1 : MatchingRow n) (rev : Fin n → Fin n) (weights : Weights n) (st : Merging n) :
    Except MatchingFault (Merging n) :=
  match (List.finRange n).find? (fun i => st.inputMatchedCounter i = none) with
  | none => .error .indexOutOfRange
  | some ibk => do
    let out ← port (S1 ibk)
    let walk ← followCycle fits S1 rev weights ibk st.c (2 * n)
      { toLabels := st.toLabels.label ibk st.c
        current := out
        w := weights ibk out }
    if walk.w < 0 then do
      require (st.c < n) .indexOutOfRange
      .ok { toLabels := walk.toLabels
            selectedMatchingId := Function.update st.selectedMatchingId st.c 1
            c := st.c + 1 }
    else
      .ok { toLabels := walk.toLabels
            selectedMatchingId := st.selectedMatchingId
            c := st.c + 1 }

/-- The outer loop; it has to end before the fuel does. -/
def mergeCycles (S1 : MatchingRow n) (rev : Fin n → Fin n) (weights : Weights n) :
    ℕ → Merging n → Except MatchingFault (Merging n)
  | 0, st => if 0 < st.unmatchedInputs then .error .unfinished else .ok st
  | fuel + 1, st =>
    if 0 < st.unmatchedInputs then do
      let st' ← mergeCycle fits S1 rev weights st
      mergeCycles S1 rev weights fuel st'
    else .ok st

end

/-- The state in which the outer loop starts. -/
def Merging.start (n : ℕ) : Merging n where
  inputMatchedCounter := fun _ => none
  unmatchedInputs := n
  selectedMatchingId := fun _ => 0
  c := 0

section

variable {V : Type} [DecidableEq V]

/-- Write the entry of one input, in a memory where `s1`, `s2` and `s` are the vectors. -/
def writeEntry (st : Merging n) (s1 s2 s : V) (mem : V → MatchingRow n) (i : Fin n) :
    Except MatchingFault (V → MatchingRow n) :=
  match st.inputMatchedCounter i with
  | none => .error .unlabelled
  | some c => do
    require (c < n) .indexOutOfRange
    .ok (Function.update mem s (Function.update (mem s) i
      (if st.selectedMatchingId c = 0 then mem s1 i else mem s2 i)))

/-- `merge(S1, S2, S, weights)`, where every sum has to fit; `s` may be the same vector as `s1` or
    `s2`. -/
def mergeWith (fits : ℤ → Prop) [DecidablePred fits] (weights : Weights n) (s1 s2 s : V)
    (mem : V → MatchingRow n) : Except MatchingFault (V → MatchingRow n) := do
  require (isMatching (mem s1) ∧ isMatching (mem s2)) .notPerfect
  let st ← mergeCycles fits (mem s1) (reverse (mem s2)) weights n (Merging.start n)
  let mem' ← (List.finRange n).foldlM (writeEntry st s1 s2 s) mem
  require (isMatching (mem' s)) .notPerfect
  .ok mem'

/-- `merge(S1, S2, S, weights)` in exact arithmetic. -/
def merge (weights : Weights n) (s1 s2 s : V) (mem : V → MatchingRow n) :
    Except MatchingFault (V → MatchingRow n) :=
  mergeWith (fun _ => True) weights s1 s2 s mem

end

/-! ### Perfect matchings as vectors -/

/-- The vector of a perfect matching. -/
def rowOf (p : Equiv.Perm (Fin n)) : MatchingRow n := fun i => some (p i)

theorem isMatching_rowOf (p : Equiv.Perm (Fin n)) : isMatching (rowOf p) :=
  ⟨fun i => Option.some_ne_none (p i), fun o => ⟨p.symm o, congrArg some (p.apply_symm_apply o)⟩⟩

theorem rowOf_injective : Function.Injective (rowOf (n := n)) :=
  fun _ _ h => Equiv.ext (fun i => Option.some.inj (congrFun h i))

/-- The perfect matchings are the vectors that pass the check. -/
theorem exists_rowOf {S : MatchingRow n} (h : isMatching S) : ∃ p, S = rowOf p := by
  obtain ⟨hfull, hvisited⟩ := h
  choose f hf using fun i => Option.ne_none_iff_exists'.mp (hfull i)
  have hsurj : Function.Surjective f := by
    intro o
    obtain ⟨i, hi⟩ := hvisited o
    refine ⟨i, ?_⟩
    rw [hf i] at hi
    exact Option.some.inj hi
  refine ⟨Equiv.ofBijective f (Finite.surjective_iff_bijective.mp hsurj), funext (fun i => hf i)⟩

theorem reverse_rowOf (q : Equiv.Perm (Fin n)) : reverse (rowOf q) = q.symm := by
  have hloop : ∀ (l : List (Fin n)) (rev : Fin n → Fin n) (o : Fin n),
      l.foldl (fun rev i =>
        match rowOf q i with
        | some o => Function.update rev o i
        | none => rev) rev o = if q.symm o ∈ l then q.symm o else rev o := by
    intro l
    induction l with
    | nil => exact fun rev o => rfl
    | cons i rest ih =>
      intro rev o
      rw [List.foldl_cons, ih]
      show (if _ then _ else Function.update rev (q i) i o) = _
      by_cases hrest : q.symm o ∈ rest
      · rw [if_pos hrest, if_pos (List.mem_cons_of_mem _ hrest)]
      · rw [if_neg hrest]
        by_cases ho : o = q i
        · subst ho
          rw [Function.update_self, Equiv.symm_apply_apply, if_pos (List.mem_cons_self ..)]
        · have hne : q.symm o ≠ i := fun hc => ho (by rw [← hc, Equiv.apply_symm_apply])
          rw [Function.update_of_ne ho, if_neg (by simp [hne, hrest])]
  ext o : 1
  rw [reverse, hloop, if_pos (List.mem_finRange _)]

/-! ### Completing a matching -/

section

variable {S : MatchingRow n}

theorem mem_unmatchedIn {i : Fin n} : i ∈ unmatchedIn S ↔ S i = none := by
  simp [unmatchedIn]

theorem mem_unmatchedOut {o : Fin n} : o ∈ unmatchedOut S ↔ ∀ i, S i ≠ some o := by
  simp [unmatchedOut]

/-- As many inputs as outputs are matched, so as many are left over. -/
theorem length_unmatched (h : IsMatching S) : (unmatchedIn S).length = (unmatchedOut S).length := by
  -- A matching pairs the matched inputs with the matched outputs.
  have hmatched : (Finset.univ.filter (fun i => ¬ S i = none)).card
      = (Finset.univ.filter (fun o => ¬ ∀ i, S i ≠ some o)).card := by
    refine Finset.card_bij (fun i hi => (S i).get (Option.isSome_iff_ne_none.mpr
      (Finset.mem_filter.mp hi).2)) (fun i hi => ?_) (fun i hi j hj hij => ?_) (fun o ho => ?_)
    · refine Finset.mem_filter.mpr ⟨Finset.mem_univ _, fun hno => ?_⟩
      exact hno i (Option.some_get (Option.isSome_iff_ne_none.mpr (Finset.mem_filter.mp hi).2)).symm
    · obtain ⟨o, ho⟩ := Option.ne_none_iff_exists'.mp (Finset.mem_filter.mp hi).2
      obtain ⟨o', ho'⟩ := Option.ne_none_iff_exists'.mp (Finset.mem_filter.mp hj).2
      simp only [ho, ho', Option.get_some] at hij
      exact h ho (hij ▸ ho')
    · obtain ⟨i, hi⟩ := not_forall.mp (Finset.mem_filter.mp ho).2
      rw [not_not] at hi
      refine ⟨i, Finset.mem_filter.mpr ⟨Finset.mem_univ i, ?_⟩, ?_⟩
      · rw [hi]
        exact Option.some_ne_none o
      · simp only [hi, Option.get_some]
  have hin := Finset.card_filter_add_card_filter_not (s := (Finset.univ : Finset (Fin n)))
    (fun i => S i = none)
  have hout := Finset.card_filter_add_card_filter_not (s := (Finset.univ : Finset (Fin n)))
    (fun o => ∀ i, S i ≠ some o)
  have hlength : ∀ P : Fin n → Prop, [DecidablePred P] →
      ((List.finRange n).filter (fun i => P i)).length = (Finset.univ.filter P).card := by
    intro P hP
    rw [← List.toFinset_card_of_nodup ((List.nodup_finRange n).filter _)]
    congr 1
    ext i
    simp
  rw [unmatchedIn, unmatchedOut, hlength, hlength]
  omega

/-- Each pair is written, and nothing else. -/
theorem matchUnmatched_apply (S : MatchingRow n) {pairs : List (Fin n × Fin n)}
    (hpairs : (pairs.map Prod.fst).Nodup) :
    (∀ ik ∈ pairs, matchUnmatched S pairs ik.1 = some ik.2) ∧
      ∀ i, i ∉ pairs.map Prod.fst → matchUnmatched S pairs i = S i := by
  induction pairs generalizing S with
  | nil => exact ⟨fun _ h => absurd h List.not_mem_nil, fun _ _ => rfl⟩
  | cons a rest ih =>
    rw [List.map_cons, List.nodup_cons] at hpairs
    obtain ⟨hwritten, hkept⟩ := ih (Function.update S a.1 (some a.2)) hpairs.2
    refine ⟨fun ik hik => ?_, fun i hi => ?_⟩
    · rcases List.mem_cons.mp hik with rfl | hik
      · exact (hkept _ hpairs.1).trans (Function.update_self ..)
      · exact hwritten ik hik
    · rw [List.map_cons, List.mem_cons, not_or] at hi
      exact (hkept i hi.2).trans (Function.update_of_ne hi.1 ..)

/-- A partial matching is completed to a perfect one that keeps every pair. -/
theorem fixMatching_eq_ok (h : IsMatching S) :
    ∃ p, fixMatching S = .ok (rowOf p) ∧ ∀ i o, S i = some o → p i = o := by
  have hlength := length_unmatched h
  have hfst : ((unmatchedIn S).zip (unmatchedOut S)).map Prod.fst = unmatchedIn S :=
    List.map_fst_zip hlength.le
  have hsnd : ((unmatchedIn S).zip (unmatchedOut S)).map Prod.snd = unmatchedOut S :=
    List.map_snd_zip hlength.ge
  have hnodup : (((unmatchedIn S).zip (unmatchedOut S)).map Prod.fst).Nodup := by
    rw [hfst]
    exact (List.nodup_finRange n).filter _
  obtain ⟨hwritten, hkept⟩ := matchUnmatched_apply S hnodup
  rw [hfst] at hkept
  have hold : ∀ i o, S i = some o →
      matchUnmatched S ((unmatchedIn S).zip (unmatchedOut S)) i = some o := by
    intro i o hi
    rw [hkept i (fun hc => Option.some_ne_none o (hi.symm.trans (mem_unmatchedIn.mp hc))), hi]
  -- A port that is left over occurs in a pair.
  have hperfect : isMatching (matchUnmatched S ((unmatchedIn S).zip (unmatchedOut S))) := by
    constructor
    · intro i hnone
      cases hi : S i with
      | some o => exact Option.some_ne_none o ((hold i o hi).symm.trans hnone)
      | none =>
        have hmem := mem_unmatchedIn.mpr hi
        rw [← hfst] at hmem
        obtain ⟨ik, hik, rfl⟩ := List.mem_map.mp hmem
        exact Option.some_ne_none _ ((hwritten ik hik).symm.trans hnone)
    · intro o
      by_cases ho : ∀ i, S i ≠ some o
      · have hmem := mem_unmatchedOut.mpr ho
        rw [← hsnd] at hmem
        obtain ⟨ik, hik, rfl⟩ := List.mem_map.mp hmem
        exact ⟨ik.1, hwritten ik hik⟩
      · obtain ⟨i, hi⟩ := not_forall.mp ho
        exact ⟨i, hold i o (not_not.mp hi)⟩
  obtain ⟨p, hp⟩ := exists_rowOf hperfect
  refine ⟨p, ?_, fun i o hi => ?_⟩
  · rw [fixMatching, require_pos hlength, ok_bind, hp]
  · have hio := hold i o hi
    rw [hp] at hio
    exact Option.some.inj hio

/-- Where nothing is matched, each input gets the output with its number. -/
theorem fixMatching_none : fixMatching (fun _ : Fin n => none) = .ok (rowOf 1) := by
  have hin : unmatchedIn (fun _ : Fin n => none) = List.finRange n := by simp [unmatchedIn]
  have hout : unmatchedOut (fun _ : Fin n => none) = List.finRange n := by simp [unmatchedOut]
  have hfst : ((List.finRange n).zip (List.finRange n)).map Prod.fst = List.finRange n :=
    List.map_fst_zip (le_refl _)
  have hwritten := (matchUnmatched_apply (fun _ : Fin n => none)
    (hfst.symm ▸ List.nodup_finRange n)).1
  rw [fixMatching, hin, hout, require_pos rfl, ok_bind]
  congr 1
  funext i
  have hmem : (i, i) ∈ (List.finRange n).zip (List.finRange n) :=
    List.mem_iff_getElem.mpr ⟨i.val, by simp, by simp⟩
  exact hwritten (i, i) hmem

end

/-! ### Walking one cycle -/

/-- The inner loop after `t` of its iterations: the inputs met so far have the label `c`. -/
structure Walking (p q : Equiv.Perm (Fin n)) (weights : Weights n) (ibk : Fin n) (c : ℕ)
    (base : Labels n) (t : ℕ) (st : Walk n) : Prop where
  lt : t < period p q ibk
  current : st.current = p ((next p q)^[t] ibk)
  w : st.w = walkOut weights p q ibk t
  labelled : ∀ k ≤ t, st.inputMatchedCounter ((next p q)^[k] ibk) = some c
  others : ∀ j, (∀ k ≤ t, (next p q)^[k] ibk ≠ j) →
    st.inputMatchedCounter j = base.inputMatchedCounter j
  unmatched : st.unmatchedInputs = base.unmatchedInputs - (t + 1)

/-- The end of the inner loop: the inputs of the cycle have the label `c`. -/
structure Walked (p q : Equiv.Perm (Fin n)) (weights : Weights n) (ibk : Fin n) (c : ℕ)
    (base : Labels n) (st : Walk n) : Prop where
  w : st.w = weightOn weights p (cycleOf p q ibk) - weightOn weights q (cycleOf p q ibk)
  labelled : ∀ j, cycleOf p q j = cycleOf p q ibk → st.inputMatchedCounter j = some c
  others : ∀ j, cycleOf p q j ≠ cycleOf p q ibk →
    st.inputMatchedCounter j = base.inputMatchedCounter j
  unmatched : st.unmatchedInputs = base.unmatchedInputs - period p q ibk

section

variable {p q : Equiv.Perm (Fin n)} {weights : Weights n} {ibk : Fin n} {c : ℕ} {base : Labels n}
  {t : ℕ} {st : Walk n}

theorem Walking.rev_current (h : Walking p q weights ibk c base t st) :
    q.symm st.current = (next p q)^[t + 1] ibk := by
  rw [h.current, Function.iterate_succ_apply']
  rfl

/-- The walk goes back over `S2`. -/
theorem Walking.back (h : Walking p q weights ibk c base t st) :
    st.w - weights (q.symm st.current) st.current = walkBack weights p q ibk t := by
  have hback : st.current = q ((next p q)^[t + 1] ibk) := by
    rw [← h.rev_current, Equiv.apply_symm_apply]
  rw [h.rev_current, hback, h.w]
  rfl

/-- And on over `S1`. -/
theorem Walking.out (h : Walking p q weights ibk c base t st) :
    st.w - weights (q.symm st.current) st.current
      + weights (q.symm st.current) (p (q.symm st.current)) = walkOut weights p q ibk (t + 1) := by
  rw [h.back, walkOut_succ, h.rev_current]

/-- The next input is new. -/
theorem Walking.step (h : Walking p q weights ibk c base t st) (ht : t + 1 < period p q ibk) :
    Walking p q weights ibk c base (t + 1)
      { toLabels := st.toLabels.label (q.symm st.current) c
        current := p (q.symm st.current)
        w := st.w - weights (q.symm st.current) st.current
          + weights (q.symm st.current) (p (q.symm st.current)) } where
  lt := ht
  current := by rw [h.rev_current]
  w := h.out
  labelled := by
    intro k hk
    show Function.update st.inputMatchedCounter (q.symm st.current) (some c) _ = _
    rw [Function.update_apply]
    split
    · rfl
    · rename_i hne
      apply h.labelled
      by_contra hlt
      obtain rfl : k = t + 1 := by omega
      exact hne h.rev_current.symm
  others := by
    intro j hj
    have hne : j ≠ q.symm st.current := by
      rw [h.rev_current]
      exact (hj (t + 1) (le_refl _)).symm
    show Function.update st.inputMatchedCounter (q.symm st.current) (some c) j = _
    rw [Function.update_of_ne hne]
    exact h.others j (fun k hk => hj k (by omega))
  unmatched := by
    show st.unmatchedInputs - 1 = _
    rw [h.unmatched]
    push_cast
    ring

/-- The last input leads back to the first one. -/
theorem Walking.finish (h : Walking p q weights ibk c base t st) (ht : t + 1 = period p q ibk) :
    Walked p q weights ibk c base
      { st with w := st.w - weights (q.symm st.current) st.current } where
  w := h.back.trans (walkBack_period weights ht)
  labelled := by
    intro j hj
    obtain ⟨k, hk, rfl⟩ := cycleOf_eq_iff_iterate.mp hj.symm
    exact h.labelled k (by omega)
  others := by
    intro j hj
    apply h.others
    rintro k hk rfl
    exact hj (cycleOf_eq_iff_iterate.mpr ⟨k, by omega, rfl⟩).symm
  unmatched := by
    show st.unmatchedInputs = _
    rw [h.unmatched, ← ht]
    push_cast
    rfl

/-- The inner loop goes around the cycle once, or stops at the first sum that does not fit. -/
theorem followCycle_post {fits : ℤ → Prop} [DecidablePred fits] {left : ℕ}
    (h : Walking p q weights ibk c base t st) (hleft : period p q ibk ≤ t + left)
    (hfit : ∀ s < t, fits (walkBack weights p q ibk s) ∧
      (s + 1 < period p q ibk → fits (walkOut weights p q ibk (s + 1)))) :
    Post (followCycle fits (rowOf p) q.symm weights ibk c left st)
      (fun e => e = .signedOverflow ∧ ¬ WalkFits fits weights p q ibk)
      (fun st' => WalkFits fits weights p q ibk ∧ Walked p q weights ibk c base st') := by
  induction left generalizing t st with
  | zero =>
    have hlt := h.lt
    omega
  | succ left ih =>
    unfold followCycle
    dsimp only
    rw [h.back]
    refine Post.require_bind (fun hout => ⟨rfl, fun hall => hout (hall t h.lt).1⟩) (fun hin => ?_)
    by_cases ht : t + 1 = period p q ibk
    · have hhome : q.symm st.current = ibk := by rw [h.rev_current, ht, iterate_period]
      rw [if_pos hhome, Post_ok, ← h.back]
      refine ⟨fun s hs => ?_, h.finish ht⟩
      rcases Nat.lt_succ_iff_lt_or_eq.mp (hs.trans_eq ht.symm) with hlt | rfl
      · exact hfit s hlt
      · exact ⟨hin, fun hlt => absurd ht hlt.ne⟩
    · have hlt : t + 1 < period p q ibk := by
        have := h.lt
        omega
      -- An input that is met before the period is over is not the first one.
      have haway : q.symm st.current ≠ ibk := by
        intro hc
        rw [h.rev_current] at hc
        have := iterate_inj hlt (period_pos p q ibk) hc
        omega
      rw [if_neg haway]
      show Post (require (fits (walkBack weights p q ibk t + weights (q.symm st.current)
        (p (q.symm st.current)))) _ >>= _) _ _
      rw [← h.back, h.out]
      refine Post.require_bind (fun hout => ⟨rfl, fun hall => hout ((hall t h.lt).2 hlt)⟩)
        (fun hon => ?_)
      have hnext := ih (h.step hlt) (by omega) (fun s hs => ?_)
      · rwa [h.out] at hnext
      · rcases Nat.lt_succ_iff_lt_or_eq.mp hs with hlt' | rfl
        · exact hfit s hlt'
        · exact ⟨hin, fun _ => hon⟩

theorem walking_start (base : Labels n) (p q : Equiv.Perm (Fin n)) (weights : Weights n)
    (ibk : Fin n) (c : ℕ) :
    Walking p q weights ibk c base 0
      { toLabels := base.label ibk c
        current := p ibk
        w := weights ibk (p ibk) } where
  lt := period_pos p q ibk
  current := rfl
  w := by simp [walkOut]
  labelled := by
    intro k hk
    obtain rfl : k = 0 := by omega
    exact Function.update_self ..
  others := by
    intro j hj
    exact Function.update_of_ne (hj 0 (le_refl 0)).symm ..
  unmatched := by
    show base.unmatchedInputs - 1 = _
    simp

end

/-! ### Labelling all cycles -/

/-- Between the iterations of the outer loop: the labels below `c` are each that of one cycle, with
    the side chosen for it. -/
structure Labelling (fits : ℤ → Prop) (p q : Equiv.Perm (Fin n)) (weights : Weights n)
    (st : Merging n) : Prop where
  constant : ∀ i j, cycleOf p q i = cycleOf p q j →
    st.inputMatchedCounter i = st.inputMatchedCounter j
  below : ∀ i c, st.inputMatchedCounter i = some c → c < st.c
  selected : ∀ i c, st.inputMatchedCounter i = some c → (st.selectedMatchingId c = 0 ↔
    weightOn weights q (cycleOf p q i) ≤ weightOn weights p (cycleOf p q i))
  fresh : ∀ c, st.c ≤ c → st.selectedMatchingId c = 0
  unmatched : st.unmatchedInputs
    = (Finset.univ.filter (fun i => st.inputMatchedCounter i = none)).card
  few : st.c + (Finset.univ.filter (fun i => st.inputMatchedCounter i = none)).card ≤ n
  fit : ∀ i, st.inputMatchedCounter i ≠ none →
    (∀ j, cycleOf p q j = cycleOf p q i → i ≤ j) → WalkFits fits weights p q i

section

variable {fits : ℤ → Prop} {p q : Equiv.Perm (Fin n)} {weights : Weights n}

theorem labelling_start : Labelling fits p q weights (Merging.start n) where
  constant := fun _ _ _ => rfl
  below := fun _ _ h => nomatch h
  selected := fun _ _ h => nomatch h
  fresh := fun _ _ => rfl
  unmatched := by simp [Merging.start]
  few := by simp [Merging.start]
  fit := fun _ h => absurd rfl h

/-- The inputs without a label, after a cycle without one has been walked. -/
theorem unlabelled_of_walked {st : Merging n} (h : Labelling fits p q weights st) {ibk : Fin n}
    (hibk : st.inputMatchedCounter ibk = none) {walk : Walk n}
    (hwalk : Walked p q weights ibk st.c st.toLabels walk) :
    (Finset.univ.filter (fun i => walk.inputMatchedCounter i = none)).card + period p q ibk
      = (Finset.univ.filter (fun i => st.inputMatchedCounter i = none)).card := by
  have hdisj : Disjoint (Finset.univ.filter (fun i => walk.inputMatchedCounter i = none))
      (ports (cycleOf p q ibk)) := by
    refine Finset.disjoint_left.mpr (fun i hi hc => ?_)
    rw [Finset.mem_filter, hwalk.labelled i (mem_ports.mp hc)] at hi
    exact absurd hi.2 (Option.some_ne_none _)
  rw [← card_ports, ← Finset.card_union_of_disjoint hdisj]
  congr 1
  ext i
  rw [Finset.mem_union, mem_ports, Finset.mem_filter, Finset.mem_filter]
  by_cases hi : cycleOf p q i = cycleOf p q ibk
  · exact iff_of_true (.inr hi) ⟨Finset.mem_univ i, (h.constant i ibk hi).trans hibk⟩
  · rw [hwalk.others i hi]
    exact or_iff_left hi

/-- Labelling the cycle of an input without a label. -/
theorem Labelling.next {st : Merging n} (h : Labelling fits p q weights st) {ibk : Fin n}
    (hibk : st.inputMatchedCounter ibk = none) {walk : Walk n}
    (hwalk : Walked p q weights ibk st.c st.toLabels walk) (hfit : WalkFits fits weights p q ibk)
    (hleast : ∀ j, cycleOf p q j = cycleOf p q ibk → ibk ≤ j) {selected : ℕ → ℕ}
    (hselected : selected = if walk.w < 0 then Function.update st.selectedMatchingId st.c 1
      else st.selectedMatchingId) :
    Labelling fits p q weights
      { toLabels := walk.toLabels, selectedMatchingId := selected, c := st.c + 1 } := by
  have hcard := unlabelled_of_walked h hibk hwalk
  have hpos := period_pos p q ibk
  -- Only the entry of the new cycle is written.
  have hold : ∀ c, c ≠ st.c → selected c = st.selectedMatchingId c := by
    intro c hc
    rw [hselected]
    split
    · exact Function.update_of_ne hc ..
    · rfl
  have hnew : selected st.c = 0 ↔ 0 ≤ walk.w := by
    rw [hselected]
    split
    · rename_i hw
      rw [Function.update_self]
      omega
    · rename_i hw
      rw [h.fresh st.c (le_refl _)]
      omega
  -- The inputs of the new cycle are labelled, and all others keep what they have.
  refine ⟨fun i j hij => ?_, fun i c hi => ?_, fun i c hi => ?_, fun c hc => ?_, ?_, ?_,
    fun i hi hi' => ?_⟩
  · show walk.inputMatchedCounter i = walk.inputMatchedCounter j
    by_cases hi : cycleOf p q i = cycleOf p q ibk
    · rw [hwalk.labelled i hi, hwalk.labelled j (hij ▸ hi)]
    · rw [hwalk.others i hi, hwalk.others j (hij ▸ hi)]
      exact h.constant i j hij
  · show c < st.c + 1
    by_cases hcyc : cycleOf p q i = cycleOf p q ibk
    · have heq := (hwalk.labelled i hcyc).symm.trans hi
      rw [Option.some.injEq] at heq
      omega
    · have hlt := h.below i c ((hwalk.others i hcyc).symm.trans hi)
      omega
  · show selected c = 0 ↔ _
    by_cases hcyc : cycleOf p q i = cycleOf p q ibk
    · have heq := (hwalk.labelled i hcyc).symm.trans hi
      rw [Option.some.injEq] at heq
      rw [← heq, hnew, hwalk.w, hcyc, sub_nonneg]
    · have hi' := (hwalk.others i hcyc).symm.trans hi
      rw [hold c (h.below i c hi').ne]
      exact h.selected i c hi'
  · have hne : c ≠ st.c := Nat.ne_of_gt hc
    exact (hold c hne).trans (h.fresh c (by change st.c + 1 ≤ c at hc; omega))
  · show walk.unmatchedInputs
      = ((Finset.univ.filter (fun i => walk.inputMatchedCounter i = none)).card : ℤ)
    have hunmatched := h.unmatched
    rw [hwalk.unmatched]
    show st.unmatchedInputs - _ = _
    omega
  · have hfew := h.few
    show st.c + 1 + (Finset.univ.filter (fun i => walk.inputMatchedCounter i = none)).card ≤ n
    omega
  · by_cases hcyc : cycleOf p q i = cycleOf p q ibk
    · -- Both are the first input of the new cycle.
      obtain rfl : i = ibk := le_antisymm (hi' ibk hcyc.symm) (hleast i hcyc)
      exact hfit
    · refine h.fit i (fun hnone => hi ?_) hi'
      exact (hwalk.others i hcyc).trans hnone

/-- The search over the ports finds the first one. -/
theorem find?_finRange_eq_some {test : Fin n → Bool} {i : Fin n} :
    (List.finRange n).find? test = some i ↔ test i = true ∧ ∀ j < i, ¬ test j = true := by
  rw [List.find?_eq_some_iff_getElem]
  constructor
  · rintro ⟨htest, k, hk, rfl, hbefore⟩
    refine ⟨htest, fun j hj => ?_⟩
    rw [List.getElem_finRange] at hj
    have hlen : j.val < (List.finRange n).length := by
      rw [List.length_finRange]
      exact j.isLt
    simpa using hbefore j.val hj
  · rintro ⟨htest, hbefore⟩
    refine ⟨htest, i.val, by rw [List.length_finRange]; exact i.isLt, by simp, fun k hk => ?_⟩
    simpa using hbefore ⟨k, hk.trans i.isLt⟩ hk

/-- The body of the outer loop labels one more cycle, or stops at a sum that does not fit. -/
theorem mergeCycle_post [DecidablePred fits] {st : Merging n} (h : Labelling fits p q weights st)
    (hrun : 0 < st.unmatchedInputs) :
    Post (mergeCycle fits (rowOf p) q.symm weights st)
      (fun e => e = .signedOverflow ∧ ¬ WalksFit fits weights p q)
      (fun st' => Labelling fits p q weights st' ∧ st'.unmatchedInputs < st.unmatchedInputs) := by
  -- Some input has no label, since the count is positive.
  have hsome : ∃ i, st.inputMatchedCounter i = none := by
    rw [h.unmatched] at hrun
    obtain ⟨i, hi⟩ := Finset.card_pos.mp (by exact_mod_cast hrun)
    exact ⟨i, (Finset.mem_filter.mp hi).2⟩
  unfold mergeCycle
  cases hfind : (List.finRange n).find? (fun i => st.inputMatchedCounter i = none) with
  | none =>
    obtain ⟨i, hi⟩ := hsome
    have hnot := List.find?_eq_none.mp hfind i (List.mem_finRange i)
    exact absurd (decide_eq_true hi) hnot
  | some ibk =>
    have hibk : st.inputMatchedCounter ibk = none := by simpa using List.find?_some hfind
    -- the inputs before the first one without a label are on other cycles
    have hleast : ∀ j, cycleOf p q j = cycleOf p q ibk → ibk ≤ j := by
      intro j hj
      by_contra hlt
      have hlabelled := (find?_finRange_eq_some.mp hfind).2 j (not_le.mp hlt)
      exact hlabelled (decide_eq_true ((h.constant j ibk hj).trans hibk))
    have hperiod : period p q ibk ≤ 0 + 2 * n := by
      have hle := period_le_card p q ibk
      rw [Fintype.card_fin] at hle
      omega
    have hc : st.c < n := by
      have hfew := h.few
      have hunmatched := h.unmatched
      omega
    show Post (port (rowOf p ibk) >>= _) _ _
    rw [rowOf, port, ok_bind]
    refine Post.bind ((followCycle_post (walking_start st.toLabels p q weights ibk st.c) hperiod
      (fun s hs => absurd hs (Nat.not_lt_zero s))).mono
        (fun e he => ⟨he.1, fun hall => he.2 (hall ibk hleast)⟩) (fun _ hwalk => hwalk)) ?_
    rintro walk ⟨hfit, hwalk⟩
    have hless : walk.unmatchedInputs < st.unmatchedInputs := by
      have hpos := period_pos p q ibk
      rw [hwalk.unmatched]
      show st.unmatchedInputs - _ < _
      omega
    split
    · rename_i hw
      rw [require_pos hc, ok_bind, Post_ok]
      exact ⟨h.next hibk hwalk hfit hleast (if_pos hw).symm, hless⟩
    · rename_i hw
      exact ⟨h.next hibk hwalk hfit hleast (if_neg hw).symm, hless⟩

/-- The outer loop ends, and then every input has a label. -/
theorem mergeCycles_post [DecidablePred fits] {fuel : ℕ} {st : Merging n}
    (h : Labelling fits p q weights st) (hfuel : st.unmatchedInputs ≤ fuel) :
    Post (mergeCycles fits (rowOf p) q.symm weights fuel st)
      (fun e => e = .signedOverflow ∧ ¬ WalksFit fits weights p q)
      (fun st' => Labelling fits p q weights st' ∧ st'.unmatchedInputs ≤ 0) := by
  induction fuel generalizing st with
  | zero =>
    have hnot : ¬ 0 < st.unmatchedInputs := by
      push_cast at hfuel
      omega
    unfold mergeCycles
    rw [if_neg hnot]
    exact ⟨h, not_lt.mp hnot⟩
  | succ fuel ih =>
    unfold mergeCycles
    split
    · rename_i hrun
      refine (mergeCycle_post h hrun).bind (fun st₁ h₁ => ih h₁.1 ?_)
      have hless := h₁.2
      push_cast at hfuel
      omega
    · rename_i hnot
      exact ⟨h, not_lt.mp hnot⟩

/-! ### Writing the result -/

/-- Once all cycles are labelled, every input has a label. -/
theorem Labelling.labelled {st : Merging n} (h : Labelling fits p q weights st)
    (hdone : st.unmatchedInputs ≤ 0) (i : Fin n) : st.inputMatchedCounter i ≠ none := by
  have hempty : Finset.univ.filter (fun i => st.inputMatchedCounter i = none) = ∅ := by
    rw [← Finset.card_eq_zero]
    have hunmatched := h.unmatched
    omega
  intro hnone
  exact (Finset.eq_empty_iff_forall_notMem.mp hempty i)
    (Finset.mem_filter.mpr ⟨Finset.mem_univ i, hnone⟩)

/-- Then all sums have fitted. -/
theorem Labelling.walksFit {st : Merging n} (h : Labelling fits p q weights st)
    (hdone : st.unmatchedInputs ≤ 0) : WalksFit fits weights p q :=
  fun i hleast => h.fit i (h.labelled hdone i) hleast

/-- What the entry of an input is, once all cycles are labelled. -/
theorem Labelling.entry {st : Merging n} (h : Labelling fits p q weights st)
    (hdone : st.unmatchedInputs ≤ 0) (i : Fin n) :
    ∃ c, st.inputMatchedCounter i = some c ∧ c < n ∧
      (if st.selectedMatchingId c = 0 then some (p i) else some (q i))
        = some (heavier weights p q i) := by
  obtain ⟨c, hc⟩ := Option.ne_none_iff_exists'.mp (h.labelled hdone i)
  have hlt := h.below i c hc
  have hfew := h.few
  refine ⟨c, hc, by omega, ?_⟩
  split
  · rename_i hzero
    rw [heavier_of_le ((h.selected i c hc).mp hzero)]
  · rename_i hone
    rw [heavier_of_lt (not_le.mp (fun hle => hone ((h.selected i c hc).mpr hle)))]

variable {V : Type} [DecidableEq V]

/-- The last loop writes the heavier sides.  An entry is read before it is written, so that the
    result may replace one of the vectors read. -/
theorem writeEntries_eq_ok {st : Merging n} (h : Labelling fits p q weights st)
    (hdone : st.unmatchedInputs ≤ 0) (s1 s2 s : V) {l : List (Fin n)} (hl : l.Nodup)
    {mem : V → MatchingRow n} (h1 : ∀ i ∈ l, mem s1 i = some (p i))
    (h2 : ∀ i ∈ l, mem s2 i = some (q i)) :
    l.foldlM (writeEntry st s1 s2 s) mem = .ok (Function.update mem s (fun i =>
      if i ∈ l then some (heavier weights p q i) else mem s i)) := by
  induction l generalizing mem with
  | nil =>
    show Except.ok mem = _
    simp
  | cons a rest ih =>
    obtain ⟨ha, hrest⟩ := List.nodup_cons.mp hl
    obtain ⟨c, hc, hlt, hentry⟩ := h.entry hdone a
    let mem₁ := Function.update mem s
      (Function.update (mem s) a (some (heavier weights p q a)))
    have hstep : writeEntry st s1 s2 s mem a = .ok mem₁ := by
      unfold writeEntry
      rw [hc]
      dsimp only
      rw [require_pos hlt, ok_bind, h1 a (List.mem_cons_self ..), h2 a (List.mem_cons_self ..),
        hentry]
    -- The inputs still to come are untouched, also where `S` is `S1` or `S2`.
    have hkeep : ∀ v, ∀ i ∈ rest, mem₁ v i = mem v i := by
      intro v i hi
      have hne : i ≠ a := fun he => ha (he ▸ hi)
      by_cases hv : v = s
      · subst hv
        show Function.update mem v _ v i = _
        rw [Function.update_self, Function.update_of_ne hne]
      · show Function.update mem s _ v i = _
        rw [Function.update_of_ne hv]
    rw [List.foldlM_cons, hstep, ok_bind, ih hrest
      (fun i hi => (hkeep s1 i hi).trans (h1 i (List.mem_cons_of_mem _ hi)))
      (fun i hi => (hkeep s2 i hi).trans (h2 i (List.mem_cons_of_mem _ hi)))]
    congr 1
    rw [Function.update_idem]
    congr 1
    ext i : 1
    by_cases hi : i = a
    · subst hi
      rw [if_neg ha, if_pos (List.mem_cons_self ..)]
      show Function.update mem s _ s i = _
      rw [Function.update_self, Function.update_self]
    · by_cases hmem : i ∈ rest
      · rw [if_pos hmem, if_pos (List.mem_cons_of_mem _ hmem)]
      · rw [if_neg hmem, if_neg (by simp [hi, hmem])]
        show Function.update mem s _ s i = _
        rw [Function.update_self, Function.update_of_ne hi]

section

variable [DecidablePred fits] {s1 s2 : V} {mem : V → MatchingRow n}

/-- If all sums fit, `merge` writes the matching that takes the heavier side of each cycle... -/
theorem mergeWith_eq_ok (s : V) (h1 : mem s1 = rowOf p) (h2 : mem s2 = rowOf q)
    (hfit : WalksFit fits weights p q) :
    mergeWith fits weights s1 s2 s mem
      = .ok (Function.update mem s (rowOf (heavier weights p q))) := by
  have hstart : Labelling fits p q weights (Merging.start n) := labelling_start
  obtain ⟨st, hlabel, h, hdone⟩ :=
    (mergeCycles_post hstart (le_refl (n : ℤ))).exists_ok (fun _ _ hout => hout.2 hfit)
  have hwrite := writeEntries_eq_ok h hdone s1 s2 s (List.nodup_finRange n)
    (fun i _ => congrFun h1 i) (fun i _ => congrFun h2 i)
  simp only [List.mem_finRange, if_true] at hwrite
  have hperfect : isMatching (Function.update mem s (rowOf (heavier weights p q)) s) := by
    rw [Function.update_self]
    exact isMatching_rowOf _
  unfold mergeWith
  rw [h1, h2, require_pos ⟨isMatching_rowOf p, isMatching_rowOf q⟩, ok_bind, reverse_rowOf, hlabel,
    ok_bind, hwrite, ok_bind]
  show (require (isMatching (Function.update mem s (rowOf (heavier weights p q)) s)) _ >>= _) = _
  rw [require_pos hperfect]
  rfl

/-- ...and if one does not fit, it overflows. -/
theorem mergeWith_eq_error (s : V) (h1 : mem s1 = rowOf p) (h2 : mem s2 = rowOf q)
    (hfit : ¬ WalksFit fits weights p q) :
    mergeWith fits weights s1 s2 s mem = .error .signedOverflow := by
  have hstart : Labelling fits p q weights (Merging.start n) := labelling_start
  have hpost := mergeCycles_post hstart (le_refl (n : ℤ))
  unfold mergeWith
  rw [h1, h2, require_pos ⟨isMatching_rowOf p, isMatching_rowOf q⟩, ok_bind, reverse_rowOf]
  cases hlabel : mergeCycles fits (rowOf p) q.symm weights n (Merging.start n) with
  | ok st =>
    rw [hlabel] at hpost
    exact absurd (hpost.1.walksFit hpost.2) hfit
  | error e =>
    rw [hlabel] at hpost
    rw [error_bind, hpost.1]

end

/-- In exact arithmetic all sums fit. -/
theorem merge_eq_ok (weights : Weights n) (p q : Equiv.Perm (Fin n)) {s1 s2 : V} (s : V)
    {mem : V → MatchingRow n} (h1 : mem s1 = rowOf p) (h2 : mem s2 = rowOf q) :
    merge weights s1 s2 s mem = .ok (Function.update mem s (rowOf (heavier weights p q))) :=
  mergeWith_eq_ok s h1 h2 (fun _ _ _ _ => ⟨trivial, fun _ => trivial⟩)

/-- For perfect matchings, `merge` returns a perfect matching that on each cycle of their union is
    the heavier of the two (the first on ties).  Its weight is the sum of the maxima, hence at least
    that of either, and it does not depend on where the result is written. -/
theorem merge_heavier (weights : Weights n) (p q : Equiv.Perm (Fin n)) {s1 s2 : V}
    {mem : V → MatchingRow n} (h1 : mem s1 = rowOf p) (h2 : mem s2 = rowOf q) :
    ∃ r : Equiv.Perm (Fin n),
      (∀ s, merge weights s1 s2 s mem = .ok (Function.update mem s (rowOf r))) ∧
      (∀ c : Cycle p q,
        (weightOn weights q c ≤ weightOn weights p c → ∀ i ∈ ports c, r i = p i) ∧
        (weightOn weights p c < weightOn weights q c → ∀ i ∈ ports c, r i = q i)) ∧
      weight weights r = ∑ c : Cycle p q, max (weightOn weights p c) (weightOn weights q c) ∧
      max (weight weights p) (weight weights q) ≤ weight weights r := by
  refine ⟨heavier weights p q, fun s => merge_eq_ok weights p q s h1 h2, fun c => ⟨?_, ?_⟩,
    sum_heavier weights p q, le_sum_heavier weights p q⟩
  · intro hle i hi
    rw [← mem_ports.mp hi] at hle
    exact heavier_of_le hle
  · intro hlt i hi
    rw [← mem_ports.mp hi] at hlt
    exact heavier_of_lt hlt

/-- Two ports, merged in place: the second matching is heavier. -/
theorem merge_heavier_two :
    let weights : Weights 2 := fun i o => if i = o then 1 else 2
    let mem : Bool → MatchingRow 2 := fun v =>
      if v then rowOf (Equiv.swap 0 1) else rowOf (Equiv.refl (Fin 2))
    ∃ r, merge weights false true false mem = .ok (Function.update mem false (rowOf r)) ∧
      4 ≤ weight weights r := by
  intro weights mem
  obtain ⟨r, hrun, -, -, hle⟩ := merge_heavier weights (Equiv.refl (Fin 2)) (Equiv.swap 0 1)
    (show mem false = rowOf _ from rfl) (show mem true = rowOf _ from rfl)
  refine ⟨r, hrun false, le_trans (le_max_of_le_right ?_) hle⟩
  decide

end

end Serena

end SschedSimulator
