import Mathlib.Data.List.FinRange
import SschedSimulator.Foundation.Table

namespace SschedSimulator

open Foundation

/-!
# `scheduler.cc` — `match_with`

Every scheduler stores which output each input is matched with.  If the out match is enabled it
also stores the other direction; if not, `match_with` searches the first vector for an output.  The
iterator that `std::find` returns stands at the input, but the code returns what it points to, which
is the output again.

* `Scheduler.matchWith_disabled` — what the search returns;
* `Scheduler.matchWith_inverse_iff` — when the two directions are inverse.
-/

/-- A port as the vectors store it: its number, or `-1` for none. -/
def portNumber {ports : ℕ} : Option (Fin ports) → ℤ
  | none => -1
  | some p => (p : ℕ)

theorem portNumber_eq_iff {ports : ℕ} {port : Option (Fin ports)} {p : Fin ports} :
    portNumber port = (p : ℕ) ↔ port = some p := by
  cases port with
  | none =>
    refine iff_of_false ?_ (Option.some_ne_none p).symm
    show ¬ (-1 : ℤ) = (p : ℕ)
    omega
  | some q => rw [portNumber, Int.natCast_inj, Option.some.injEq, Fin.ext_iff]

theorem portNumber_eq_neg_one {ports : ℕ} {port : Option (Fin ports)} :
    portNumber port = -1 ↔ port = none := by
  cases port with
  | none => exact iff_of_true rfl rfl
  | some q =>
    refine iff_of_false ?_ (Option.some_ne_none q)
    show ¬ ((q : ℕ) : ℤ) = -1
    omega

/-- `PortType`. -/
inductive PortType where
  | inPort
  | outPort
  deriving DecidableEq, Repr

/-- The number of ports of a type. -/
def PortType.ports (n m : ℕ) : PortType → ℕ
  | inPort => n
  | outPort => m

/-- The members `_out_match_enabled`, `_in_match` and `_out_match` of a scheduler; the last is read
    only if it is enabled. -/
structure Scheduler (n m : ℕ) where
  outMatchEnabled : Bool
  inMatch : Fin n → Option (Fin m)
  outMatch : Fin m → Option (Fin n)
  matching : IsMatching inMatch
  inverse : outMatchEnabled = true → MutuallyInverse inMatch outMatch

namespace Scheduler

variable {n m : ℕ}

/-- `in_match_with`. -/
def inMatchWith (sched : Scheduler n m) (source : Fin n) : ℤ := portNumber (sched.inMatch source)

/-- `out_match_with`. -/
def outMatchWith (sched : Scheduler n m) (dest : Fin m) : ℤ :=
  if sched.outMatchEnabled then portNumber (sched.outMatch dest)
  else
    -- `*target`, for the iterator that `std::find` returns
    match (List.finRange n).find? (fun i => portNumber (sched.inMatch i) == (dest : ℕ)) with
    | none => -1
    | some target => portNumber (sched.inMatch target)

/-- `match_with`. -/
def matchWith (sched : Scheduler n m) (pt : PortType) (source : Fin (pt.ports n m)) : ℤ :=
  match pt, source with
  | .inPort, source => sched.inMatchWith source
  | .outPort, dest => sched.outMatchWith dest

/-- The two directions of `match_with` are inverse, and an output without an input has `-1`. -/
structure Inverse (sched : Scheduler n m) : Prop where
  partner : ∀ (i : Fin n) (o : Fin m),
    sched.matchWith .inPort i = (o : ℕ) ↔ sched.matchWith .outPort o = (i : ℕ)
  unmatched : ∀ o : Fin m,
    sched.matchWith .outPort o = -1 ↔ ∀ i : Fin n, sched.matchWith .inPort i ≠ (o : ℕ)

theorem matchWith_inPort (sched : Scheduler n m) (i : Fin n) (o : Fin m) :
    sched.matchWith .inPort i = (o : ℕ) ↔ sched.inMatch i = some o := portNumber_eq_iff

theorem matchWith_enabled {sched : Scheduler n m} (h : sched.outMatchEnabled = true) (o : Fin m) :
    sched.matchWith .outPort o = portNumber (sched.outMatch o) := if_pos h

/-- The search returns the output that it looks for. -/
theorem matchWith_disabled {sched : Scheduler n m} (h : sched.outMatchEnabled = false)
    (o : Fin m) : sched.matchWith .outPort o = (o : ℕ) ∧ (∃ i, sched.inMatch i = some o) ∨
      sched.matchWith .outPort o = -1 ∧ ∀ i, sched.inMatch i ≠ some o := by
  have hsearch : sched.matchWith .outPort o
      = match (List.finRange n).find? (fun i => portNumber (sched.inMatch i) == (o : ℕ)) with
        | none => -1
        | some target => portNumber (sched.inMatch target) := by
    show sched.outMatchWith o = _
    rw [outMatchWith, h]
    rfl
  rw [hsearch]
  cases hfind : (List.finRange n).find? (fun i => portNumber (sched.inMatch i) == (o : ℕ)) with
  | none =>
    refine .inr ⟨rfl, fun i hi => ?_⟩
    have htest := List.find?_eq_none.mp hfind i (List.mem_finRange i)
    rw [beq_iff_eq, portNumber_eq_iff] at htest
    exact htest hi
  | some target =>
    have htest := List.find?_some hfind
    rw [beq_iff_eq] at htest
    exact .inl ⟨htest, target, portNumber_eq_iff.mp htest⟩

/-- An output has `-1` exactly if no input is matched with it, in both storage modes. -/
theorem matchWith_eq_neg_one (sched : Scheduler n m) (o : Fin m) :
    sched.matchWith .outPort o = -1 ↔ ∀ i, sched.inMatch i ≠ some o := by
  cases h : sched.outMatchEnabled with
  | true =>
    rw [matchWith_enabled h, portNumber_eq_neg_one, Option.eq_none_iff_forall_ne_some]
    exact forall_congr' (fun i => not_congr (sched.inverse h i o).symm)
  | false =>
    rcases matchWith_disabled h o with ⟨hfound, i, hi⟩ | ⟨hnone, hfree⟩
    · refine iff_of_false ?_ (fun hno => hno i hi)
      rw [hfound]
      omega
    · exact iff_of_true hnone hfree

/-- The two directions are inverse exactly if the out match is stored, or every input is matched
    with the output of its own number, if with any. -/
theorem matchWith_inverse_iff (sched : Scheduler n m) :
    sched.Inverse ↔ sched.outMatchEnabled = true ∨
      ∀ (i : Fin n) (o : Fin m), sched.inMatch i = some o → (i : ℕ) = o := by
  have hunmatched : ∀ o : Fin m, sched.matchWith .outPort o = -1 ↔
      ∀ i : Fin n, sched.matchWith .inPort i ≠ (o : ℕ) := fun o => by
    rw [matchWith_eq_neg_one]
    exact forall_congr' (fun i => not_congr (matchWith_inPort sched i o).symm)
  cases h : sched.outMatchEnabled with
  | true =>
    refine iff_of_true ⟨fun i o => ?_, hunmatched⟩ (.inl rfl)
    rw [matchWith_inPort, matchWith_enabled h, portNumber_eq_iff, sched.inverse h i o]
  | false =>
    refine ⟨fun hinverse => .inr (fun i o hio => ?_), fun hsame => ⟨fun i o => ?_, hunmatched⟩⟩
    · -- The search for `o` finds `i`, and returns `o`.
      have hpartner := (hinverse.partner i o).mp ((matchWith_inPort sched i o).mpr hio)
      rcases matchWith_disabled h o with ⟨hfound, -⟩ | ⟨-, hfree⟩
      · rw [hfound] at hpartner
        exact_mod_cast hpartner.symm
      · exact absurd hio (hfree i)
    · have hsame := hsame.resolve_left (by decide)
      rw [matchWith_inPort]
      rcases matchWith_disabled h o with ⟨hfound, j, hj⟩ | ⟨hnone, hfree⟩
      · rw [hfound, Int.natCast_inj]
        constructor
        · intro hio
          exact (hsame i o hio).symm
        · intro hoi
          have hji : j = i := Fin.ext ((hsame j o hj).trans hoi)
          rwa [← hji]
      · refine iff_of_false (hfree i) ?_
        rw [hnone]
        omega

/-- Two inputs matched crosswise, without the out match. -/
def crossed : Scheduler 2 2 where
  outMatchEnabled := false
  inMatch := fun i => some i.rev
  outMatch := fun _ => none
  matching := fun i i' o hi hi' => Fin.rev_injective (Option.some.inj (hi.trans hi'.symm))
  inverse := nofun

/-- Input `1` is matched with output `0`, but output `0` with itself. -/
theorem not_inverse_crossed :
    crossed.matchWith .inPort (1 : Fin 2) = 0 ∧ crossed.matchWith .outPort (0 : Fin 2) = 0 ∧
      ¬ crossed.Inverse := by
  refine ⟨by decide, by decide, fun h => ?_⟩
  have hpartner := (h.partner 1 0).mp (by decide)
  exact absurd hpartner (by decide)

end Scheduler

end SschedSimulator
