import SschedSimulator.Scheduler.Booking
import SschedSimulator.Scheduler.TreeSampling
import SschedSimulator.Switch.Switching

namespace SschedSimulator

open Foundation

/-!
# `sb_qps.cc` — the queues of the small-batch schedulers

The schedulers of `sb_qps.cc` count the packets of each VOQ twice: in `VOQLength` and in the
leaves of one sampling tree for each input.

* `VoqState` — the two counts, and `VoqState.Exact`, the invariant that they agree;
* `handlePacketArrivals`, `handlePacketDepartures` — the loops that change them, with the
  theorems that say what they do to each VOQ.
-/

namespace SbQps

variable {n m : ℕ}

/-- The members `bstForSamplingAtInput` and `VOQLength`. -/
structure VoqState (n m : ℕ) where
  bst : Fin n → Bst
  voqLength : Fin n → Fin m → ℤ

namespace VoqState

/-- No packets. -/
def empty : VoqState n m where
  bst := fun _ _ => 0
  voqLength := fun _ _ => 0

/-- `getQueueLengthForInput`: the root of the tree. -/
def getQueueLengthForInput (v : VoqState n m) (i : Fin n) : ℤ := v.bst i 1

/-- Update the tree leaf of `(i, o)`. -/
def updateBst (v : VoqState n m) (i : Fin n) (o : Fin m) (delta : ℤ) :
    Except Fault (VoqState n m) := do
  let bst ← updateLeaf v.bst i o delta
  .ok { v with bst := bst }

/-- Update both counts of `(i, o)`. -/
def add (v : VoqState n m) (i : Fin n) (o : Fin m) (delta : ℤ) : Except Fault (VoqState n m) := do
  let v' ← v.updateBst i o delta
  .ok { v' with voqLength := update₂ v'.voqLength i o (v'.voqLength i o + delta) }

/-- The loop of `handlePacketArrivals`. -/
def handlePacketArrivals (arrivals : List (Fin n × Fin m)) (v : VoqState n m) :
    Except Fault (VoqState n m) :=
  arrivals.foldlM (fun v p => v.add p.1 p.2 1) v

/-- The loop of `handlePacketDepartures`. -/
def handlePacketDepartures (departures : List (Fin n × Fin m)) (v : VoqState n m) :
    Except Fault (VoqState n m) :=
  departures.foldlM (fun v p => do
    require (0 < v.voqLength p.1 p.2) .departureFromEmptyVoq
    v.add p.1 p.2 (-1)) v

/-! ### The two counts agree -/

/-- Every tree mirrors the VOQ lengths of its input. -/
def Exact (v : VoqState n m) : Prop := ∀ i, Mirrors (v.bst i) (v.voqLength i)

theorem exact_empty : (empty : VoqState n m).Exact := fun _ => mirrors_zero

theorem Exact.nonneg {v : VoqState n m} (h : v.Exact) (i : Fin n) (o : Fin m) :
    0 ≤ v.voqLength i o := (h i).nonneg o

/-- An input has packets exactly when one of its VOQs does. -/
theorem Exact.getQueueLengthForInput_eq_zero {v : VoqState n m} (h : v.Exact) (i : Fin n) :
    v.getQueueLengthForInput i = 0 ↔ ∀ o, v.voqLength i o = 0 := (h i).root_eq_zero_iff

/-- A change that leaves the VOQ non-negative succeeds and changes this VOQ only. -/
theorem add_eq_ok {v : VoqState n m} (h : v.Exact) (i : Fin n) (o : Fin m) {delta : ℤ}
    (hd : 0 ≤ v.voqLength i o + delta) :
    ∃ v', v.add i o delta = .ok v' ∧ v'.Exact ∧
      ∀ i' o', v'.voqLength i' o' = v.voqLength i' o' + if (i, o) = (i', o') then delta else 0 := by
  obtain ⟨bst, hrun, hbst⟩ := updateLeaf_eq_ok h i o hd
  refine ⟨⟨bst, update₂ v.voqLength i o (v.voqLength i o + delta)⟩,
    by simp only [add, updateBst, hrun, ok_bind], hbst, fun i' o' => ?_⟩
  exact update₂_add v.voqLength i i' o o' delta

/-- Every arrival is counted once, in both counts. -/
theorem handlePacketArrivals_eq_ok {v : VoqState n m} (h : v.Exact)
    (arrivals : List (Fin n × Fin m)) :
    ∃ v', handlePacketArrivals arrivals v = .ok v' ∧ v'.Exact ∧
      ∀ i o, v'.voqLength i o = v.voqLength i o + arrivals.count (i, o) := by
  unfold handlePacketArrivals
  induction arrivals generalizing v with
  | nil => exact ⟨v, rfl, h, fun i o => by simp⟩
  | cons p rest ih =>
    have hp := h.nonneg p.1 p.2
    obtain ⟨v₁, hrun₁, hexact₁, hlen₁⟩ := add_eq_ok h p.1 p.2
      (by omega : 0 ≤ v.voqLength p.1 p.2 + 1)
    obtain ⟨v₂, hrun₂, hexact₂, hlen₂⟩ := ih hexact₁
    refine ⟨v₂, by rw [List.foldlM_cons, hrun₁, ok_bind, hrun₂], hexact₂, fun i o => ?_⟩
    have hlen : v₁.voqLength i o = v.voqLength i o + if p = (i, o) then 1 else 0 := hlen₁ i o
    rw [hlen₂, hlen, natCast_count_cons]
    omega

/-- Every departure is counted once, in both counts, unless some VOQ departs more often than it
    has packets. -/
theorem handlePacketDepartures_post {v : VoqState n m} (h : v.Exact)
    (departures : List (Fin n × Fin m)) :
    Post (handlePacketDepartures departures v)
      (fun e => e = .departureFromEmptyVoq ∧ ∃ i o, v.voqLength i o < departures.count (i, o))
      (fun v' => v'.Exact ∧
        ∀ i o, v'.voqLength i o = v.voqLength i o - departures.count (i, o)) := by
  unfold handlePacketDepartures
  induction departures generalizing v with
  | nil => exact ⟨h, fun i o => by simp⟩
  | cons p rest ih =>
    rw [List.foldlM_cons]
    by_cases hpos : 0 < v.voqLength p.1 p.2
    · -- The rest departs from one packet less, so it fails if and only if the whole list does.
      obtain ⟨v₁, hrun₁, hexact₁, hlen₁⟩ := add_eq_ok h p.1 p.2
        (by omega : 0 ≤ v.voqLength p.1 p.2 + -1)
      have hshift : ∀ i o, v₁.voqLength i o - rest.count (i, o)
          = v.voqLength i o - (p :: rest).count (i, o) := by
        intro i o
        have hlen : v₁.voqLength i o = v.voqLength i o + if p = (i, o) then -1 else 0 :=
          hlen₁ i o
        rw [hlen, natCast_count_cons]
        split <;> omega
      rw [require_pos hpos, ok_bind, hrun₁, ok_bind]
      refine (ih hexact₁).mono ?_ ?_
      · rintro e ⟨rfl, i, o, hlt⟩
        have hio := hshift i o
        exact ⟨rfl, i, o, by omega⟩
      · rintro v₂ ⟨hexact₂, hlen₂⟩
        exact ⟨hexact₂, fun i o => (hlen₂ i o).trans (hshift i o)⟩
    · rw [Foundation.require, if_neg hpos]
      refine ⟨rfl, p.1, p.2, ?_⟩
      rw [natCast_count_cons, if_pos rfl]
      omega

/-- When every pair departs at most as often as it has packets, no assertion fails. -/
theorem handlePacketDepartures_eq_ok {v : VoqState n m} (h : v.Exact)
    {departures : List (Fin n × Fin m)}
    (hle : ∀ i o, (departures.count (i, o) : ℤ) ≤ v.voqLength i o) :
    ∃ v', handlePacketDepartures departures v = .ok v' ∧ v'.Exact ∧
      ∀ i o, v'.voqLength i o = v.voqLength i o - departures.count (i, o) := by
  refine (handlePacketDepartures_post h departures).exists_ok ?_
  rintro e - ⟨-, i, o, hlt⟩
  exact absurd (hle i o) (not_le.mpr hlt)

end VoqState

end SbQps

end SschedSimulator
