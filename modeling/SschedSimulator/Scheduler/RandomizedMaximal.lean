import Mathlib.Tactic.Tauto
import SschedSimulator.Foundation.Arrangement
import SschedSimulator.Foundation.IndexedSet
import SschedSimulator.Foundation.PartialMatching
import SschedSimulator.Switch.Switching

namespace SschedSimulator

open Foundation

/-!
# `maximal_scheduler.cc` — `RandomizedMaximalScheduler`

The scheduler keeps the non-empty VOQs as the edges of a graph, in a vector that never shrinks with
an index of the positions, and matches the ports greedily in a random order of the edges.

* `insert_eq_ok`, `erase_eq_ok` — the two operations on the set of edges;
* `exec_eq_ok` — every operation keeps the index exact, and `edges_of_run` — so does every
  sequence of them; over runs of a switch the edges are the non-empty VOQs;
* `matchEdges_maximal` — the loop over the edges leaves none of them between free ports, and
  `schedule_maximal` — so the matching of a slot is maximal.
-/

namespace RandomizedMaximal

variable {n m : ℕ}

/-- The members `_edges`, `_edge_num` and `_index`; `none` is the index `-1`. -/
structure EdgeSet (n m : ℕ) where
  edges : List (Fin n × Fin m)
  edgeNum : ℕ
  index : Fin n × Fin m → Option ℕ

namespace EdgeSet

/-- No edge; also what `reset` leaves. -/
def empty : EdgeSet n m where
  edges := []
  edgeNum := 0
  index := fun _ => none

/-- `_edges` with an edge written at position `_edge_num`, for which it grows if it is full. -/
def place (e : EdgeSet n m) (p : Fin n × Fin m) : Except Fault (List (Fin n × Fin m)) :=
  if e.edgeNum = e.edges.length then .ok (e.edges ++ [p])
  else do
    require (e.edgeNum < e.edges.length) .indexOutOfRange
    .ok (e.edges.set e.edgeNum p)

/-- `insert`. -/
def insert (e : EdgeSet n m) (p : Fin n × Fin m) : Except Fault (EdgeSet n m) :=
  if e.index p = none then do
    let edges ← e.place p
    .ok
      { edges := edges
        edgeNum := e.edgeNum + 1
        index := Function.update e.index p (some e.edgeNum) }
  else .ok e

/-- Move the edge at position `last` to position `i`. -/
def moveLast (e : EdgeSet n m) (i last : ℕ) : Except Fault (EdgeSet n m) :=
  match e.edges[last]? with
  | none => .error .indexOutOfRange
  | some q => do
    require (i < e.edges.length) .indexOutOfRange
    .ok { e with edges := e.edges.set i q, index := Function.update e.index q (some i) }

/-- `erase`. -/
def erase (e : EdgeSet n m) (p : Fin n × Fin m) : Except Fault (EdgeSet n m) :=
  match e.index p with
  | none => .ok e
  | some i => do
    -- `last` is `_edge_num - 1`, and the assertion says that it is not negative
    require (1 ≤ e.edgeNum) .noLastEdge
    let e' ← if i ≠ e.edgeNum - 1 then e.moveLast i (e.edgeNum - 1) else .ok e
    .ok { e' with
      edgeNum := e.edgeNum - 1
      index := Function.update e'.index p none }

/-- The edge set holds the edge. -/
def Has (e : EdgeSet n m) (p : Fin n × Fin m) : Prop := p ∈ e.edges.take e.edgeNum

/-- The index is the inverse of the vector on its first `_edge_num` edges. -/
abbrev Exact (e : EdgeSet n m) : Prop := IndexedSet.Inverse e.edges e.edgeNum e.index

theorem exact_empty : (empty : EdgeSet n m).Exact := IndexedSet.inverse_nil

theorem Exact.has_iff {e : EdgeSet n m} (h : e.Exact) (p : Fin n × Fin m) :
    e.Has p ↔ ∃ i, e.index p = some i := h.mem_iff

/-! ### The two operations -/

/-- An edge is placed behind the others. -/
theorem place_eq_ok {e : EdgeSet n m} (h : e.Exact) (p : Fin n × Fin m) :
    ∃ edges, e.place p = .ok edges ∧ e.edgeNum < edges.length ∧
      (∀ i < e.edgeNum, edges[i]? = e.edges[i]?) ∧ edges[e.edgeNum]? = some p := by
  unfold place
  by_cases hfull : e.edgeNum = e.edges.length
  · refine ⟨e.edges ++ [p], if_pos hfull, ?_, fun i hi => ?_, ?_⟩
    · rw [List.length_append, List.length_singleton]
      omega
    · exact List.getElem?_append_left (by omega)
    · rw [hfull]
      exact List.getElem?_concat_length ..
  · have hroom : e.edgeNum < e.edges.length := by
      have := h.bounded
      omega
    refine ⟨e.edges.set e.edgeNum p, ?_, ?_, fun i hi => ?_, ?_⟩
    · rw [if_neg hfull, require_pos hroom, ok_bind]
    · rwa [List.length_set]
    · exact List.getElem?_set_ne (by omega)
    · rw [List.getElem?_set_self hroom]

/-- `insert` adds the edge and nothing else. -/
theorem insert_eq_ok {e : EdgeSet n m} (h : e.Exact) (p : Fin n × Fin m) :
    ∃ e', e.insert p = .ok e' ∧ e'.Exact ∧ ∀ q, e'.Has q ↔ e.Has q ∨ q = p := by
  unfold insert
  by_cases hnew : e.index p = none
  · obtain ⟨edges, hrun, hlen, hold, hlast⟩ := place_eq_ok h p
    have hexact := h.insert hnew hlen hold hlast
    refine ⟨⟨edges, e.edgeNum + 1, Function.update e.index p (some e.edgeNum)⟩,
      by rw [if_pos hnew, hrun, ok_bind], hexact, fun q => ?_⟩
    rw [Exact.has_iff hexact, h.has_iff]
    by_cases hq : q = p
    · simp [hq]
    · simp [hq]
  · refine ⟨e, if_neg hnew, h, fun q => ⟨.inl, ?_⟩⟩
    rintro (hq | rfl)
    · exact hq
    · exact (h.has_iff q).mpr (Option.ne_none_iff_exists'.mp hnew)

/-- `erase` removes the edge and nothing else. -/
theorem erase_eq_ok {e : EdgeSet n m} (h : e.Exact) (p : Fin n × Fin m) :
    ∃ e', e.erase p = .ok e' ∧ e'.Exact ∧ ∀ q, e'.Has q ↔ e.Has q ∧ q ≠ p := by
  unfold erase
  cases hp : e.index p with
  | none =>
    refine ⟨e, rfl, h, fun q => ⟨fun hq => ⟨hq, ?_⟩, And.left⟩⟩
    rintro rfl
    obtain ⟨i, hi⟩ := (h.has_iff q).mp hq
    rw [hp] at hi
    exact nomatch hi
  | some i =>
    obtain ⟨hlt, hget⟩ := (h.located p i).mp hp
    obtain ⟨last, hlast⟩ : ∃ last, e.edgeNum = last + 1 := ⟨e.edgeNum - 1, by omega⟩
    have h' : IndexedSet.Inverse e.edges (last + 1) e.index := hlast ▸ h
    simp only [hlast, Nat.add_sub_cancel, require_pos (Nat.le_add_left 1 last), ok_bind]
    by_cases hi : i = last
    · -- The edge is the last one.
      have hexact := h'.erase_last (hi ▸ hp)
      refine ⟨⟨e.edges, last, Function.update e.index p none⟩, ?_, hexact, fun q => ?_⟩
      · rw [if_neg (not_not.mpr hi)]
      · rw [Exact.has_iff hexact, h.has_iff]
        by_cases hq : q = p
        · simp [hq]
        · simp [hq]
    · have hbound : last < e.edges.length := by
        have := h'.bounded
        omega
      obtain ⟨q, hq⟩ : ∃ q, e.edges[last]? = some q := ⟨_, List.getElem?_eq_getElem hbound⟩
      have hindex : e.index q = some last := (h'.located q last).mpr ⟨by omega, hq⟩
      have hexact := h'.erase_swap hp hi hindex
      refine ⟨⟨e.edges.set i q, last,
        Function.update (Function.update e.index q (some i)) p none⟩, ?_, hexact, fun q' => ?_⟩
      · rw [if_pos hi, moveLast, hq]
        simp only [require_pos (by omega : i < e.edges.length), ok_bind]
      · rw [Exact.has_iff hexact, h.has_iff]
        by_cases hq' : q' = p
        · simp [hq']
        · by_cases hqq : q' = q
          · subst hqq
            simp [hq', hindex]
          · simp [hq', hqq]

/-! ### Loops of operations -/

/-- Inserting the pairs of a list. -/
def insertAll (e : EdgeSet n m) (ps : List (Fin n × Fin m)) : Except Fault (EdgeSet n m) :=
  ps.foldlM insert e

theorem insertAll_eq_ok {e : EdgeSet n m} (h : e.Exact) (ps : List (Fin n × Fin m)) :
    ∃ e', e.insertAll ps = .ok e' ∧ e'.Exact ∧ ∀ q, e'.Has q ↔ e.Has q ∨ q ∈ ps := by
  unfold insertAll
  induction ps generalizing e with
  | nil => exact ⟨e, rfl, h, fun q => by simp⟩
  | cons p rest ih =>
    obtain ⟨e₁, hrun₁, hexact₁, hhas₁⟩ := insert_eq_ok h p
    obtain ⟨e₂, hrun₂, hexact₂, hhas₂⟩ := ih hexact₁
    refine ⟨e₂, by rw [List.foldlM_cons, hrun₁, ok_bind, hrun₂], hexact₂, fun q => ?_⟩
    rw [hhas₂, hhas₁, List.mem_cons, or_assoc]

/-- `handleArrivals`. -/
def handleArrivals (arrivals : List (Fin n × Fin m)) (e : EdgeSet n m) :
    Except Fault (EdgeSet n m) :=
  e.insertAll arrivals

/-- One input of `handleDepartures`: its edge is erased if the switch is about to send the last
    packet of the queue. -/
def departInput (len : Fin n → Fin m → ℕ) (inMatch : Fin n → Option (Fin m)) (e : EdgeSet n m)
    (s : Fin n) : Except Fault (EdgeSet n m) :=
  match inMatch s with
  | none => .ok e
  | some d => if len s d = 1 then e.erase (s, d) else .ok e

/-- `handleDepartures`. -/
def handleDepartures (len : Fin n → Fin m → ℕ) (inMatch : Fin n → Option (Fin m))
    (e : EdgeSet n m) : Except Fault (EdgeSet n m) :=
  (List.finRange n).foldlM (departInput len inMatch) e

/-- `init`: insert the pairs whose queue is not empty. -/
def init (sw : IQSwitch n m) (e : EdgeSet n m) : Except Fault (EdgeSet n m) :=
  e.insertAll ((portPairs n m).filter (fun p => decide (0 < sw.getQueueLength p.1 p.2)))

theorem departInput_eq_ok {e : EdgeSet n m} (h : e.Exact) (len : Fin n → Fin m → ℕ)
    (inMatch : Fin n → Option (Fin m)) (s' : Fin n) :
    ∃ e', departInput len inMatch e s' = .ok e' ∧ e'.Exact ∧
      ∀ s d, e'.Has (s, d) ↔ e.Has (s, d) ∧ ¬ (s = s' ∧ inMatch s = some d ∧ len s d = 1) := by
  unfold departInput
  cases hm : inMatch s' with
  | none =>
    refine ⟨e, rfl, h, fun s d => ⟨fun hsd => ⟨hsd, ?_⟩, And.left⟩⟩
    rintro ⟨rfl, hd, -⟩
    rw [hm] at hd
    exact nomatch hd
  | some d' =>
    dsimp only
    by_cases hone : len s' d' = 1
    · obtain ⟨e₁, hrun, hexact, hhas⟩ := erase_eq_ok h (s', d')
      refine ⟨e₁, by rw [if_pos hone, hrun], hexact, fun s d => ?_⟩
      rw [hhas, ne_eq, Prod.mk.injEq]
      refine and_congr_right (fun _ => not_congr ⟨?_, ?_⟩)
      · rintro ⟨rfl, rfl⟩
        exact ⟨rfl, hm, hone⟩
      · rintro ⟨rfl, hd, -⟩
        rw [hm, Option.some.injEq] at hd
        exact ⟨rfl, hd.symm⟩
    · refine ⟨e, if_neg hone, h, fun s d => ⟨fun hsd => ⟨hsd, ?_⟩, And.left⟩⟩
      rintro ⟨rfl, hd, hlen⟩
      rw [hm, Option.some.injEq] at hd
      exact hone (hd ▸ hlen)

/-- The loop of `handleDepartures` over any inputs. -/
theorem departLoop_eq_ok {e : EdgeSet n m} (h : e.Exact) (len : Fin n → Fin m → ℕ)
    (inMatch : Fin n → Option (Fin m)) (l : List (Fin n)) :
    ∃ e', l.foldlM (departInput len inMatch) e = .ok e' ∧ e'.Exact ∧
      ∀ s d, e'.Has (s, d) ↔ e.Has (s, d) ∧ ¬ (s ∈ l ∧ inMatch s = some d ∧ len s d = 1) := by
  induction l generalizing e with
  | nil => exact ⟨e, rfl, h, fun s d => by simp⟩
  | cons s' rest ih =>
    obtain ⟨e₁, hrun₁, hexact₁, hhas₁⟩ := departInput_eq_ok h len inMatch s'
    obtain ⟨e₂, hrun₂, hexact₂, hhas₂⟩ := ih hexact₁
    refine ⟨e₂, by rw [List.foldlM_cons, hrun₁, ok_bind, hrun₂], hexact₂, fun s d => ?_⟩
    rw [hhas₂, hhas₁, List.mem_cons]
    tauto

theorem handleDepartures_eq_ok {e : EdgeSet n m} (h : e.Exact) (len : Fin n → Fin m → ℕ)
    (inMatch : Fin n → Option (Fin m)) :
    ∃ e', handleDepartures len inMatch e = .ok e' ∧ e'.Exact ∧
      ∀ s d, e'.Has (s, d) ↔ e.Has (s, d) ∧ ¬ (inMatch s = some d ∧ len s d = 1) := by
  obtain ⟨e', hrun, hexact, hhas⟩ := departLoop_eq_ok h len inMatch (List.finRange n)
  exact ⟨e', hrun, hexact, fun s d => by simpa using hhas s d⟩

theorem init_eq_ok {e : EdgeSet n m} (h : e.Exact) (sw : IQSwitch n m) :
    ∃ e', init sw e = .ok e' ∧ e'.Exact ∧
      ∀ s d, e'.Has (s, d) ↔ e.Has (s, d) ∨ 0 < sw.getQueueLength s d := by
  obtain ⟨e', hrun, hexact, hhas⟩ := insertAll_eq_ok h
    ((portPairs n m).filter (fun p => decide (0 < sw.getQueueLength p.1 p.2)))
  refine ⟨e', hrun, hexact, fun s d => ?_⟩
  rw [hhas, List.mem_filter, decide_eq_true_eq]
  simp [mem_portPairs]

end EdgeSet

/-! ### The scheduler -/

/-- `_in_match` and `_out_match`. -/
structure Matching (n m : ℕ) where
  inMatch : Fin n → Option (Fin m)
  outMatch : Fin m → Option (Fin n)

/-- The matching of an empty slot. -/
def Matching.empty : Matching n m where
  inMatch := fun _ => none
  outMatch := fun _ => none

/-- The loop over the shuffled edges, which ends when `limit` pairs are matched. -/
def matchEdges (limit : ℕ) : List (Fin n × Fin m) → ℕ → Matching n m → Matching n m
  | [], _, M => M
  | e :: rest, matchSize, M =>
    if M.inMatch e.1 = none ∧ M.outMatch e.2 = none then
      let M' : Matching n m :=
        { inMatch := Function.update M.inMatch e.1 (some e.2)
          outMatch := Function.update M.outMatch e.2 (some e.1) }
      if matchSize + 1 = limit then M' else matchEdges limit rest (matchSize + 1) M'
    else matchEdges limit rest matchSize M

/-- The members of `RandomizedMaximalScheduler` that change. -/
structure State (n m : ℕ) extends EdgeSet n m, Matching n m

/-- The constructor. -/
def initial : State n m where
  toEdgeSet := EdgeSet.empty
  toMatching := Matching.empty

/-- `reset`: everything but the matching. -/
def reset (st : State n m) : State n m := { st with toEdgeSet := EdgeSet.empty }

/-- `schedule`. -/
def schedule (shuffle : Reorder (Fin n × Fin m)) (sw : IQSwitch n m) (st : State n m) :
    Except Fault (State n m) := do
  require (st.edgeNum ≤ st.edges.length) .tooManyEdges
  let e ← st.toEdgeSet.handleArrivals sw.getArrivals
  if e.edgeNum = 0 then .ok { toEdgeSet := e, toMatching := Matching.empty }
  else do
    let M := matchEdges (min m n) (shuffle.run (e.edges.take e.edgeNum)) 0 Matching.empty
    let e' ← e.handleDepartures sw.getQueueLength M.inMatch
    .ok { toEdgeSet := e', toMatching := M }

/-- The scheduler as a switch drives it. -/
abbrev model (n m : ℕ) : SchedulerModel n m where
  State := State n m
  Input := Reorder (Fin n × Fin m)
  schedule := schedule
  inMatch := fun st => st.inMatch

/-- The matching found is mutual. -/
theorem matchEdges_mutual (limit : ℕ) (edges : List (Fin n × Fin m)) (matchSize : ℕ)
    {M : Matching n m} (h : MutuallyInverse M.inMatch M.outMatch) :
    MutuallyInverse (matchEdges limit edges matchSize M).inMatch
      (matchEdges limit edges matchSize M).outMatch := by
  induction edges generalizing matchSize M with
  | nil => exact h
  | cons e rest ih =>
    unfold matchEdges
    split
    · rename_i hfree
      have h' := h.update hfree.1 hfree.2
      split
      · exact h'
      · exact ih (matchSize + 1) h'
    · exact ih matchSize h

/-- A call keeps the index exact; after it, the edges are those from before and those of the
    arrivals, less the matched ones whose queue is down to one packet. -/
theorem schedule_eq_ok (shuffle : Reorder (Fin n × Fin m)) (sw : IQSwitch n m) {st : State n m}
    (h : st.toEdgeSet.Exact) :
    ∃ st', schedule shuffle sw st = .ok st' ∧ st'.toEdgeSet.Exact ∧
      MutuallyInverse st'.inMatch st'.outMatch ∧
      ∀ s d, st'.toEdgeSet.Has (s, d) ↔ (st.toEdgeSet.Has (s, d) ∨ (s, d) ∈ sw.getArrivals) ∧
        ¬ (st'.inMatch s = some d ∧ sw.getQueueLength s d = 1) := by
  obtain ⟨e, hrun, hexact, hhas⟩ := EdgeSet.insertAll_eq_ok h sw.getArrivals
  have harrive : st.toEdgeSet.handleArrivals sw.getArrivals = .ok e := hrun
  unfold schedule
  rw [require_pos h.bounded, ok_bind, harrive, ok_bind]
  by_cases hzero : e.edgeNum = 0
  · -- The early return: nothing is matched.
    refine ⟨{ toEdgeSet := e, toMatching := Matching.empty }, if_pos hzero, hexact,
      mutuallyInverse_none, fun s d => ?_⟩
    show e.Has (s, d) ↔ _ ∧ ¬ ((none : Option (Fin m)) = some d ∧ _)
    simp [hhas]
  · obtain ⟨e', hrun', hexact', hhas'⟩ := EdgeSet.handleDepartures_eq_ok hexact sw.getQueueLength
      (matchEdges (min m n) (shuffle.run (e.edges.take e.edgeNum)) 0 Matching.empty).inMatch
    refine ⟨{ toEdgeSet := e', toMatching :=
      matchEdges (min m n) (shuffle.run (e.edges.take e.edgeNum)) 0 Matching.empty }, ?_,
      hexact', matchEdges_mutual _ _ _ mutuallyInverse_none, fun s d => ?_⟩
    · rw [if_neg hzero]
      dsimp only
      rw [hrun', ok_bind]
    · rw [← hhas]
      exact hhas' s d

/-! ### Sequences of operations -/

/-- The operations of the scheduler. -/
inductive Op (n m : ℕ) where
  | insert (p : Fin n × Fin m)
  | erase (p : Fin n × Fin m)
  | init (sw : IQSwitch n m)
  | reset
  | schedule (shuffle : Reorder (Fin n × Fin m)) (sw : IQSwitch n m)

/-- What an operation does; all but `schedule` leave the matching alone. -/
def exec (st : State n m) : Op n m → Except Fault (State n m)
  | .insert p => do
    let e ← st.toEdgeSet.insert p
    .ok { st with toEdgeSet := e }
  | .erase p => do
    let e ← st.toEdgeSet.erase p
    .ok { st with toEdgeSet := e }
  | .init sw => do
    let e ← EdgeSet.init sw st.toEdgeSet
    .ok { st with toEdgeSet := e }
  | .reset => .ok { st with toEdgeSet := EdgeSet.empty }
  | .schedule shuffle sw => schedule shuffle sw st

/-- Every operation returns and keeps the index exact. -/
theorem exec_eq_ok {st : State n m} (h : st.toEdgeSet.Exact) (op : Op n m) :
    ∃ st', exec st op = .ok st' ∧ st'.toEdgeSet.Exact := by
  cases op with
  | insert p =>
    obtain ⟨e, hrun, hexact, -⟩ := EdgeSet.insert_eq_ok h p
    exact ⟨{ st with toEdgeSet := e }, by rw [exec, hrun, ok_bind], hexact⟩
  | erase p =>
    obtain ⟨e, hrun, hexact, -⟩ := EdgeSet.erase_eq_ok h p
    exact ⟨{ st with toEdgeSet := e }, by rw [exec, hrun, ok_bind], hexact⟩
  | init sw =>
    obtain ⟨e, hrun, hexact, -⟩ := EdgeSet.init_eq_ok h sw
    exact ⟨{ st with toEdgeSet := e }, by rw [exec, hrun, ok_bind], hexact⟩
  | reset => exact ⟨{ st with toEdgeSet := EdgeSet.empty }, rfl, EdgeSet.exact_empty⟩
  | schedule shuffle sw =>
    obtain ⟨st', hrun, hexact, -⟩ := schedule_eq_ok shuffle sw h
    exact ⟨st', hrun, hexact⟩

theorem execAll_eq_ok {st : State n m} (h : st.toEdgeSet.Exact) (ops : List (Op n m)) :
    ∃ st', ops.foldlM exec st = .ok st' ∧ st'.toEdgeSet.Exact := by
  induction ops generalizing st with
  | nil => exact ⟨st, rfl, h⟩
  | cons op rest ih =>
    obtain ⟨st₁, hrun₁, hexact₁⟩ := exec_eq_ok h op
    obtain ⟨st₂, hrun₂, hexact₂⟩ := ih hexact₁
    exact ⟨st₂, by rw [List.foldlM_cons, hrun₁, ok_bind, hrun₂], hexact₂⟩

/-! ### Runs of a switch -/

/-- A switch that starts empty, or whose queues were given to the scheduler by `init`. -/
inductive Start : System (model n m) → Prop where
  | empty {sw : IQSwitch n m} : sw.Empty → Start ⟨sw, initial⟩
  | afterInit {sw : IQSwitch n m} {e : EdgeSet n m} :
      EdgeSet.init sw EdgeSet.empty = .ok e → Start ⟨sw, { initial with toEdgeSet := e }⟩

/-- The index is exact and the edges are the non-empty VOQs of the switch. -/
structure Synchronised (sys : System (model n m)) : Prop where
  exact : sys.scheduler.toEdgeSet.Exact
  has_iff : ∀ s d, sys.scheduler.toEdgeSet.Has (s, d) ↔ 0 < sys.switch.getQueueLength s d

theorem Start.synchronised {sys : System (model n m)} (h : Start sys) : Synchronised sys := by
  have hempty : ∀ p, ¬ (EdgeSet.empty : EdgeSet n m).Has p := fun p hp => nomatch hp
  cases h with
  | empty hsw =>
    refine ⟨EdgeSet.exact_empty, fun s d => iff_of_false (hempty _) ?_⟩
    show ¬ 0 < _
    rw [hsw s d]
    exact Nat.lt_irrefl 0
  | @afterInit sw e hinit =>
    obtain ⟨e', hrun, hexact, hhas⟩ := EdgeSet.init_eq_ok EdgeSet.exact_empty sw
    obtain rfl : e = e' := by rw [hinit] at hrun; exact Except.ok.inj hrun
    refine ⟨hexact, fun s d => ?_⟩
    exact (hhas s d).trans (or_iff_right (hempty _))

/-- With the arrivals of a slot, the edges are the VOQs that are not empty after reading. -/
theorem Synchronised.has_or_arrived {sys : System (model n m)} (h : Synchronised sys)
    (channels : Fin n → List (Packet n m)) (s : Fin n) (d : Fin m) :
    sys.scheduler.toEdgeSet.Has (s, d) ∨ (s, d) ∈ (sys.switch.readInputs channels).getArrivals ↔
      0 < (sys.switch.readInputs channels).getQueueLength s d := by
  rw [h.has_iff, IQSwitch.readInputs_arrivals, IQSwitch.readInputs_queueLength,
    ← List.count_pos_iff]
  omega

/-- One slot. -/
theorem Synchronised.switching_eq_ok {sys : System (model n m)} (h : Synchronised sys)
    (shuffle : Reorder (Fin n × Fin m)) (channels : Fin n → List (Packet n m)) :
    ∃ sys', switching (model n m) shuffle channels sys = .ok sys' ∧ Synchronised sys' := by
  obtain ⟨st, hrun, hexact, hmutual, hhas⟩ :=
    schedule_eq_ok shuffle (sys.switch.readInputs channels) h.exact
  obtain ⟨sys', hok, hsched, hlen⟩ := SschedSimulator.switching_eq_ok
    (S := model n m) shuffle hrun hmutual.isMatching
  refine ⟨sys', hok, by rw [hsched]; exact hexact, fun s d => ?_⟩
  -- A matched queue with one packet is empty after the slot, and no other queue becomes empty.
  rw [hsched, hhas, h.has_or_arrived, hlen]
  exact pos_of_departed_iff

theorem Synchronised.run {sys sys' : System (model n m)} (h : Synchronised sys)
    (hrun : Run (model n m) sys sys') : Synchronised sys' := by
  exact hrun.preserved h (fun shuffle channels mid hmid _ => hmid.switching_eq_ok shuffle channels)

/-- Every sequence of operations returns and leaves an index that is the inverse of the vector on
    its first `_edge_num` edges.  In every run of a switch from empty, or after `init`, no slot
    fails an assertion, and after every slot the edges are the non-empty VOQs. -/
theorem edges_of_run :
    (∀ ops : List (Op n m), ∃ st, ops.foldlM exec initial = .ok st ∧
      st.edgeNum ≤ st.edges.length ∧
      (∀ i < st.edgeNum, ∀ p, st.edges[i]? = some p → st.index p = some i) ∧
      ∀ s d, st.index (s, d) = none ∨
        ∃ i < st.edgeNum, st.index (s, d) = some i ∧ st.edges[i]? = some (s, d)) ∧
    ∀ sys sys' : System (model n m), Start sys → Run (model n m) sys sys' →
      (∀ s d, (s, d) ∈ sys'.scheduler.edges.take sys'.scheduler.edgeNum ↔
        0 < sys'.switch.getQueueLength s d) ∧
      ∀ shuffle channels, ∃ next, switching (model n m) shuffle channels sys' = .ok next := by
  refine ⟨fun ops => ?_, fun sys sys' hstart hrun => ?_⟩
  · obtain ⟨st, hrun, hexact⟩ := execAll_eq_ok
      (show (initial : State n m).toEdgeSet.Exact from EdgeSet.exact_empty) ops
    refine ⟨st, hrun, hexact.bounded, fun i hi p hp => (hexact.located p i).mpr ⟨hi, hp⟩,
      fun s d => ?_⟩
    cases hsd : st.index (s, d) with
    | none => exact .inl rfl
    | some i =>
      obtain ⟨hi, hget⟩ := (hexact.located (s, d) i).mp hsd
      exact .inr ⟨i, hi, rfl, hget⟩
  · have hsync := hstart.synchronised.run hrun
    refine ⟨hsync.has_iff, fun shuffle channels => ?_⟩
    obtain ⟨next, hok, -⟩ := hsync.switching_eq_ok shuffle channels
    exact ⟨next, hok⟩

/-- Two inputs with a packet for the same output: the edge of the one that is served goes, the other
    one moves into its place. -/
theorem edges_after_slot :
    ∃ sys : System (model 2 2),
      (sys.scheduler.inMatch 0 = some 0 ∧ sys.scheduler.edges.take 1 = [(1, 0)]) ∧
      ∀ s d, (s, d) ∈ sys.scheduler.edges.take sys.scheduler.edgeNum ↔
        0 < sys.switch.getQueueLength s d := by
  obtain ⟨sys, hrun, hsys⟩ := exists_of_returns
    (x := switching (model 2 2) (Reorder.inOrder _) (packetsFor 0 (fun _ => 1))
      ⟨IQSwitch.empty 2 2, initial⟩)
    (p := fun sys => decide (sys.scheduler.inMatch 0 = some 0 ∧
      sys.scheduler.edges.take 1 = [(1, 0)])) (by decide)
  exact ⟨sys, of_decide_eq_true hsys,
    (edges_of_run.2 _ sys (.empty (IQSwitch.empty_empty 2 2)) (.step _ _ .refl hrun)).1⟩

/-! ### The matching is maximal -/

/-- The loop over the edges, between the matching `M` that it starts from and its result `M'`. -/
structure Extended (edges : List (Fin n × Fin m)) (M M' : Matching n m) : Prop where
  inverse : MutuallyInverse M'.inMatch M'.outMatch
  kept : ∀ s d, M.inMatch s = some d → M'.inMatch s = some d
  mem : ∀ s d, M'.inMatch s = some d → M.inMatch s = some d ∨ (s, d) ∈ edges
  blocked : ∀ p ∈ edges, M'.inMatch p.1 ≠ none ∨ M'.outMatch p.2 ≠ none

/-- An edge with a matched port is passed over. -/
theorem extended_blocked {e : Fin n × Fin m} {M : Matching n m}
    (h : MutuallyInverse M.inMatch M.outMatch)
    (hblocked : ¬ (M.inMatch e.1 = none ∧ M.outMatch e.2 = none)) : Extended [e] M M where
  inverse := h
  kept := fun _ _ hsd => hsd
  mem := fun _ _ hsd => .inl hsd
  blocked := by
    intro p hp
    rw [List.mem_singleton.mp hp]
    exact not_and_or.mp hblocked

/-- One between two free ports is added. -/
theorem extended_free {e : Fin n × Fin m} {M : Matching n m}
    (h : MutuallyInverse M.inMatch M.outMatch) (hin : M.inMatch e.1 = none)
    (hout : M.outMatch e.2 = none) :
    Extended [e] M ⟨Function.update M.inMatch e.1 (some e.2),
      Function.update M.outMatch e.2 (some e.1)⟩ where
  inverse := h.update hin hout
  kept := by
    intro s d hsd
    have hne : s ≠ e.1 := by
      rintro rfl
      rw [hin] at hsd
      cases hsd
    exact (Function.update_of_ne hne _ _).trans hsd
  mem := by
    intro s d hsd
    dsimp only at hsd
    rw [Function.update_apply] at hsd
    split at hsd
    · rename_i hs
      exact .inr (List.mem_singleton.mpr (Prod.ext hs (Option.some.inj hsd).symm))
    · exact .inl hsd
  blocked := by
    intro p hp
    rw [List.mem_singleton.mp hp]
    exact .inl (by simp)

/-- Ports do not become free again. -/
theorem Extended.trans {edges edges' : List (Fin n × Fin m)} {M M₁ M₂ : Matching n m}
    (h₁ : Extended edges M M₁) (h₂ : Extended edges' M₁ M₂) : Extended (edges ++ edges') M M₂ where
  inverse := h₂.inverse
  kept := fun s d hsd => h₂.kept s d (h₁.kept s d hsd)
  mem := by
    intro s d hsd
    rw [List.mem_append]
    rcases h₂.mem s d hsd with hsd | hmem
    · exact (h₁.mem s d hsd).imp_right .inl
    · exact .inr (.inr hmem)
  blocked := by
    intro p hp
    rcases List.mem_append.mp hp with hp | hp
    · exact h₁.inverse.blocked_of_le h₂.inverse h₂.kept (h₁.blocked p hp)
    · exact h₂.blocked p hp

/-- With as many pairs as a side has ports no two ports are free, whatever edges there still are. -/
theorem Extended.of_full {edges : List (Fin n × Fin m)} {M M' : Matching n m}
    (h : Extended edges M M') (hfull : Foundation.matchSize M'.inMatch = min m n)
    (rest : List (Fin n × Fin m)) : Extended (edges ++ rest) M M' where
  inverse := h.inverse
  kept := h.kept
  mem := fun s d hsd => (h.mem s d hsd).imp_right (List.mem_append_left rest)
  blocked := by
    intro p _
    by_contra hnot
    rw [not_or, not_not, not_not] at hnot
    have hlt := h.inverse.matchSize_lt hnot.1 hnot.2
    rw [Fintype.card_fin, Fintype.card_fin, hfull, min_comm] at hlt
    exact lt_irrefl _ hlt

/-- The loop: an edge that is passed over has a matched port, and when the loop stops early no two
    ports are free. -/
theorem matchEdges_maximal (edges : List (Fin n × Fin m)) {matchSize : ℕ} {M : Matching n m}
    (h : MutuallyInverse M.inMatch M.outMatch)
    (hsize : matchSize = Foundation.matchSize M.inMatch) :
    Extended edges M (matchEdges (min m n) edges matchSize M) := by
  induction edges generalizing matchSize M with
  | nil => exact ⟨h, fun _ _ hsd => hsd, fun _ _ hsd => .inl hsd, nofun⟩
  | cons e rest ih =>
    unfold matchEdges
    by_cases hfree : M.inMatch e.1 = none ∧ M.outMatch e.2 = none
    · have hone := extended_free h hfree.1 hfree.2
      have hsize' : matchSize + 1
          = Foundation.matchSize (Function.update M.inMatch e.1 (some e.2)) := by
        rw [hsize, matchSize_update hfree.1]
      rw [if_pos hfree]
      dsimp only
      by_cases hfull : matchSize + 1 = min m n
      · rw [if_pos hfull]
        exact hone.of_full (hsize'.symm.trans hfull) rest
      · rw [if_neg hfull]
        exact hone.trans (ih hone.inverse hsize')
    · rw [if_neg hfree]
      exact (extended_blocked h hfree).trans (ih h hsize)

/-- With the edges of the non-empty VOQs, the matching of a slot is a maximal one of these. -/
theorem schedule_maximal_of_edges (shuffle : Reorder (Fin n × Fin m)) (sw : IQSwitch n m)
    {st : State n m} (h : st.toEdgeSet.Exact)
    (hedges : ∀ s d, st.toEdgeSet.Has (s, d) ∨ (s, d) ∈ sw.getArrivals ↔
      0 < sw.getQueueLength s d) {st' : State n m} (hrun : schedule shuffle sw st = .ok st') :
    MaximalMatching (fun s d => 0 < sw.getQueueLength s d) st'.inMatch st'.outMatch := by
  obtain ⟨e, harrive, hexact, hhas⟩ := EdgeSet.insertAll_eq_ok h sw.getArrivals
  have hmem : ∀ s d, (s, d) ∈ e.edges.take e.edgeNum ↔ 0 < sw.getQueueLength s d :=
    fun s d => (hhas (s, d)).trans (hedges s d)
  unfold schedule at hrun
  rw [require_pos h.bounded, ok_bind, EdgeSet.handleArrivals, harrive, ok_bind] at hrun
  by_cases hzero : e.edgeNum = 0
  · rw [if_pos hzero] at hrun
    cases hrun
    refine ⟨mutuallyInverse_none, nofun, fun s d hsd => ?_⟩
    have := (hmem s d).mpr hsd
    rw [hzero] at this
    cases this
  · rw [if_neg hzero] at hrun
    obtain ⟨e', -, hst'⟩ := bind_eq_ok.mp hrun
    cases hst'
    -- a pair that was passed over had a port that was matched before it
    obtain ⟨hinverse, -, hsub, hblocked⟩ :=
      matchEdges_maximal (M := Matching.empty) (shuffle.run (e.edges.take e.edgeNum))
        mutuallyInverse_none matchSize_none.symm
    refine ⟨hinverse, fun s d hsd => ?_, fun s d hsd => ?_⟩
    · rcases hsub s d hsd with hnone | hedge
      · cases hnone
      · exact (hmem s d).mp (shuffle.mem.mp hedge)
    · exact hblocked (s, d) (shuffle.mem.mpr ((hmem s d).mpr hsd))

/-- If the edges, with those of the arrivals, are the non-empty VOQs, `schedule` returns a maximal
    matching of these.  So it does in every slot of every run of a switch from empty, or after
    `init`. -/
theorem schedule_maximal :
    (∀ (shuffle : Reorder (Fin n × Fin m)) (sw : IQSwitch n m) (st : State n m),
      st.toEdgeSet.Exact →
      (∀ s d, st.toEdgeSet.Has (s, d) ∨ (s, d) ∈ sw.getArrivals ↔ 0 < sw.getQueueLength s d) →
      ∃ st', schedule shuffle sw st = .ok st' ∧
        MaximalMatching (fun s d => 0 < sw.getQueueLength s d) st'.inMatch st'.outMatch) ∧
    ∀ sys sys' : System (model n m), Start sys → Run (model n m) sys sys' →
      ∀ (shuffle : Reorder (Fin n × Fin m)) (channels : Fin n → List (Packet n m)),
        ∃ next, switching (model n m) shuffle channels sys' = .ok next ∧
          MaximalMatching (fun s d => 0 < (sys'.switch.readInputs channels).getQueueLength s d)
            next.scheduler.inMatch next.scheduler.outMatch := by
  refine ⟨fun shuffle sw st hexact hedges => ?_, fun sys sys' hstart hrun shuffle channels => ?_⟩
  · obtain ⟨st', hok, -⟩ := schedule_eq_ok shuffle sw hexact
    exact ⟨st', hok, schedule_maximal_of_edges shuffle sw hexact hedges hok⟩
  · have hsync := hstart.synchronised.run hrun
    obtain ⟨st', hok, -, hmutual, -⟩ :=
      schedule_eq_ok shuffle (sys'.switch.readInputs channels) hsync.exact
    obtain ⟨next, hnext, hsched, -⟩ := SschedSimulator.switching_eq_ok
      (S := model n m) shuffle hok hmutual.isMatching
    refine ⟨next, hnext, ?_⟩
    rw [hsched]
    exact schedule_maximal_of_edges shuffle _ hsync.exact (hsync.has_or_arrived channels) hok

/-- Two inputs with packets for the same output, in a switch of two inputs and three outputs. -/
theorem schedule_maximal_two_three :
    ∃ next : System (model 2 3), next.scheduler.inMatch 0 = some 1 ∧
      MaximalMatching (fun _ d => d = 1) next.scheduler.inMatch next.scheduler.outMatch := by
  obtain ⟨next, hok, hmaximal⟩ := schedule_maximal.2 _ _ (.empty (IQSwitch.empty_empty 2 3)) .refl
    (Reorder.inOrder _) (packetsFor 1 (fun _ => 1))
  obtain ⟨next', hok', hmatched⟩ := exists_of_returns
    (x := switching (model 2 3) (Reorder.inOrder _) (packetsFor 1 (fun _ => 1))
      ⟨IQSwitch.empty 2 3, initial⟩)
    (p := fun next => decide (next.scheduler.inMatch 0 = some 1)) (by decide)
  obtain rfl : next' = next := Except.ok.inj (hok'.symm.trans hok)
  refine ⟨next', of_decide_eq_true hmatched, ?_⟩
  have hlen : (fun s d => 0 < ((IQSwitch.empty 2 3).readInputs
      (packetsFor 1 (fun _ => 1))).getQueueLength s d) = fun _ d => d = 1 := by
    ext s d
    revert s d
    decide
  rwa [← hlen]

end RandomizedMaximal

end SschedSimulator
