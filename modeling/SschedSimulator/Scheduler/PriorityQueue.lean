import Mathlib.Data.Int.Notation
import Mathlib.Data.List.Infix
import SschedSimulator.Foundation.Ranking

namespace SschedSimulator

open Foundation.Ranking

/-!
# `priority_queue.cpp` — `Linear_Priority_Queue`

A list of fixed length with pairs of a value and its priority; an empty place holds the null symbol
as value and as priority.  An insertion shifts the entries behind it only as far as the first empty
place, which is not filled: the last entry shifted is lost.

* `mem_insert` — nothing is in the queue that was not inserted;
* `insert_packed` — what an insertion does to a queue of ranked entries;
* `HoldsBest` — the queue holds the best entries inserted; `holdsBest_iff` says when it does after
  every insertion of a run.
-/

variable {α : Type}

/-- The places of a queue, the highest priority first. -/
abbrev LinearPriorityQueue (α : Type) := List (Option α × ℤ)

namespace LinearPriorityQueue

/-- An empty place. -/
def nullPair (nullSymbol : ℤ := -1) : Option α × ℤ := (none, nullSymbol)

/-- An empty queue. -/
def empty (capacity : ℕ) (nullSymbol : ℤ := -1) : LinearPriorityQueue α :=
  List.replicate capacity (nullPair nullSymbol)

/-- The second loop of `insert`: put `tmp` in the next place and go on with what was there. -/
def shift (tmp : Option α × ℤ) (q : LinearPriorityQueue α) (nullSymbol : ℤ := -1) :
    LinearPriorityQueue α :=
  match q with
  | [] => []
  | cur :: rest => if cur.2 ≠ nullSymbol then tmp :: shift cur rest nullSymbol else cur :: rest

/-- `insert`. -/
def insert (val : α) (pri : ℤ) (q : LinearPriorityQueue α) (nullSymbol : ℤ := -1) :
    LinearPriorityQueue α :=
  match q with
  | [] => []
  | cur :: rest =>
    if cur.2 ≥ pri then cur :: insert val pri rest nullSymbol
    else (some val, pri) :: shift cur rest nullSymbol

/-- `size`: the number of places before the first empty one. -/
def size (q : LinearPriorityQueue α) (nullSymbol : ℤ := -1) : ℕ :=
  (q.takeWhile (fun cur => cur.2 ≠ nullSymbol)).length

/-- `queue[k].first`. -/
def value (q : LinearPriorityQueue α) (k : ℕ) : Option α := (q.getD k nullPair).1

theorem mem_shift {nullSymbol : ℤ} {tmp e : Option α × ℤ} {q : LinearPriorityQueue α}
    (h : e ∈ shift tmp q nullSymbol) : e = tmp ∨ e ∈ q := by
  induction q generalizing tmp with
  | nil => exact absurd h List.not_mem_nil
  | cons cur rest ih =>
    unfold shift at h
    split at h
    · rcases List.mem_cons.mp h with rfl | h
      · exact .inl rfl
      · rcases ih h with rfl | h
        · exact .inr (List.mem_cons_self ..)
        · exact .inr (List.mem_cons_of_mem _ h)
    · exact .inr h

/-- An insertion brings in only the entry inserted. -/
theorem mem_insert {nullSymbol : ℤ} {val : α} {pri : ℤ} {e : Option α × ℤ}
    {q : LinearPriorityQueue α} (h : e ∈ insert val pri q nullSymbol) :
    e = (some val, pri) ∨ e ∈ q := by
  induction q with
  | nil => exact absurd h List.not_mem_nil
  | cons cur rest ih =>
    unfold insert at h
    split at h
    · rcases List.mem_cons.mp h with rfl | h
      · exact .inr (List.mem_cons_self ..)
      · exact (ih h).imp id (List.mem_cons_of_mem _)
    · rcases List.mem_cons.mp h with rfl | h
      · exact .inl rfl
      · rcases mem_shift h with rfl | h
        · exact .inr (List.mem_cons_self ..)
        · exact .inr (List.mem_cons_of_mem _ h)

/-- The values read are those of entries. -/
theorem mem_of_value_eq_some {q : LinearPriorityQueue α} {k : ℕ} {a : α}
    (h : q.value k = some a) : ∃ pri, (some a, pri) ∈ q := by
  unfold value at h
  rw [List.getD_eq_getElem?_getD] at h
  cases hk : q[k]? with
  | none =>
    rw [hk] at h
    cases h
  | some e =>
    rw [hk] at h
    refine ⟨e.2, ?_⟩
    rw [← h]
    exact List.mem_of_getElem? hk

/-- A second proposal with more packets drives the first one out although there is room. -/
example : (((empty 2).insert 1 3).insert 2 5).value 1 = (none : Option ℕ) := by decide

/-! ### The best entries -/

/-- The places of a queue that holds `entries` and is otherwise empty. -/
def packed (capacity : ℕ) (nullSymbol : ℤ) (entries : List (α × ℤ)) : LinearPriorityQueue α :=
  entries.map (fun e => (some e.1, e.2)) ++
    List.replicate (capacity - entries.length) (nullPair nullSymbol)

/-- The queue after the calls `insert(e.1, e.2)`, for `e` in `inserted`. -/
def insertAll (capacity : ℕ) (nullSymbol : ℤ) (inserted : List (α × ℤ)) : LinearPriorityQueue α :=
  inserted.foldl (fun q e => insert e.1 e.2 q nullSymbol) (empty capacity nullSymbol)

/-- The queue holds the best of the entries inserted, as many as fit, by non-increasing priority and
    those of one priority in the order of their insertion; empty places come behind them. -/
structure HoldsBest (capacity : ℕ) (nullSymbol : ℤ) (inserted : List (α × ℤ))
    (q : LinearPriorityQueue α) : Prop where
  entries : q = packed capacity nullSymbol ((ranked Prod.snd inserted).take capacity)
  size : q.size nullSymbol = min capacity inserted.length

variable {capacity : ℕ} {nullSymbol : ℤ}

theorem insertAll_append_singleton (inserted : List (α × ℤ)) (e : α × ℤ) :
    insertAll capacity nullSymbol (inserted ++ [e])
      = insert e.1 e.2 (insertAll capacity nullSymbol inserted) nullSymbol := by
  simp [insertAll]

/-- `size` counts the entries. -/
theorem size_packed {entries : List (α × ℤ)} (h : ∀ e ∈ entries, nullSymbol < e.2) :
    (packed capacity nullSymbol entries).size nullSymbol = entries.length := by
  have hall : ∀ cur ∈ entries.map (fun e => ((some e.1, e.2) : Option α × ℤ)),
      decide (cur.2 ≠ nullSymbol) = true := by
    intro cur hcur
    obtain ⟨e, he, rfl⟩ := List.mem_map.mp hcur
    exact decide_eq_true (h e he).ne'
  rw [size, packed, List.takeWhile_append_of_pos hall, List.length_append, List.length_map]
  cases capacity - entries.length <;> simp [List.replicate_succ, nullPair]

/-- The second loop shifts the entries by one place; the last of them is lost. -/
theorem shift_entries (k : ℕ) {entries : List (α × ℤ)} (h : ∀ e ∈ entries, nullSymbol < e.2)
    (tmp : α × ℤ) :
    shift (some tmp.1, tmp.2) (entries.map (fun e => (some e.1, e.2)) ++
        List.replicate k (nullPair nullSymbol)) nullSymbol
      = ((tmp :: entries).take entries.length).map (fun e => (some e.1, e.2)) ++
        List.replicate k (nullPair nullSymbol) := by
  induction entries generalizing tmp with
  | nil => cases k <;> simp [shift, nullPair, List.replicate_succ]
  | cons e rest ih =>
    have he : e.2 ≠ nullSymbol := (h e (by simp)).ne'
    have hrest := ih (fun e' he' => h e' (by simp [he'])) e
    rw [List.map_cons, List.cons_append, shift, if_pos he, hrest]
    simp

/-- An insertion into a queue of entries.  A lowest entry goes to the next empty place, if there is
    one.  Any other takes its place in the ranking and drives the last entry out, whether or not
    there is an empty place. -/
theorem insert_entries (k : ℕ) {entries : List (α × ℤ)} (h : ∀ e ∈ entries, nullSymbol < e.2)
    {e : α × ℤ} (he : nullSymbol < e.2) :
    insert e.1 e.2 (entries.map (fun e => (some e.1, e.2)) ++
        List.replicate k (nullPair nullSymbol)) nullSymbol
      = if ∀ b ∈ entries, e.2 ≤ b.2 then
          ((entries ++ [e]).take (entries.length + k)).map (fun e => (some e.1, e.2)) ++
            List.replicate (k - 1) (nullPair nullSymbol)
        else
          ((insertBehind Prod.snd e entries).take entries.length).map (fun e => (some e.1, e.2)) ++
            List.replicate k (nullPair nullSymbol) := by
  induction entries with
  | nil =>
    cases k with
    | zero => simp [insert]
    | succ k =>
      have hnull : ¬ (nullPair nullSymbol : Option α × ℤ).2 ≥ e.2 := not_le.mpr he
      rw [List.map_nil, List.nil_append, List.replicate_succ, insert, if_neg hnull]
      cases k <;> simp [shift, nullPair, List.replicate_succ]
  | cons b rest ih =>
    have hrest : ∀ e ∈ rest, nullSymbol < e.2 := fun e' he' => h e' (by simp [he'])
    rw [List.map_cons, List.cons_append, insert]
    -- the new entry goes behind those that are not smaller
    by_cases hb : e.2 ≤ b.2
    · rw [if_pos hb, ih hrest]
      have hall : (∀ c ∈ b :: rest, e.2 ≤ c.2) ↔ ∀ c ∈ rest, e.2 ≤ c.2 := by simp [hb]
      simp only [hall]
      split
      · rw [List.length_cons, show rest.length + 1 + k = rest.length + k + 1 by omega]
        rfl
      · rw [insertBehind, if_pos hb]
        rfl
    · have hnot : ¬ ∀ c ∈ b :: rest, e.2 ≤ c.2 := fun hall => hb (hall b (by simp))
      rw [if_neg hb, if_neg hnot, shift_entries k hrest b, insertBehind, if_neg hb]
      simp

/-- An insertion of a lowest entry, where there is room for it. -/
theorem insert_packed_of_le {entries : List (α × ℤ)} (h : ∀ e ∈ entries, nullSymbol < e.2)
    (hlen : entries.length < capacity) {e : α × ℤ} (he : nullSymbol < e.2)
    (hle : ∀ b ∈ entries, e.2 ≤ b.2) :
    insert e.1 e.2 (packed capacity nullSymbol entries) nullSymbol
      = packed capacity nullSymbol (entries ++ [e]) := by
  rw [packed, insert_entries _ h he, if_pos hle, List.take_of_length_le (by simp; omega), packed,
    List.length_append, List.length_singleton, Nat.sub_sub]

/-- An insertion of any other entry keeps the number of entries. -/
theorem insert_packed_of_not_le {entries : List (α × ℤ)} (h : ∀ e ∈ entries, nullSymbol < e.2)
    {e : α × ℤ} (he : nullSymbol < e.2) (hle : ¬ ∀ b ∈ entries, e.2 ≤ b.2) :
    insert e.1 e.2 (packed capacity nullSymbol entries) nullSymbol
      = packed capacity nullSymbol ((insertBehind Prod.snd e entries).take entries.length) := by
  rw [packed, insert_entries _ h he, if_neg hle, packed]
  simp

/-- An insertion into a full queue. -/
theorem insert_packed_of_full {entries : List (α × ℤ)} (h : ∀ e ∈ entries, nullSymbol < e.2)
    (hlen : entries.length = capacity) {e : α × ℤ} (he : nullSymbol < e.2) :
    insert e.1 e.2 (packed capacity nullSymbol entries) nullSymbol
      = packed capacity nullSymbol ((insertBehind Prod.snd e entries).take capacity) := by
  subst hlen
  by_cases hle : ∀ b ∈ entries, e.2 ≤ b.2
  · rw [packed, insert_entries _ h he, if_pos hle, packed, insertBehind_of_forall_le hle]
    simp
  · exact insert_packed_of_not_le h he hle

/-- While the priorities do not increase until the queue is full, it holds the best entries. -/
theorem insertAll_eq {inserted : List (α × ℤ)} (h : ∀ e ∈ inserted, nullSymbol < e.2)
    (hsorted : (inserted.take capacity).Pairwise (fun a b => b.2 ≤ a.2)) :
    insertAll capacity nullSymbol inserted
      = packed capacity nullSymbol ((ranked Prod.snd inserted).take capacity) := by
  induction inserted using List.reverseRecOn with
  | nil => simp [insertAll, packed, empty, ranked]
  | append_singleton l e ih =>
    have hl : ∀ e ∈ l, nullSymbol < e.2 := fun e' he' => h e' (by simp [he'])
    have he : nullSymbol < e.2 := h e (by simp)
    have hentries : ∀ b ∈ (ranked Prod.snd l).take capacity, nullSymbol < b.2 :=
      fun b hb => hl b (mem_ranked.mp (List.mem_of_mem_take hb))
    have hbefore := ih hl (hsorted.sublist ((List.prefix_append l [e]).take capacity).sublist)
    rw [insertAll_append_singleton, hbefore]
    rcases Nat.lt_or_ge l.length capacity with hroom | hfull
    · -- The queue holds all that was inserted, in this order, and the new entry is no higher.
      rw [List.take_of_length_le (by simp; omega), List.pairwise_append] at hsorted
      have hle : ∀ b ∈ l, e.2 ≤ b.2 := fun b hb => hsorted.2.2 b hb e (by simp)
      rw [ranked_append_singleton, ranked_of_pairwise hsorted.1, insertBehind_of_forall_le hle,
        List.take_of_length_le hroom.le, List.take_of_length_le (by simp; omega)]
      exact insert_packed_of_le hl hroom he hle
    · rw [insert_packed_of_full hentries (by simp; omega) he, ranked_append_singleton,
        take_insertBehind]

/-- An insertion keeps the entries in front and adds at most one. -/
theorem exists_insert_packed {entries : List (α × ℤ)} (h : ∀ b ∈ entries, nullSymbol < b.2)
    (hlen : entries.length ≤ capacity) {e : α × ℤ} (he : nullSymbol < e.2) :
    ∃ after : List (α × ℤ), insert e.1 e.2 (packed capacity nullSymbol entries) nullSymbol
        = packed capacity nullSymbol after ∧ (∀ b ∈ after, b = e ∨ b ∈ entries) ∧
      after.length ≤ min capacity (entries.length + 1) := by
  have hbehind : ∀ c, ∀ b ∈ (insertBehind Prod.snd e entries).take c, b = e ∨ b ∈ entries :=
    fun c b hb => mem_insertBehind.mp (List.mem_of_mem_take hb)
  rcases Nat.lt_or_ge entries.length capacity with hroom | hfull
  · by_cases hle : ∀ b ∈ entries, e.2 ≤ b.2
    · refine ⟨entries ++ [e], insert_packed_of_le h hroom he hle, fun b hb => ?_, ?_⟩
      · exact (List.mem_append.mp hb).symm.imp_left List.mem_singleton.mp
      · simp only [List.length_append, List.length_singleton]
        omega
    · refine ⟨_, insert_packed_of_not_le h he hle, hbehind _, ?_⟩
      simp only [List.length_take, length_insertBehind]
      omega
  · refine ⟨_, insert_packed_of_full h (by omega) he, hbehind _, ?_⟩
    simp only [List.length_take, length_insertBehind]
    omega

/-- A queue holds at most one entry for each insertion. -/
theorem exists_insertAll_eq {inserted : List (α × ℤ)} (h : ∀ e ∈ inserted, nullSymbol < e.2) :
    ∃ entries : List (α × ℤ), insertAll capacity nullSymbol inserted
        = packed capacity nullSymbol entries ∧ (∀ b ∈ entries, b ∈ inserted) ∧
      entries.length ≤ min capacity inserted.length := by
  induction inserted using List.reverseRecOn with
  | nil => exact ⟨[], by simp [insertAll, packed, empty], by simp, by simp⟩
  | append_singleton l e ih =>
    obtain ⟨entries, hrun, hmem, hlen⟩ := ih (fun e' he' => h e' (by simp [he']))
    have hentries : ∀ b ∈ entries, nullSymbol < b.2 := fun b hb => h b (by simp [hmem b hb])
    have hfits : entries.length ≤ capacity := by omega
    obtain ⟨after, hinsert, hafter, hcount⟩ := exists_insert_packed hentries hfits (h e (by simp))
    refine ⟨after, by rw [insertAll_append_singleton, hrun, hinsert], fun b hb => ?_, ?_⟩
    · rcases hafter b hb with rfl | hb
      · simp
      · simp [hmem b hb]
    · rw [List.length_append, List.length_singleton]
      omega

/-- While there is room for all that is inserted, nothing is lost only if the priorities do not
    increase. -/
theorem pairwise_of_size {inserted : List (α × ℤ)} (h : ∀ e ∈ inserted, nullSymbol < e.2)
    (hroom : inserted.length ≤ capacity)
    (hsize : (insertAll capacity nullSymbol inserted).size nullSymbol = inserted.length) :
    inserted.Pairwise (fun a b => b.2 ≤ a.2) := by
  induction inserted using List.reverseRecOn with
  | nil => exact List.Pairwise.nil
  | append_singleton l e ih =>
    have hl : ∀ e ∈ l, nullSymbol < e.2 := fun e' he' => h e' (by simp [he'])
    have he : nullSymbol < e.2 := h e (by simp)
    rw [List.length_append, List.length_singleton] at hroom hsize
    rw [insertAll_append_singleton] at hsize
    have hsorted : l.Pairwise (fun a b => b.2 ≤ a.2) := by
      obtain ⟨entries, hrun, hmem, hlen⟩ := @exists_insertAll_eq α capacity nullSymbol l hl
      have hentries : ∀ b ∈ entries, nullSymbol < b.2 := fun b hb => hl b (hmem b hb)
      have hfits : entries.length ≤ capacity := by omega
      obtain ⟨after, hinsert, hafter, hcount⟩ := exists_insert_packed hentries hfits he
      rw [hrun, hinsert, size_packed] at hsize
      · refine ih hl (by omega) ?_
        rw [hrun, size_packed hentries]
        omega
      · intro b hb
        rcases hafter b hb with rfl | hb
        · exact he
        · exact hentries b hb
    -- So far nothing is lost and the order is that of the insertions.
    have hrun : insertAll capacity nullSymbol l = packed capacity nullSymbol l := by
      rw [insertAll_eq hl (hsorted.sublist (List.take_sublist _ _)), ranked_of_pairwise hsorted,
        List.take_of_length_le (by omega)]
    by_cases hle : ∀ b ∈ l, e.2 ≤ b.2
    · exact List.pairwise_append.mpr ⟨hsorted, List.pairwise_singleton _ _, by simpa using hle⟩
    · rw [hrun, insert_packed_of_not_le hl he hle, size_packed] at hsize
      · simp at hsize
      · intro b hb
        rcases mem_insertBehind.mp (List.mem_of_mem_take hb) with rfl | hb
        · exact he
        · exact hl b hb

/-- The queue holds the best entries after every insertion of a run exactly when the priorities do
    not increase until it is full. -/
theorem holdsBest_iff (capacity : ℕ) (nullSymbol : ℤ) (inserted : List (α × ℤ))
    (h : ∀ e ∈ inserted, nullSymbol < e.2) :
    (∀ done, done <+: inserted →
        HoldsBest capacity nullSymbol done (insertAll capacity nullSymbol done)) ↔
      (inserted.take capacity).Pairwise (fun a b => b.2 ≤ a.2) := by
  constructor
  · intro hbest
    have hsize := (hbest (inserted.take capacity) (List.take_prefix _ _)).size
    exact pairwise_of_size (fun e he => h e (List.mem_of_mem_take he)) (by simp)
      (hsize.trans (by simp))
  · intro hsorted done hdone
    have hpri : ∀ e ∈ done, nullSymbol < e.2 := fun e he => h e (hdone.subset he)
    have hrun := insertAll_eq hpri (hsorted.sublist (hdone.take capacity).sublist)
    refine ⟨hrun, ?_⟩
    rw [hrun, size_packed (fun e he => hpri e (mem_ranked.mp (List.mem_of_mem_take he)))]
    simp

/-- Two entries with falling priorities are both kept. -/
theorem holdsBest_of_falling :
    HoldsBest 2 (-1) [(1, 5), (2, 3)] (insertAll 2 (-1) [((1 : ℕ), 5), (2, 3)]) :=
  (holdsBest_iff 2 (-1) [(1, 5), (2, 3)] (by decide)).mpr (by decide) _ (List.prefix_refl _)

/-- The second entry has the higher priority and drives the first one out of a queue for two. -/
theorem not_holdsBest_of_rising :
    ¬ HoldsBest 2 (-1) [(1, 3), (2, 5)] (insertAll 2 (-1) [((1 : ℕ), 3), (2, 5)]) :=
  fun h => absurd h.size (by decide)

end LinearPriorityQueue

end SschedSimulator
