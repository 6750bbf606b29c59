import Mathlib.Data.Finset.Basic
import SschedSimulator.Foundation.Bitset
import SschedSimulator.Matching.Serena

namespace SschedSimulator

open Foundation

/-!
# `availmap.hpp` — the template `AvailabilityMap`, for every size

A map is an array of 64-bit words in which a one is an available frame; `asize` words are in use.
The number of frames need not be a multiple of 64: the bits above it start as ones, too.  The two
ports of a match have one map each, and the frame of the match is the first one in the intersection
of the two.  A map is described by the set of frames `taken` since its last reset.

* `avail_set`, `exists_inter` — the operations, frame by frame;
* `Represents` — the words in use show a set of taken frames; every operation keeps it;
* `ffsLoop_spec` — the loop of `ffs` stops at the first one, in the word before its counter;
* `ffs_inter_eq_firstFree` — the intersection of two maps finds the first frame free for both.
-/

/-- `AvailabilityMap<64 * words>`.  A word at `asize` or above is not initialised and not read. -/
structure AvailabilityTemplate (words : ℕ) where
  map : Fin words → Bitset 64
  asize : ℕ
  asize_le : asize ≤ words

namespace AvailabilityTemplate

variable {words : ℕ}

/-- `reset`. -/
def reset (m : AvailabilityTemplate words) : AvailabilityTemplate words :=
  { m with map := fun i => if i < m.asize then BitVec.allOnes 64 else m.map i }

/-- `AvailabilityMap(rsize)`; `memory` is what the words hold before. -/
def ofFrames (memory : Fin words → Bitset 64) (rsize : ℕ) :
    Except MatchingFault (AvailabilityTemplate words) :=
  if h : rsize / 64 + (if rsize % 64 ≠ 0 then 1 else 0) ≤ words then
    .ok (reset { map := memory, asize := _, asize_le := h })
  else .error .indexOutOfRange

/-- `set`. -/
def set (m : AvailabilityTemplate words) (pos : ℕ) :
    Except MatchingFault (AvailabilityTemplate words) :=
  if h : pos < 64 * words then
    let apos : Fin words := ⟨pos / 64, by omega⟩
    .ok { m with map := Function.update m.map apos (Bitset.reset (m.map apos) (pos % 64)) }
  else .error .bitOutOfRange

/-- `__builtin_ffsll`: one plus the position of the first one, or `0`. -/
def ffsll (w : Bitset 64) : ℕ :=
  match (List.range 64).find? (fun b => Bitset.test w b) with
  | some b => b + 1
  | none => 0

/-- The loop of `ffs`: `result` and `i` when it ends. -/
def ffsLoop (m : AvailabilityTemplate words) (result i : ℕ) : ℕ × ℕ :=
  if h : result = 0 ∧ i < m.asize then
    ffsLoop m (ffsll (m.map ⟨i, h.2.trans_le m.asize_le⟩)) (i + 1)
  else (result, i)
  termination_by m.asize - i

/-- `ffs`. -/
def ffs (m : AvailabilityTemplate words) : ℤ :=
  let loop := ffsLoop m 0 0
  if loop.1 = 0 then -1 else loop.1 + 64 * ((loop.2 : ℤ) - 1) - 1

/-- `operator&`; `memory` is what the words of the result hold before. -/
def inter (memory : Fin words → Bitset 64) (m other : AvailabilityTemplate words) :
    Except MatchingFault (AvailabilityTemplate words) := do
  let rasize := max m.asize other.asize
  let result ← ofFrames memory (rasize * 64)
  .ok { result with
        map := fun i => if i < rasize then m.map i &&& other.map i else result.map i }

/-- A call on a map. -/
inductive Call where
  | reset
  | set (pos : ℕ)

/-- Make the call. -/
def Call.run : Call → AvailabilityTemplate words →
    Except MatchingFault (AvailabilityTemplate words)
  | .reset, m => .ok m.reset
  | .set pos, m => m.set pos

/-- A map built for `rsize` frames, after the calls. -/
def build (memory : Fin words → Bitset 64) (rsize : ℕ) (calls : List Call) :
    Except MatchingFault (AvailabilityTemplate words) := do
  let m ← ofFrames memory rsize
  calls.foldlM (fun m call => call.run m) m

/-! ### The taken frames -/

/-- What a call makes of the set of taken frames. -/
def Call.mark : Call → Finset ℕ → Finset ℕ
  | .reset, _ => ∅
  | .set pos, t => insert pos t

/-- The frames taken since the last reset. -/
def taken (calls : List Call) : Finset ℕ := calls.foldl (fun t call => call.mark t) ∅

/-- The first of the frames that is taken for neither port. -/
def firstFree (frames : ℕ) (t t' : Finset ℕ) : Option ℕ :=
  (List.range frames).find? (fun f => decide (f ∉ t ∧ f ∉ t'))

/-- Whether the frame is available: its bit is a one. -/
def avail (m : AvailabilityTemplate words) (pos : ℕ) : Bool :=
  if h : pos / 64 < words then Bitset.test (m.map ⟨pos / 64, h⟩) (pos % 64) else false

/-- The words in use are those for `rsize` frames, and their zeros are the taken frames. -/
structure Represents (m : AvailabilityTemplate words) (rsize : ℕ) (t : Finset ℕ) : Prop where
  asize : m.asize = (rsize + 63) / 64
  avail : ∀ q < 64 * m.asize, m.avail q = true ↔ q ∉ t

/-! ### The operations, frame by frame -/

theorem avail_reset (m : AvailabilityTemplate words) {q : ℕ} (hq : q < 64 * m.asize) :
    m.reset.avail q = true := by
  have hword : q / 64 < m.asize := by omega
  rw [avail, dif_pos (hword.trans_le m.asize_le)]
  show Bitset.test (if q / 64 < m.asize then BitVec.allOnes 64 else _) _ = true
  rw [if_pos hword, Bitset.test_allOnes]
  exact decide_eq_true (Nat.mod_lt _ (by decide))

theorem represents_reset {m : AvailabilityTemplate words} {rsize : ℕ}
    (h : m.asize = (rsize + 63) / 64) : Represents m.reset rsize ∅ where
  asize := h
  avail := fun q hq => by simp [avail_reset m hq]

theorem ofFrames_eq_ok (memory : Fin words → Bitset 64) {rsize : ℕ} (h : rsize ≤ 64 * words) :
    ∃ m, ofFrames memory rsize = .ok m ∧ Represents m rsize ∅ := by
  have hwords : rsize / 64 + (if rsize % 64 ≠ 0 then 1 else 0) = (rsize + 63) / 64 := by
    split <;> omega
  refine ⟨_, dif_pos (by omega), represents_reset ?_⟩
  exact hwords

theorem avail_set (m : AvailabilityTemplate words) {pos : ℕ} (h : pos < 64 * words) :
    ∃ m', m.set pos = .ok m' ∧ m'.asize = m.asize ∧
      ∀ q, m'.avail q = (m.avail q && !decide (q = pos)) := by
  refine ⟨_, dif_pos h, rfl, fun q => ?_⟩
  unfold avail
  split
  · rename_i hq
    show Bitset.test (Function.update m.map _ _ _) _ = _
    by_cases hword : q / 64 = pos / 64
    · -- In the same word the positions differ exactly if their bits do.
      have hsame : (⟨q / 64, hq⟩ : Fin words) = ⟨pos / 64, by omega⟩ := Fin.ext hword
      have hbit : decide (q % 64 = pos % 64) = decide (q = pos) := decide_eq_decide.mpr (by omega)
      rw [hsame, Function.update_self, Bitset.test_reset, hbit]
    · have hother : (⟨q / 64, hq⟩ : Fin words) ≠ ⟨pos / 64, by omega⟩ :=
        fun he => hword (congrArg Fin.val he)
      have hne : q ≠ pos := fun he => hword (by rw [he])
      rw [Function.update_of_ne hother, decide_eq_false hne, Bool.not_false, Bool.and_true]
  · rfl

theorem Represents.set {m : AvailabilityTemplate words} {rsize : ℕ} {t : Finset ℕ}
    (h : Represents m rsize t) {pos : ℕ} (hpos : pos < 64 * words) :
    ∃ m', m.set pos = .ok m' ∧ Represents m' rsize (insert pos t) := by
  obtain ⟨m', hset, hasize, havail⟩ := avail_set m hpos
  refine ⟨m', hset, hasize.trans h.asize, fun q hq => ?_⟩
  rw [havail, Bool.and_eq_true, h.avail q (hasize ▸ hq), Finset.mem_insert, not_or]
  simp [and_comm]

/-- One call with a position below `rsize`. -/
theorem Represents.run {m : AvailabilityTemplate words} {rsize : ℕ} {t : Finset ℕ}
    (h : Represents m rsize t) (hsize : rsize ≤ 64 * words) {call : Call}
    (hcall : ∀ pos, call = .set pos → pos < rsize) :
    ∃ m', call.run m = .ok m' ∧ Represents m' rsize (call.mark t) := by
  cases call with
  | reset => exact ⟨m.reset, rfl, represents_reset h.asize⟩
  | set pos => exact h.set ((hcall pos rfl).trans_le hsize)

/-- Any sequence of calls with positions below `rsize`. -/
theorem Represents.runs {m : AvailabilityTemplate words} {rsize : ℕ} {t : Finset ℕ}
    (h : Represents m rsize t) (hsize : rsize ≤ 64 * words) {calls : List Call}
    (hcalls : ∀ pos, Call.set pos ∈ calls → pos < rsize) :
    ∃ m', calls.foldlM (fun m (call : Call) => call.run m) m = .ok m' ∧
      Represents m' rsize (calls.foldl (fun t call => call.mark t) t) := by
  induction calls generalizing m t with
  | nil => exact ⟨m, rfl, h⟩
  | cons call rest ih =>
    have hcall : ∀ pos, call = .set pos → pos < rsize :=
      fun pos he => hcalls pos (he ▸ List.mem_cons_self)
    obtain ⟨m₁, hrun, hm₁⟩ := h.run hsize hcall
    rw [List.foldlM_cons, hrun, ok_bind]
    exact ih hm₁ (fun pos hpos => hcalls pos (List.mem_cons_of_mem _ hpos))

theorem build_eq_ok (memory : Fin words → Bitset 64) {rsize : ℕ} (hsize : rsize ≤ 64 * words)
    {calls : List Call} (hcalls : ∀ pos, Call.set pos ∈ calls → pos < rsize) :
    ∃ m, build memory rsize calls = .ok m ∧ Represents m rsize (taken calls) := by
  obtain ⟨m, hok, hm⟩ := ofFrames_eq_ok memory hsize
  unfold build
  rw [hok, ok_bind]
  exact hm.runs hsize hcalls

/-- The intersection of any two maps, in the words in use. -/
theorem exists_inter (memory : Fin words → Bitset 64) (a b : AvailabilityTemplate words) :
    ∃ c, inter memory a b = .ok c ∧ c.asize = max a.asize b.asize ∧
      ∀ q < 64 * c.asize, c.avail q = (a.avail q && b.avail q) := by
  have hle := max_le a.asize_le b.asize_le
  obtain ⟨c, hok, hc⟩ := ofFrames_eq_ok memory (by omega : max a.asize b.asize * 64 ≤ 64 * words)
  have hasize : c.asize = max a.asize b.asize := by
    rw [hc.asize]
    omega
  refine ⟨{ c with map := fun i => if i < max a.asize b.asize then a.map i &&& b.map i else c.map i },
    ?_, hasize, fun q hq => ?_⟩
  · simp only [inter, hok, ok_bind]
  · have hword : q / 64 < max a.asize b.asize := by
      have hq' : q < 64 * c.asize := hq
      omega
    simp only [avail, dif_pos (hword.trans_le hle), if_pos hword, Bitset.test_and]

/-- The intersection shows the frames taken in either map. -/
theorem Represents.inter {a b : AvailabilityTemplate words} {rsize : ℕ} {t t' : Finset ℕ}
    (ha : Represents a rsize t) (hb : Represents b rsize t') (memory : Fin words → Bitset 64) :
    ∃ c, inter memory a b = .ok c ∧ Represents c rsize (t ∪ t') := by
  obtain ⟨c, hok, hasize, havail⟩ := exists_inter memory a b
  have hsame : c.asize = a.asize := by rw [hasize, hb.asize, ha.asize, max_self]
  refine ⟨c, hok, hsame.trans ha.asize, fun q hq => ?_⟩
  rw [havail q hq, Bool.and_eq_true, ha.avail q (hsame ▸ hq),
    hb.avail q (by rwa [hb.asize, ← ha.asize, ← hsame]), Finset.mem_union, not_or]

/-! ### The first available frame -/

/-- `__builtin_ffsll` finds the first one of a word, if there is one. -/
theorem ffsll_spec (w : Bitset 64) :
    (ffsll w = 0 ∧ ∀ b < 64, Bitset.test w b = false) ∨
      ∃ b < 64, ffsll w = b + 1 ∧ Bitset.test w b = true ∧
        ∀ b' < b, Bitset.test w b' = false := by
  unfold ffsll
  cases hfind : (List.range 64).find? (fun b => Bitset.test w b) with
  | none =>
    refine .inl ⟨rfl, fun b hb => ?_⟩
    simpa using List.find?_range_eq_none.mp hfind b hb
  | some b =>
    obtain ⟨htest, hlt, hfirst⟩ := List.find?_range_eq_some.mp hfind
    refine .inr ⟨b, List.mem_range.mp hlt, rfl, htest, fun b' hb' => ?_⟩
    simpa using hfirst b' hb'

/-- A position is in the word and at the bit that its two parts name. -/
theorem avail_word {m : AvailabilityTemplate words} {i : ℕ} (hi : i < words) {b : ℕ} (hb : b < 64) :
    m.avail (64 * i + b) = Bitset.test (m.map ⟨i, hi⟩) b := by
  have hword : (64 * i + b) / 64 = i := by omega
  have hbit : (64 * i + b) % 64 = b := by omega
  unfold avail
  simp only [hword, hbit, dif_pos hi]

/-- The loop from word `i` on: without a result there is no available frame from there on, and a
    result is the first one, in the word before the counter. -/
theorem ffsLoop_spec (m : AvailabilityTemplate words) (i : ℕ) :
    ((ffsLoop m 0 i).1 = 0 ∧ ∀ q, 64 * i ≤ q → q < 64 * m.asize → m.avail q = false) ∨
      ∃ j b, i ≤ j ∧ j < m.asize ∧ b < 64 ∧ ffsLoop m 0 i = (b + 1, j + 1) ∧
        m.avail (64 * j + b) = true ∧
        ∀ q, 64 * i ≤ q → q < 64 * j + b → m.avail q = false := by
  by_cases hi : i < m.asize
  · have hwords := hi.trans_le m.asize_le
    rw [ffsLoop, dif_pos ⟨rfl, hi⟩]
    rcases ffsll_spec (m.map ⟨i, hwords⟩) with ⟨hzero, hnone⟩ | ⟨b, hb, hone, htest, hfirst⟩
    · -- Nothing in this word; the loop goes on.
      have hskip : ∀ q, 64 * i ≤ q → q < 64 * (i + 1) → m.avail q = false := by
        intro q hlo hhi
        obtain ⟨b, rfl⟩ := Nat.exists_eq_add_of_le hlo
        rw [avail_word hwords (by omega)]
        exact hnone b (by omega)
      rw [hzero]
      rcases ffsLoop_spec m (i + 1) with ⟨hend, hall⟩ | ⟨j, b, hij, hj, hb, hend, htest, hall⟩
      · refine .inl ⟨hend, fun q hlo hhi => ?_⟩
        rcases Nat.lt_or_ge q (64 * (i + 1)) with hlt | hge
        · exact hskip q hlo hlt
        · exact hall q hge hhi
      · refine .inr ⟨j, b, by omega, hj, hb, hend, htest, fun q hlo hhi => ?_⟩
        rcases Nat.lt_or_ge q (64 * (i + 1)) with hlt | hge
        · exact hskip q hlo hlt
        · exact hall q hge hhi
    · -- The loop ends with this word, but has counted it already.
      refine .inr ⟨i, b, le_refl i, hi, hb, ?_, ?_, fun q hlo hhi => ?_⟩
      · rw [hone, ffsLoop, dif_neg (by omega)]
      · rw [avail_word hwords hb]
        exact htest
      · obtain ⟨b', rfl⟩ := Nat.exists_eq_add_of_le hlo
        rw [avail_word hwords (by omega)]
        exact hfirst b' (by omega)
  · rw [ffsLoop, dif_neg (by omega)]
    exact .inl ⟨rfl, fun q hlo hhi => by omega⟩
  termination_by m.asize - i

/-- A frame that `ffs` finds is available, and every frame before it is not. -/
theorem ffs_spec (m : AvailabilityTemplate words) :
    (m.ffs = -1 ∧ ∀ q < 64 * m.asize, m.avail q = false) ∨
      ∃ f < 64 * m.asize, m.ffs = (f : ℤ) ∧ m.avail f = true ∧ ∀ q < f, m.avail q = false := by
  unfold ffs
  rcases ffsLoop_spec m 0 with ⟨hend, hall⟩ | ⟨j, b, -, hj, hb, hend, htest, hall⟩
  · exact .inl ⟨if_pos hend, fun q hq => hall q (Nat.zero_le _) hq⟩
  · refine .inr ⟨64 * j + b, by omega, ?_, htest, fun q hq => hall q (Nat.zero_le _) hq⟩
    rw [hend]
    simp only [Nat.add_eq_zero_iff, one_ne_zero, and_false, if_false]
    push_cast
    ring

theorem of_ffs_nonneg (m : AvailabilityTemplate words) (h : 0 ≤ m.ffs) :
    ∃ f < 64 * m.asize, m.ffs = (f : ℤ) ∧ m.avail f = true := by
  rcases ffs_spec m with ⟨hffs, -⟩ | ⟨f, hf, hffs, htest, -⟩
  · rw [hffs] at h
    exact absurd h (by decide)
  · exact ⟨f, hf, hffs, htest⟩

/-- Frame 0 is found if it is available. -/
theorem ffs_eq_zero (m : AvailabilityTemplate words) (hpos : 0 < m.asize) (h : m.avail 0 = true) :
    m.ffs = 0 := by
  rcases ffs_spec m with ⟨-, hall⟩ | ⟨f, -, hffs, -, hall⟩
  · rw [hall 0 (by omega)] at h
    cases h
  · rcases Nat.eq_zero_or_pos f with rfl | hf
    · exact hffs
    · rw [hall 0 hf] at h
      cases h

/-- `ffs` finds the first frame of the words in use that is not taken. -/
theorem Represents.ffs_eq {m : AvailabilityTemplate words} {rsize : ℕ} {t t' : Finset ℕ}
    (h : Represents m rsize (t ∪ t')) :
    m.ffs = (firstFree (64 * ((rsize + 63) / 64)) t t').elim (-1) (fun f => (f : ℤ)) := by
  have hfree : ∀ q < 64 * m.asize, m.avail q = true ↔ q ∉ t ∧ q ∉ t' := by
    intro q hq
    rw [h.avail q hq, Finset.mem_union, not_or]
  -- what is not available is passed over
  have hskip : ∀ q < 64 * m.asize, m.avail q = false → (!decide (q ∉ t ∧ q ∉ t')) = true := by
    intro q hq htaken
    rw [decide_eq_false (fun hnot => ?_), Bool.not_false]
    rw [(hfree q hq).mpr hnot] at htaken
    cases htaken
  unfold firstFree
  rw [← h.asize]
  rcases ffs_spec m with ⟨hffs, hall⟩ | ⟨f, hf, hffs, htest, hall⟩
  · have hnone : (List.range (64 * m.asize)).find? (fun f => decide (f ∉ t ∧ f ∉ t')) = none :=
      List.find?_range_eq_none.mpr (fun q hq => hskip q hq (hall q hq))
    rw [hnone, hffs]
    rfl
  · have hsome : (List.range (64 * m.asize)).find? (fun f => decide (f ∉ t ∧ f ∉ t')) = some f :=
      List.find?_range_eq_some.mpr ⟨decide_eq_true ((hfree f hf).mp htest), List.mem_range.mpr hf,
        fun q hq => hskip q (hq.trans hf) (hall q hq)⟩
    rw [hsome, hffs]
    rfl

/-- A first free frame beyond the limit means that none is free below it. -/
theorem firstFree_filter {frames limit : ℕ} (h : limit ≤ frames) (t t' : Finset ℕ) :
    (firstFree frames t t').filter (fun f => decide (f < limit)) = firstFree limit t t' := by
  unfold firstFree
  cases hfind : (List.range frames).find? (fun f => decide (f ∉ t ∧ f ∉ t')) with
  | none =>
    rw [List.find?_range_eq_none] at hfind
    exact (List.find?_range_eq_none.mpr (fun q hq => hfind q (hq.trans_le h))).symm
  | some f =>
    obtain ⟨hfree, -, hfirst⟩ := List.find?_range_eq_some.mp hfind
    by_cases hlt : f < limit
    · rw [Option.filter_some, if_pos (decide_eq_true hlt)]
      exact (List.find?_range_eq_some.mpr ⟨hfree, List.mem_range.mpr hlt, hfirst⟩).symm
    · rw [Option.filter_some, if_neg (by simpa using hlt)]
      exact (List.find?_range_eq_none.mpr (fun q hq => hfirst q (by omega))).symm

/-- For every size of the template and every number of frames within it: after any calls on the
    two maps, `ffs` of their intersection is the first frame of the words in use taken in neither,
    and taken only below `rsize` it is what a scan of the frames finds. -/
theorem ffs_inter_eq_firstFree {rsize : ℕ} (hsize : rsize ≤ 64 * words)
    (memory memory' memory'' : Fin words → Bitset 64) {calls calls' : List Call}
    (hcalls : ∀ pos, Call.set pos ∈ calls → pos < rsize)
    (hcalls' : ∀ pos, Call.set pos ∈ calls' → pos < rsize) :
    ∃ a b c, build memory rsize calls = .ok a ∧ build memory' rsize calls' = .ok b ∧
      inter memory'' a b = .ok c ∧
      c.ffs = (firstFree (64 * ((rsize + 63) / 64)) (taken calls) (taken calls')).elim (-1)
        (fun f => (f : ℤ)) ∧
      (if 0 ≤ c.ffs ∧ c.ffs < rsize then some c.ffs.toNat else none)
        = firstFree rsize (taken calls) (taken calls') := by
  obtain ⟨a, hoka, ha⟩ := build_eq_ok memory hsize hcalls
  obtain ⟨b, hokb, hb⟩ := build_eq_ok memory' hsize hcalls'
  obtain ⟨c, hokc, hc⟩ := ha.inter hb memory''
  refine ⟨a, b, c, hoka, hokb, hokc, hc.ffs_eq, ?_⟩
  rw [hc.ffs_eq, ← firstFree_filter (by omega : rsize ≤ 64 * ((rsize + 63) / 64))]
  cases firstFree (64 * ((rsize + 63) / 64)) (taken calls) (taken calls') with
  | none => rfl
  | some f => simp [Option.filter_some]

/-- Two frames in one word: the first is taken in one map, the other one in both. -/
theorem ffs_inter_full :
    ∃ a b c : AvailabilityTemplate 1,
      build (fun _ => 5#64) 2 [.set 1, .reset, .set 0, .set 1] = .ok a ∧
      build (fun _ => 0#64) 2 [.set 1] = .ok b ∧ inter (fun _ => 0#64) a b = .ok c ∧
      c.ffs = 2 ∧ (if 0 ≤ c.ffs ∧ c.ffs < (2 : ℕ) then some c.ffs.toNat else none) = none :=
  @ffs_inter_eq_firstFree 1 2 (by decide) (fun _ => 5#64) (fun _ => 0#64) (fun _ => 0#64)
    [.set 1, .reset, .set 0, .set 1] [.set 1] (by simp) (by simp)

end AvailabilityTemplate

end SschedSimulator
