import Mathlib.Algebra.Group.Basic
import Mathlib.Data.Finset.Card
import Mathlib.Data.Finset.Range
import Mathlib.Logic.Function.Basic

namespace SschedSimulator.Foundation

/-!
# Tables of partial matchings

A table assigns to each frame a partial map from left ports to right ports.  A row is a
partial matching when no right port occurs twice in it, and `pending` counts the frames that
hold a given pair.  Occupancy of the ports may be tracked aside, one flag for each port and
frame:

* `Covers` — every pair in the table is flagged at both of its ports, and nothing is flagged
  outside the live frames.  It is what a booking needs to be safe;
* `Tracks` — the flags say exactly which ports are in use in the live frames.

Both are kept by booking a pair at a frame where both flags are clear, and what a series of
bookings does to the table is stated by `Extends`.
-/

variable {F I O V : Type*} [DecidableEq F] [DecidableEq I] [DecidableEq O]

/-- A row in which no right port occurs twice. -/
def IsMatching (row : I → Option O) : Prop :=
  ∀ ⦃i i' : I⦄ ⦃o : O⦄, row i = some o → row i' = some o → i = i'

omit [DecidableEq I] [DecidableEq O] in
theorem isMatching_none : IsMatching (fun _ : I => (none : Option O)) :=
  fun _ _ _ h => nomatch h

instance [Fintype I] [Fintype O] (row : I → Option O) : Decidable (IsMatching row) :=
  inferInstanceAs (Decidable (∀ i i' : I, ∀ o : O, row i = some o → row i' = some o → i = i'))

/-! ### Updating one cell -/

/-- The table with the cell `(f, i)` replaced. -/
def update₂ (t : F → I → V) (f : F) (i : I) (v : V) : F → I → V :=
  Function.update t f (Function.update (t f) i v)

theorem update₂_apply (t : F → I → V) (f f' : F) (i i' : I) (v : V) :
    update₂ t f i v f' i' = if f' = f ∧ i' = i then v else t f' i' := by
  unfold update₂
  by_cases hf : f' = f
  · subst hf
    by_cases hi : i' = i
    · subst hi; simp
    · simp [hi]
  · simp [hf]

@[simp] theorem update₂_self (t : F → I → V) (f : F) (i : I) (v : V) :
    update₂ t f i v f i = v := by simp [update₂_apply]

theorem update₂_row_of_ne (t : F → I → V) {f f' : F} (h : f' ≠ f) (i : I) (v : V) :
    update₂ t f i v f' = t f' := by simp [update₂, h]

/-- Adding to a cell, written as a sum. -/
theorem update₂_add [AddZeroClass V] (t : F → I → V) (f f' : F) (i i' : I) (v : V) :
    update₂ t f i (t f i + v) f' i' = t f' i' + if (f, i) = (f', i') then v else 0 := by
  rw [update₂_apply]
  by_cases hp : (f, i) = (f', i')
  · obtain ⟨rfl, rfl⟩ := Prod.mk.inj hp
    simp
  · rw [if_neg hp, if_neg (fun hc => hp (Prod.ext hc.1.symm hc.2.symm)), add_zero]

omit [DecidableEq O] in
/-- Assigning `o` to `i` keeps a row a matching when no input holds `o`. -/
theorem IsMatching.update {row : I → Option O} (h : IsMatching row) {i : I} {o : O}
    (ho : ∀ i', row i' ≠ some o) : IsMatching (Function.update row i (some o)) := by
  intro a b p ha hb
  -- Only `i` has a new partner, and `ho` keeps every other input off that partner.
  by_cases hai : a = i <;> by_cases hbi : b = i
  · rw [hai, hbi]
  · subst hai
    rw [Function.update_self, Option.some.injEq] at ha
    rw [Function.update_of_ne hbi, ← ha] at hb
    exact absurd hb (ho b)
  · subst hbi
    rw [Function.update_self, Option.some.injEq] at hb
    rw [Function.update_of_ne hai, ← hb] at ha
    exact absurd ha (ho a)
  · rw [Function.update_of_ne hai] at ha
    rw [Function.update_of_ne hbi] at hb
    exact h ha hb

/-- A row and a column that say the same about who is paired with whom. -/
def MutuallyInverse (row : I → Option O) (column : O → Option I) : Prop :=
  ∀ i o, row i = some o ↔ column o = some i

omit [DecidableEq I] [DecidableEq O] in
theorem mutuallyInverse_none :
    MutuallyInverse (fun _ : I => (none : Option O)) (fun _ => none) :=
  fun _ _ => iff_of_false (fun h => nomatch h) (fun h => nomatch h)

omit [DecidableEq I] [DecidableEq O] in
theorem MutuallyInverse.symm {row : I → Option O} {column : O → Option I}
    (h : MutuallyInverse row column) : MutuallyInverse column row :=
  fun o i => (h i o).symm

omit [DecidableEq I] [DecidableEq O] in
/-- A row with an inverse is a matching. -/
theorem MutuallyInverse.isMatching {row : I → Option O} {column : O → Option I}
    (h : MutuallyInverse row column) : IsMatching row :=
  fun i i' o hi hi' => Option.some.inj (((h i o).mp hi).symm.trans ((h i' o).mp hi'))

/-- Pairing two free ports. -/
theorem MutuallyInverse.update {row : I → Option O} {column : O → Option I}
    (h : MutuallyInverse row column) {i : I} {o : O} (hi : row i = none) (ho : column o = none) :
    MutuallyInverse (Function.update row i (some o)) (Function.update column o (some i)) := by
  intro a p
  by_cases ha : a = i <;> by_cases hp : p = o
  · rw [ha, hp, Function.update_self, Function.update_self]
    exact iff_of_true rfl rfl
  · subst ha
    rw [Function.update_self, Function.update_of_ne hp, Option.some.injEq]
    refine iff_of_false (Ne.symm hp) (fun hc => ?_)
    rw [(h a p).mpr hc] at hi
    exact nomatch hi
  · subst hp
    rw [Function.update_self, Function.update_of_ne ha, Option.some.injEq]
    refine iff_of_false (fun hc => ?_) (Ne.symm ha)
    rw [(h a p).mp hc] at ho
    exact nomatch ho
  · rw [Function.update_of_ne ha, Function.update_of_ne hp]
    exact h a p

/-! ### Counting the pending pairs -/

/-- The occurrences of a pair, as an integer, when one more pair comes first. -/
theorem natCast_count_cons {P : Type*} [BEq P] [LawfulBEq P] [DecidableEq P] (p q : P)
    (ps : List P) : ((p :: ps).count q : ℤ) = ps.count q + if p = q then 1 else 0 := by
  rw [List.count_cons]
  simp only [beq_iff_eq]
  split <;> push_cast <;> rfl

/-- The number of frames of `frames` in which `i` is assigned `o`. -/
def pending (frames : Finset F) (t : F → I → Option O) (i : I) (o : O) : ℕ :=
  (frames.filter (fun f => t f i = some o)).card

omit [DecidableEq I] in
/-- Replacing a row moves the count of a pair by what the two rows say about it. -/
theorem pending_update {frames : Finset F} {f : F} (hf : f ∈ frames) (t : F → I → Option O)
    (row : I → Option O) (i : I) (o : O) :
    pending frames (Function.update t f row) i o + (if t f i = some o then 1 else 0)
      = pending frames t i o + (if row i = some o then 1 else 0) := by
  -- Split the frame `f` off the count; the other frames count the same in both tables.
  have hsplit : ∀ t' : F → I → Option O, pending frames t' i o
      = ((frames.erase f).filter (fun g => t' g i = some o)).card
        + (if t' f i = some o then 1 else 0) := by
    intro t'
    unfold pending
    rw [← Finset.insert_erase hf, Finset.filter_insert, Finset.erase_insert_eq_erase]
    split
    · rw [Finset.card_insert_of_notMem (by simp)]
      simp
    · simp
  have hrest : (frames.erase f).filter (fun g => Function.update t f row g i = some o)
      = (frames.erase f).filter (fun g => t g i = some o) := by
    refine Finset.filter_congr (fun g hg => ?_)
    rw [Function.update_of_ne (Finset.ne_of_mem_erase hg)]
  rw [hsplit t, hsplit (Function.update t f row), hrest, Function.update_self]
  omega

omit [DecidableEq I] in
/-- Clearing a row takes its pairs out of the count. -/
theorem pending_clear {frames : Finset F} {f : F} (hf : f ∈ frames) (t : F → I → Option O)
    (i : I) (o : O) :
    (pending frames (Function.update t f (fun _ => none)) i o : ℤ)
      + (if t f i = some o then 1 else 0) = pending frames t i o := by
  have h := pending_update hf t (fun _ => none) i o
  rw [if_neg (Option.some_ne_none o).symm, Nat.add_zero] at h
  rw [← h]
  split <;> simp

/-- Booking a free cell adds one frame to the count of the booked pair. -/
theorem pending_update₂ {frames : Finset F} {f : F} (hf : f ∈ frames) (t : F → I → Option O)
    (i i' : I) (o o' : O) (h : t f i = none) :
    pending frames (update₂ t f i (some o)) i' o'
      = pending frames t i' o' + (if (i, o) = (i', o') then 1 else 0) := by
  have hp := pending_update hf t (Function.update (t f) i (some o)) i' o'
  by_cases hi : i' = i
  · subst hi
    rw [Function.update_self, h] at hp
    simpa [update₂] using hp
  · rw [Function.update_of_ne hi] at hp
    have hne : (i, o) ≠ (i', o') := fun he => hi (congrArg Prod.fst he).symm
    rw [if_neg hne]
    unfold update₂
    omega

omit [DecidableEq F] [DecidableEq I] in
theorem pending_eq_zero {frames : Finset F} {t : F → I → Option O} {i : I} {o : O}
    (h : ∀ f ∈ frames, t f i = none) : pending frames t i o = 0 := by
  refine Finset.card_eq_zero.mpr (Finset.filter_eq_empty_iff.mpr (fun f hf he => ?_))
  rw [h f hf] at he
  exact nomatch he

/-! ### Series of bookings -/

/-- `t'` is `t` with the pairs `gs` booked, one free cell of `window` for each. -/
structure Extends (frames : Finset F) (window : F → Prop) (t t' : F → I → Option O)
    (gs : List (I × O)) : Prop where
  kept : ∀ ⦃f i o⦄, t f i = some o → t' f i = some o
  added : ∀ ⦃f i o⦄, t' f i = some o → t f i = none → window f ∧ (i, o) ∈ gs
  pending_eq : ∀ i o, pending frames t' i o = pending frames t i o + gs.count (i, o)

omit [DecidableEq F] in
theorem Extends.refl (frames : Finset F) (window : F → Prop) (t : F → I → Option O) :
    Extends frames window t t [] where
  kept := fun _ _ _ h => h
  added := fun f i o h h' => by rw [h] at h'; exact nomatch h'
  pending_eq := fun _ _ => by simp

omit [DecidableEq F] in
theorem Extends.trans {frames : Finset F} {window : F → Prop} {t t' t'' : F → I → Option O}
    {gs gs' : List (I × O)} (h : Extends frames window t t' gs)
    (h' : Extends frames window t' t'' gs') : Extends frames window t t'' (gs ++ gs') where
  kept := fun _ _ _ hc => h'.kept (h.kept hc)
  added := by
    intro f i o hc hnone
    cases hmid : t' f i with
    | none =>
      obtain ⟨hf, hmem⟩ := h'.added hc hmid
      exact ⟨hf, List.mem_append_right _ hmem⟩
    | some p =>
      -- The first series filled the cell and the second one kept it, so it holds `o` already.
      have hp : p = o := by
        have := h'.kept hmid
        rw [hc, Option.some.injEq] at this
        exact this.symm
      subst hp
      obtain ⟨hf, hmem⟩ := h.added hmid hnone
      exact ⟨hf, List.mem_append_left _ hmem⟩
  pending_eq := fun i o => by
    rw [h'.pending_eq, h.pending_eq, List.count_append, Nat.add_assoc]

/-- Booking one free cell. -/
theorem Extends.single {frames : Finset F} {window : F → Prop} {t : F → I → Option O} {f : F}
    {i : I} {o : O} (hf : f ∈ frames) (hw : window f) (hfree : t f i = none) :
    Extends frames window t (update₂ t f i (some o)) [(i, o)] where
  kept := by
    intro f' i' o' hc
    -- A cell that was held is not the free one.
    rw [update₂_apply, if_neg, hc]
    intro h
    obtain ⟨rfl, rfl⟩ := h
    rw [hfree] at hc
    exact nomatch hc
  added := by
    intro f' i' o' hc hnone
    rw [update₂_apply] at hc
    split at hc
    · rename_i h
      rw [h.1, h.2, Option.some.inj hc]
      exact ⟨hw, List.mem_singleton_self _⟩
    · rw [hnone] at hc
      exact nomatch hc
  pending_eq := by
    intro i' o'
    rw [pending_update₂ hf t i i' o o' hfree, List.count_singleton]
    simp only [beq_iff_eq]

omit [DecidableEq F] in
/-- The window may be enlarged. -/
theorem Extends.mono {frames : Finset F} {window window' : F → Prop}
    {t t' : F → I → Option O} {gs : List (I × O)} (h : Extends frames window t t' gs)
    (hw : ∀ f, window f → window' f) : Extends frames window' t t' gs where
  kept := h.kept
  added := fun _ _ _ hc hnone => ⟨hw _ (h.added hc hnone).1, (h.added hc hnone).2⟩
  pending_eq := h.pending_eq

omit [DecidableEq F] in
/-- Rows outside the window are unchanged. -/
theorem Extends.row_eq {frames : Finset F} {window : F → Prop} {t t' : F → I → Option O}
    {gs : List (I × O)} (h : Extends frames window t t' gs) {f : F} (hf : ¬ window f) :
    t' f = t f := by
  funext i
  cases hc : t f i with
  | some o => exact h.kept hc
  | none =>
    cases hc' : t' f i with
    | none => rfl
    | some o => exact absurd (h.added hc' hc).1 hf

/-! ### Counting the free frames -/

/-- The number of frames of `frames` whose flag is clear. -/
def freeFrames (frames : Finset F) (flag : F → Bool) : ℕ :=
  (frames.filter (fun f => flag f = false)).card

/-- Raising the flag of a free frame takes one frame away. -/
theorem freeFrames_set {frames : Finset F} {f : F} (hf : f ∈ frames) {flag flag' : F → Bool}
    (hfree : flag f = false) (h : ∀ g, flag' g = (decide (g = f) || flag g)) :
    freeFrames frames flag' + 1 = freeFrames frames flag := by
  have hset : frames.filter (fun g => flag' g = false)
      = (frames.filter (fun g => flag g = false)).erase f := by
    ext g
    simp only [Finset.mem_filter, Finset.mem_erase, h, Bool.or_eq_false_iff,
      decide_eq_false_iff_not]
    tauto
  unfold freeFrames
  rw [hset, Finset.card_erase_add_one (Finset.mem_filter.mpr ⟨hf, hfree⟩)]

/-- Clearing a raised flag gives one frame back. -/
theorem freeFrames_reset {frames : Finset F} {f : F} (hf : f ∈ frames) {flag flag' : F → Bool}
    (hused : flag f = true) (h : ∀ g, flag' g = (flag g && !decide (g = f))) :
    freeFrames frames flag' = freeFrames frames flag + 1 := by
  refine (freeFrames_set hf (by simp [h]) (fun g => ?_)).symm
  rw [h]
  by_cases hg : g = f
  · simp [hg, hused]
  · simp [hg]

omit [DecidableEq F] in
/-- A free frame is counted. -/
theorem freeFrames_pos {frames : Finset F} {f : F} (hf : f ∈ frames) {flag : F → Bool}
    (h : flag f = false) : 0 < freeFrames frames flag :=
  Finset.card_pos.mpr ⟨f, Finset.mem_filter.mpr ⟨hf, h⟩⟩

omit [DecidableEq F] in
theorem freeFrames_congr {frames : Finset F} {flag flag' : F → Bool}
    (h : ∀ f ∈ frames, flag f = flag' f) : freeFrames frames flag = freeFrames frames flag' := by
  unfold freeFrames
  rw [Finset.filter_congr (fun f hf => by rw [h f hf])]

/-- One more frame is counted if its flag is clear. -/
theorem freeFrames_range_succ (t : ℕ) (flag : ℕ → Bool) :
    freeFrames (Finset.range (t + 1)) flag
      = freeFrames (Finset.range t) flag + if flag t = false then 1 else 0 := by
  unfold freeFrames
  rw [Finset.range_add_one, Finset.filter_insert]
  split
  · rw [Finset.card_insert_of_notMem (by simp)]
  · rfl

omit [DecidableEq F] in
/-- When no frame is counted, every frame is flagged. -/
theorem flag_of_freeFrames_eq_zero {frames : Finset F} {f : F} (hf : f ∈ frames)
    {flag : F → Bool} (h : freeFrames frames flag = 0) : flag f = true := by
  by_contra hne
  exact absurd h (freeFrames_pos hf (Bool.eq_false_iff.mpr hne)).ne'

section Counters

variable {P : Type*} [DecidableEq P] {frames : Finset F} {f : F} {count : P → ℤ}
  {flag flag' : P → F → Bool} {q : P}

/-- A counter of free frames for each port stays exact when a port takes a free frame and its
    counter is decremented. -/
theorem counters_book (h : ∀ p, count p = freeFrames frames (flag p)) (hf : f ∈ frames)
    (hfree : flag q f = false) (hset : ∀ p g, flag' p g = (decide (p = q ∧ g = f) || flag p g))
    (p : P) : Function.update count q (count q - 1) p = freeFrames frames (flag' p) := by
  by_cases hp : p = q
  · subst hp
    have hflag : ∀ g, flag' p g = (decide (g = f) || flag p g) := fun g => by simp [hset]
    have hone := freeFrames_set hf hfree hflag
    rw [Function.update_self, h]
    omega
  · have hsame : flag' p = flag p := by
      funext g
      simp [hset, hp]
    rw [Function.update_of_ne hp, h, hsame]

/-- The counters stay exact when a port gives back a frame and its counter is incremented. -/
theorem counters_release (h : ∀ p, count p = freeFrames frames (flag p)) (hf : f ∈ frames)
    (hused : flag q f = true)
    (hreset : ∀ p g, flag' p g = (flag p g && !decide (p = q ∧ g = f))) (p : P) :
    Function.update count q (count q + 1) p = freeFrames frames (flag' p) := by
  by_cases hp : p = q
  · subst hp
    have hflag : ∀ g, flag' p g = (flag p g && !decide (g = f)) := fun g => by simp [hreset]
    have hone := freeFrames_reset hf hused hflag
    rw [Function.update_self, h]
    omega
  · have hsame : flag' p = flag p := by
      funext g
      simp [hreset, hp]
    rw [Function.update_of_ne hp, h, hsame]

end Counters

/-! ### Occupancy flags -/

/-- Every pair of the table in a live frame is flagged at both ports, and no flag is set
    outside the live frames. -/
structure Covers (live : F → Prop) (t : F → I → Option O) (inFlag : I → F → Bool)
    (outFlag : O → F → Bool) : Prop where
  input : ∀ ⦃f i o⦄, live f → t f i = some o → inFlag i f = true
  output : ∀ ⦃f i o⦄, live f → t f i = some o → outFlag o f = true
  inputLive : ∀ ⦃f i⦄, inFlag i f = true → live f
  outputLive : ∀ ⦃f o⦄, outFlag o f = true → live f

/-- The flags of the live frames say exactly which ports the table uses there. -/
structure Tracks (live : F → Prop) (t : F → I → Option O) (inFlag : I → F → Bool)
    (outFlag : O → F → Bool) : Prop extends Covers live t inFlag outFlag where
  inputUsed : ∀ ⦃f i⦄, inFlag i f = true → ∃ o, t f i = some o
  outputUsed : ∀ ⦃f o⦄, outFlag o f = true → ∃ i, t f i = some o

section Booking

variable {live : F → Prop} {t : F → I → Option O} {inFlag : I → F → Bool}
  {outFlag : O → F → Bool}

omit [DecidableEq F] [DecidableEq I] [DecidableEq O] in
/-- A live cell whose input is not flagged is empty. -/
theorem Covers.cell_eq_none (h : Covers live t inFlag outFlag) {f : F} {i : I} (hf : live f)
    (hi : inFlag i f = false) : t f i = none := by
  cases hc : t f i with
  | none => rfl
  | some o => rw [h.input hf hc] at hi; exact nomatch hi

omit [DecidableEq F] [DecidableEq I] [DecidableEq O] in
/-- A right port that is not flagged at a live frame is used by nobody there. -/
theorem Covers.row_ne_some (h : Covers live t inFlag outFlag) {f : F} {o : O} (hf : live f)
    (ho : outFlag o f = false) (i : I) : t f i ≠ some o := by
  intro hc
  rw [h.output hf hc] at ho
  exact nomatch ho

omit [DecidableEq F] [DecidableEq I] [DecidableEq O] in
/-- No left port is flagged at a frame that is not live. -/
theorem Covers.inFlag_eq_false (h : Covers live t inFlag outFlag) {f : F} (hf : ¬ live f)
    (i : I) : inFlag i f = false :=
  Bool.eq_false_iff.mpr (fun hb => hf (h.inputLive hb))

omit [DecidableEq F] [DecidableEq I] [DecidableEq O] in
/-- No right port is flagged at a frame that is not live. -/
theorem Covers.outFlag_eq_false (h : Covers live t inFlag outFlag) {f : F} (hf : ¬ live f)
    (o : O) : outFlag o f = false :=
  Bool.eq_false_iff.mpr (fun hb => hf (h.outputLive hb))

omit [DecidableEq F] [DecidableEq I] [DecidableEq O] in
/-- The flag of a left port at a live frame says whether its cell is filled. -/
theorem Tracks.inFlag_iff (h : Tracks live t inFlag outFlag) {f : F} (hf : live f) (i : I) :
    inFlag i f = true ↔ t f i ≠ none := by
  constructor
  · intro hb
    obtain ⟨o, ho⟩ := h.inputUsed hb
    rw [ho]
    exact Option.some_ne_none o
  · intro hne
    obtain ⟨o, ho⟩ := Option.ne_none_iff_exists'.mp hne
    exact h.input hf ho

omit [DecidableEq F] [DecidableEq I] [DecidableEq O] in
/-- The flag of a right port at a live frame says whether the row uses it. -/
theorem Tracks.outFlag_iff (h : Tracks live t inFlag outFlag) {f : F} (hf : live f) (o : O) :
    outFlag o f = true ↔ ∃ i, t f i = some o := by
  constructor
  · intro hb
    exact h.outputUsed hb
  · intro hc
    obtain ⟨i, hi⟩ := hc
    exact h.output hf hi

/-- Writing a live cell and flagging its two ports keeps the flags a cover. -/
theorem Covers.book (h : Covers live t inFlag outFlag) {f : F} {i : I} {o : O} (hf : live f)
    {inFlag' : I → F → Bool} {outFlag' : O → F → Bool}
    (hin : ∀ i' f', inFlag' i' f' = (decide (i' = i ∧ f' = f) || inFlag i' f'))
    (hout : ∀ o' f', outFlag' o' f' = (decide (o' = o ∧ f' = f) || outFlag o' f')) :
    Covers live (update₂ t f i (some o)) inFlag' outFlag' where
  input := by
    intro f' i' o' hf' hc
    rw [hin]
    -- a cell that was there, or the new one
    by_cases hfi : f' = f ∧ i' = i
    · simp [hfi]
    · rw [update₂_apply, if_neg hfi] at hc
      simp [h.input hf' hc]
  output := by
    intro f' i' o' hf' hc
    rw [hout]
    by_cases hfi : f' = f ∧ i' = i
    · rw [update₂_apply, if_pos hfi, Option.some.injEq] at hc
      simp [hfi.1, hc]
    · rw [update₂_apply, if_neg hfi] at hc
      simp [h.output hf' hc]
  inputLive := by
    intro f' i' hb
    rw [hin, Bool.or_eq_true, decide_eq_true_eq] at hb
    rcases hb with ⟨-, rfl⟩ | hb
    · exact hf
    · exact h.inputLive hb
  outputLive := by
    intro f' o' hb
    rw [hout, Bool.or_eq_true, decide_eq_true_eq] at hb
    rcases hb with ⟨-, rfl⟩ | hb
    · exact hf
    · exact h.outputLive hb

/-- Writing an empty live cell and flagging its two ports keeps the flags exact. -/
theorem Tracks.book (h : Tracks live t inFlag outFlag) {f : F} {i : I} {o : O} (hf : live f)
    (hfree : t f i = none) {inFlag' : I → F → Bool} {outFlag' : O → F → Bool}
    (hin : ∀ i' f', inFlag' i' f' = (decide (i' = i ∧ f' = f) || inFlag i' f'))
    (hout : ∀ o' f', outFlag' o' f' = (decide (o' = o ∧ f' = f) || outFlag o' f')) :
    Tracks live (update₂ t f i (some o)) inFlag' outFlag' where
  toCovers := h.toCovers.book hf hin hout
  inputUsed := by
    intro f' i' hb
    rw [hin, Bool.or_eq_true, decide_eq_true_eq] at hb
    rcases hb with ⟨rfl, rfl⟩ | hb
    · exact ⟨o, update₂_self ..⟩
    · obtain ⟨o', ho'⟩ := h.inputUsed hb
      refine ⟨o', ?_⟩
      -- The cell of a port in use is not the one that was free.
      rw [update₂_apply, if_neg, ho']
      intro h'
      obtain ⟨rfl, rfl⟩ := h'
      rw [hfree] at ho'
      exact nomatch ho'
  outputUsed := by
    intro f' o' hb
    rw [hout, Bool.or_eq_true, decide_eq_true_eq] at hb
    rcases hb with ⟨rfl, rfl⟩ | hb
    · exact ⟨i, update₂_self ..⟩
    · obtain ⟨i', hi'⟩ := h.outputUsed hb
      refine ⟨i', ?_⟩
      rw [update₂_apply, if_neg, hi']
      intro h'
      obtain ⟨rfl, rfl⟩ := h'
      rw [hfree] at hi'
      exact nomatch hi'

/-- Emptying a cell of a matching row and clearing the flags of its two ports keeps the flags
    exact. -/
theorem Tracks.release (h : Tracks live t inFlag outFlag) {f : F} {i : I} {o : O}
    (hrow : IsMatching (t f)) (hcell : t f i = some o) {inFlag' : I → F → Bool}
    {outFlag' : O → F → Bool}
    (hin : ∀ i' f', inFlag' i' f' = (inFlag i' f' && !decide (i' = i ∧ f' = f)))
    (hout : ∀ o' f', outFlag' o' f' = (outFlag o' f' && !decide (o' = o ∧ f' = f))) :
    Tracks live (update₂ t f i none) inFlag' outFlag' where
  input := by
    intro f' i' o' hf' hc
    rw [update₂_apply] at hc
    split at hc
    · exact nomatch hc
    · rename_i hne
      have hkeep : ¬ (i' = i ∧ f' = f) := fun hc => hne ⟨hc.2, hc.1⟩
      rw [hin, h.input hf' hc]
      simp [hkeep]
  output := by
    intro f' i' o' hf' hc
    rw [update₂_apply] at hc
    split at hc
    · exact nomatch hc
    · rename_i hne
      -- Another input holding `o` at `f` would be `i` itself.
      have hkeep : ¬ (o' = o ∧ f' = f) := by
        rintro ⟨rfl, rfl⟩
        exact hne ⟨rfl, hrow hc hcell⟩
      rw [hout, h.output hf' hc]
      simp [hkeep]
  inputLive := by
    intro f' i' hb
    rw [hin, Bool.and_eq_true] at hb
    exact h.inputLive hb.1
  outputLive := by
    intro f' o' hb
    rw [hout, Bool.and_eq_true] at hb
    exact h.outputLive hb.1
  inputUsed := by
    intro f' i' hb
    simp only [hin, Bool.and_eq_true, Bool.not_eq_true', decide_eq_false_iff_not] at hb
    obtain ⟨p, hp⟩ := h.inputUsed hb.1
    exact ⟨p, by rw [update₂_apply, if_neg (fun hc => hb.2 ⟨hc.2, hc.1⟩), hp]⟩
  outputUsed := by
    intro f' o' hb
    simp only [hout, Bool.and_eq_true, Bool.not_eq_true', decide_eq_false_iff_not] at hb
    obtain ⟨i', hi'⟩ := h.outputUsed hb.1
    refine ⟨i', ?_⟩
    -- The emptied cell held `o`, whose flag is the one that was cleared.
    rw [update₂_apply, if_neg, hi']
    intro h'
    obtain ⟨rfl, rfl⟩ := h'
    rw [hcell, Option.some.injEq] at hi'
    exact hb.2 ⟨hi'.symm, rfl⟩

end Booking

end SschedSimulator.Foundation
