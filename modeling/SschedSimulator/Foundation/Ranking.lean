import Mathlib.Data.List.Sort
import Mathlib.Order.Lattice

namespace SschedSimulator.Foundation.Ranking

/-!
# Ranked lists

Elements that come one after the other are ranked by a key, the highest first; of equal keys the
earlier comes first.

* `ranked` — the ranking of a list;
* `insertBehind` — where a newcomer stands, and `ranked_append_singleton`, which says that a ranking
  grows in this way;
* `take_insertBehind` — the best `c` elements depend on the best `c` elements before and on the
  newcomer only;
* `foldl_highest_mem`, `le_foldl_highest` — the search for the first of the highest elements.
-/

variable {α K : Type*} [LinearOrder K] {key : α → K}

/-- The elements by non-increasing key, equal keys in the given order. -/
def ranked (key : α → K) (l : List α) : List α := l.insertionSort (fun a b => key b ≤ key a)

/-- Put a newcomer behind all the elements that are at least as high. -/
def insertBehind (key : α → K) (a : α) : List α → List α
  | [] => [a]
  | b :: rest => if key a ≤ key b then b :: insertBehind key a rest else a :: b :: rest

@[simp] theorem length_ranked (l : List α) : (ranked key l).length = l.length :=
  List.length_insertionSort _ l

@[simp] theorem mem_ranked {l : List α} {a : α} : a ∈ ranked key l ↔ a ∈ l :=
  List.mem_insertionSort _

@[simp] theorem length_insertBehind (a : α) (l : List α) :
    (insertBehind key a l).length = l.length + 1 := by
  induction l with
  | nil => rfl
  | cons b rest ih =>
    unfold insertBehind
    split
    · simp [ih]
    · simp

@[simp] theorem mem_insertBehind {a b : α} {l : List α} :
    b ∈ insertBehind key a l ↔ b = a ∨ b ∈ l := by
  induction l with
  | nil => simp [insertBehind]
  | cons c rest ih =>
    unfold insertBehind
    split
    · simp only [List.mem_cons, ih]
      tauto
    · simp

/-- Elements that come in the order of the ranking stay as they are. -/
theorem ranked_of_pairwise {l : List α} (h : l.Pairwise (fun a b => key b ≤ key a)) :
    ranked key l = l := h.insertionSort_eq

/-- A newcomer that is no higher than any other goes to the end. -/
theorem insertBehind_of_forall_le {a : α} {l : List α} (h : ∀ b ∈ l, key a ≤ key b) :
    insertBehind key a l = l ++ [a] := by
  induction l with
  | nil => rfl
  | cons b rest ih =>
    have hb : key a ≤ key b := h b (by simp)
    rw [insertBehind, if_pos hb, ih (fun c hc => h c (by simp [hc])), List.cons_append]

/-- It makes no difference whether the first or the last one takes its place first. -/
theorem orderedInsert_insertBehind (a e : α) (l : List α) :
    List.orderedInsert (fun a b => key b ≤ key a) a (insertBehind key e l)
      = insertBehind key e (List.orderedInsert (fun a b => key b ≤ key a) a l) := by
  induction l with
  | nil =>
    by_cases hea : key e ≤ key a <;> simp [insertBehind, hea]
  | cons b rest ih =>
    by_cases hba : key b ≤ key a <;> by_cases heb : key e ≤ key b
    · have hea : key e ≤ key a := heb.trans hba
      simp [insertBehind, hba, heb, hea]
    · by_cases hea : key e ≤ key a <;> simp [insertBehind, hba, heb, hea]
    · simp [insertBehind, hba, heb, ih]
    · have hea : ¬ key e ≤ key a := fun hle => heb (hle.trans (le_of_not_ge hba))
      simp [insertBehind, hba, heb, hea]

/-- The ranking grows by putting each newcomer behind those at least as high. -/
theorem ranked_append_singleton (l : List α) (e : α) :
    ranked key (l ++ [e]) = insertBehind key e (ranked key l) := by
  induction l with
  | nil => rfl
  | cons a rest ih =>
    unfold ranked at ih ⊢
    rw [List.cons_append, List.insertionSort_cons, ih, orderedInsert_insertBehind,
      List.insertionSort_cons]

/-- What stands behind the first `c` places has no influence on them. -/
theorem take_insertBehind (c : ℕ) (e : α) (l : List α) :
    (insertBehind key e (l.take c)).take c = (insertBehind key e l).take c := by
  induction l generalizing c with
  | nil => simp
  | cons b rest ih =>
    cases c with
    | zero => simp
    | succ c =>
      rw [List.take_succ_cons]
      unfold insertBehind
      split
      · rw [List.take_succ_cons, List.take_succ_cons, ih]
      · rw [List.take_succ_cons, List.take_succ_cons]
        cases c with
        | zero => rfl
        | succ c => simp [List.take_take]

/-! ### The highest element -/

/-- The search finds one of the elements, -/
theorem foldl_highest_mem (key : α → K) (l : List α) (best : α) :
    l.foldl (fun best a => if key best < key a then a else best) best ∈ best :: l := by
  induction l generalizing best with
  | nil => exact List.mem_singleton_self best
  | cons a rest ih =>
    rw [List.foldl_cons]
    rcases List.mem_cons.mp (ih (if key best < key a then a else best)) with heq | hrest
    · rw [heq]
      split
      · exact List.mem_cons_of_mem best List.mem_cons_self
      · exact List.mem_cons_self
    · exact List.mem_cons_of_mem best (List.mem_cons_of_mem a hrest)

/-- and none is higher. -/
theorem le_foldl_highest (key : α → K) (l : List α) (best : α) : ∀ b ∈ best :: l,
    key b ≤ key (l.foldl (fun best a => if key best < key a then a else best) best) := by
  induction l generalizing best with
  | nil =>
    intro b hb
    rw [List.mem_singleton.mp hb]
    exact le_refl _
  | cons a rest ih =>
    -- the best so far is at least as high as each of the first two
    have hstep : key best ≤ key (if key best < key a then a else best) ∧
        key a ≤ key (if key best < key a then a else best) := by
      split
      · rename_i hlt
        exact ⟨hlt.le, le_refl _⟩
      · rename_i hge
        exact ⟨le_refl _, not_lt.mp hge⟩
    have hfirst := ih (if key best < key a then a else best) _ List.mem_cons_self
    intro b hb
    rw [List.foldl_cons]
    rcases List.mem_cons.mp hb with rfl | hb
    · exact hstep.1.trans hfirst
    · rcases List.mem_cons.mp hb with rfl | hb
      · exact hstep.2.trans hfirst
      · exact ih _ b (List.mem_cons_of_mem _ hb)

end SschedSimulator.Foundation.Ranking
