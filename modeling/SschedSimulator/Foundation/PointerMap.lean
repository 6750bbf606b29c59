import Mathlib.Data.List.AList
import SschedSimulator.Foundation.Outcome

namespace SschedSimulator.Foundation

/-!
# Maps of pointers

A map whose values are pointers, where reading a key that has no entry inserts one: a null pointer.
Reading and dereferencing a key is a fault if the pointer is null.

* `access` — read a key;
* `deref` — read a key and dereference the pointer, `derefs` for a sequence of keys;
* `NoNull` — no entry is null: `deref_of_mem`, `derefs_of_subset` are then about the keys only.
-/

universe u v

variable {κ : Type u} {ν : Type u} {ε : Type v} [DecidableEq κ]

/-- A map of pointers; `none` is the null pointer. -/
abbrev PointerMap (κ ν : Type u) := AList (fun _ : κ => Option ν)

namespace PointerMap

/-- The map after `key` has been read. -/
def access (m : PointerMap κ ν) (key : κ) : PointerMap κ ν :=
  if key ∈ m then m else m.insert key none

/-- Read `key` and dereference the pointer; the fault of a null pointer is `null key`. -/
def deref (null : κ → ε) (m : PointerMap κ ν) (key : κ) : Except ε (PointerMap κ ν) :=
  match (m.access key).lookup key with
  | some (some _) => .ok (m.access key)
  | _ => .error (null key)

/-- The same for one key after the other. -/
def derefs (null : κ → ε) (m : PointerMap κ ν) (keys : List κ) : Except ε (PointerMap κ ν) :=
  keys.foldlM (deref null) m

/-- No entry is a null pointer. -/
def NoNull (m : PointerMap κ ν) : Prop := ∀ key, m.lookup key ≠ some none

theorem NoNull.insert {m : PointerMap κ ν} (h : m.NoNull) (key : κ) (p : ν) :
    NoNull (m.insert key (some p)) := by
  intro key'
  by_cases hkey : key' = key
  · subst hkey
    rw [AList.lookup_insert]
    exact nofun
  · rw [AList.lookup_insert_ne hkey]
    exact h key'

theorem access_of_mem {m : PointerMap κ ν} {key : κ} (h : key ∈ m) : m.access key = m := if_pos h

/-- What a key with an entry points to can be used. -/
theorem deref_of_mem {m : PointerMap κ ν} (hm : m.NoNull) (null : κ → ε) {key : κ} (h : key ∈ m) :
    m.deref null key = .ok m := by
  unfold deref
  rw [access_of_mem h]
  -- The entry under `key` is a pointer, and not the null pointer.
  obtain ⟨p, hp⟩ := Option.isSome_iff_exists.mp (AList.lookup_isSome.mpr h)
  cases p with
  | none => exact absurd hp (hm key)
  | some p => rw [hp]

/-- A key without one is read as a null pointer. -/
theorem deref_of_notMem (null : κ → ε) {m : PointerMap κ ν} {key : κ} (h : key ∉ m) :
    m.deref null key = .error (null key) := by
  unfold deref access
  rw [if_neg h, AList.lookup_insert]

theorem derefs_of_subset {m : PointerMap κ ν} (hm : m.NoNull) (null : κ → ε) {keys : List κ}
    (h : ∀ key ∈ keys, key ∈ m) : m.derefs null keys = .ok m := by
  unfold derefs
  induction keys with
  | nil => rfl
  | cons key rest ih =>
    rw [List.foldlM_cons, deref_of_mem hm null (h key List.mem_cons_self), ok_bind]
    exact ih (fun key' hkey' => h key' (List.mem_cons_of_mem key hkey'))

end PointerMap

end SschedSimulator.Foundation
