import Mathlib.Data.Set.Insert
import Mathlib.Logic.Function.Basic

/-!
# Secondary indexes

A store maps ids to values, and a partial function gives values their keys. The
postings are the pairs of a key and an id that the store has under it. Each
change of the store changes them by one id at most.
-/

namespace NovaBase.Lib

variable {ι α κ : Type}

/-- The keys of the stored values, with their ids. -/
def postings (key : α → Option κ) (store : ι → Option α) : Set (κ × ι) :=
  {p | ∃ a, store p.2 = some a ∧ key a = some p.1}

/-- The pairs with an id added under its key, if it has one. -/
def post (key : Option κ) (id : ι) (pairs : Set (κ × ι)) : Set (κ × ι) :=
  {p | (key = some p.1 ∧ p.2 = id) ∨ p ∈ pairs}

/-- The pairs with an id taken from under its key. -/
def unpost (key : Option κ) (id : ι) (pairs : Set (κ × ι)) : Set (κ × ι) :=
  {p | p ∈ pairs ∧ ¬(key = some p.1 ∧ p.2 = id)}

variable {key : α → Option κ} {store : ι → Option α} {id : ι} {a b : α}

theorem mem_postings {k : κ} :
    (k, id) ∈ postings key store ↔ ∃ a, store id = some a ∧ key a = some k := Iff.rfl

theorem post_none (pairs : Set (κ × ι)) : post none id pairs = pairs := by
  ext p
  simp [post]

theorem post_some (k : κ) (pairs : Set (κ × ι)) :
    post (some k) id pairs = insert (k, id) pairs := by
  ext p
  simp [post, Prod.ext_iff, eq_comm]

theorem unpost_none (pairs : Set (κ × ι)) : unpost none id pairs = pairs := by
  ext p
  simp [unpost]

theorem unpost_some (k : κ) (pairs : Set (κ × ι)) :
    unpost (some k) id pairs = pairs \ {(k, id)} := by
  ext p
  simp [unpost, Prod.ext_iff, eq_comm]

section Changes

variable [DecidableEq ι]

/-- A value with a new id. -/
theorem postings_add (h : store id = none) :
    postings key (Function.update store id (some a)) = post (key a) id (postings key store) := by
  ext ⟨k, i⟩
  by_cases hid : i = id
  · subst hid
    simp [postings, post, h]
  · simp [postings, post, hid]

/-- A value that is no longer stored. -/
theorem postings_remove (h : store id = some a) :
    postings key (Function.update store id none) = unpost (key a) id (postings key store) := by
  ext ⟨k, i⟩
  by_cases hid : i = id
  · subst hid
    simp [postings, unpost, h]
  · simp [postings, unpost, hid]

/-- Another value with the same id. -/
theorem postings_replace (h : store id = some a) :
    postings key (Function.update store id (some b)) =
      post (key b) id (unpost (key a) id (postings key store)) := by
  rw [← postings_remove h, ← postings_add (Function.update_self ..), Function.update_idem]

/-- A value with the same key changes nothing. -/
theorem postings_replace_same (h : store id = some a) (hkey : key a = key b) :
    postings key (Function.update store id (some b)) = postings key store := by
  ext ⟨k, i⟩
  by_cases hid : i = id
  · subst hid
    simp [postings, h, hkey]
  · simp [postings, hid]

end Changes

end NovaBase.Lib
