import Mathlib.Order.Basic
import Mathlib.Order.Lattice
import Mathlib.Data.List.TakeWhile

/-!
# Searching a sorted list

`partitionPoint` and `binarySearch` give the positions that a binary search
would find in a list sorted without repetition. Their use is to cut the list at
a key: the lemmas say what the two parts are.
-/

namespace NovaBase.Lib

/-- The first position at which the predicate fails. -/
def partitionPoint {α : Type} (p : α → Bool) (xs : List α) : Nat := (xs.takeWhile p).length

/-- The position of the key, or the position at which it would have to be inserted. -/
def binarySearch {κ : Type} [LinearOrder κ] (keys : List κ) (key : κ) : Except Nat Nat :=
  let index := partitionPoint (fun k => decide (k < key)) keys
  if keys[index]? = some key then .ok index else .error index

/-- The list cut at a position where a predicate stops holding. -/
theorem partitionPoint_split {α : Type} (p : α → Bool) (xs : List α) :
    ∃ before after, xs = before ++ after ∧ before.length = partitionPoint p xs ∧
      (∀ x ∈ before, p x = true) ∧ ∀ x, after.head? = some x → p x = false := by
  refine ⟨xs.takeWhile p, xs.dropWhile p, (List.takeWhile_append_dropWhile).symm, rfl,
    fun x hx => List.mem_takeWhile_imp hx, fun x hx => ?_⟩
  have hnot := List.head?_dropWhile_not p xs
  rw [hx] at hnot
  simpa using hnot

/-- The predicate fails on everything behind the cut when it is decreasing along the list. -/
theorem partitionPoint_split_of_pairwise {α : Type} {p : α → Bool} {xs : List α}
    (hp : xs.Pairwise fun x y => p y = true → p x = true) :
    ∃ before after, xs = before ++ after ∧ before.length = partitionPoint p xs ∧
      (∀ x ∈ before, p x = true) ∧ ∀ x ∈ after, p x = false := by
  obtain ⟨before, after, hxs, hlength, hbefore, hhead⟩ := partitionPoint_split p xs
  refine ⟨before, after, hxs, hlength, hbefore, fun y hy => ?_⟩
  rw [hxs] at hp
  cases after with
  | nil => simp at hy
  | cons x rest =>
      have hx : p x = false := hhead x rfl
      rcases List.mem_cons.mp hy with rfl | hmem
      · exact hx
      · have himp := (List.pairwise_cons.mp (List.pairwise_append.mp hp).2.1).1 y hmem
        cases hpy : p y with
        | false => rfl
        | true => simp [himp hpy] at hx

/-- Searching a sorted list cuts it at the key, with the key itself between the parts or not. -/
theorem binarySearch_cases {κ : Type} [LinearOrder κ] {keys : List κ}
    (hsorted : keys.Pairwise (· < ·)) (key : κ) :
    ∃ before after, (∀ k ∈ before, k < key) ∧ (∀ k ∈ after, key < k) ∧
      (keys = before ++ key :: after ∧ binarySearch keys key = .ok before.length ∨
        keys = before ++ after ∧ binarySearch keys key = .error before.length) := by
  have hdecreasing : keys.Pairwise fun x y =>
      decide (y < key) = true → decide (x < key) = true := by
    refine hsorted.imp fun {x y} hxy hy => ?_
    simp only [decide_eq_true_eq] at hy ⊢
    exact hxy.trans hy
  obtain ⟨before, after, hkeys, hlength, hbefore, hafter⟩ :=
    partitionPoint_split_of_pairwise hdecreasing
  simp only [decide_eq_true_eq, decide_eq_false_iff_not, not_lt] at hbefore hafter
  have hsearch : binarySearch keys key =
      if after.head? = some key then .ok before.length else .error before.length := by
    have hfound : keys[before.length]? = after.head? := by
      rw [hkeys, List.getElem?_append_right le_rfl, Nat.sub_self, List.head?_eq_getElem?]
    rw [binarySearch, ← hlength, hfound]
  rw [hkeys, List.pairwise_append] at hsorted
  cases after with
  | nil => exact ⟨before, [], hbefore, by simp, .inr ⟨hkeys, by simpa using hsearch⟩⟩
  | cons x rest =>
      have hrest : ∀ k ∈ rest, x < k := (List.pairwise_cons.mp hsorted.2.1).1
      have hx : key ≤ x := hafter x List.mem_cons_self
      by_cases hfound : x = key
      · subst hfound
        exact ⟨before, rest, hbefore, hrest, .inl ⟨hkeys, by simpa using hsearch⟩⟩
      · have hlt : key < x := lt_of_le_of_ne hx (Ne.symm hfound)
        have hall : ∀ k ∈ x :: rest, key < k :=
          List.forall_mem_cons.mpr ⟨hlt, fun k hk => hlt.trans (hrest k hk)⟩
        exact ⟨before, x :: rest, hbefore, hall, .inr ⟨hkeys, by simpa [hfound] using hsearch⟩⟩

theorem insertIdx_append {α : Type} (before after : List α) (x : α) :
    (before ++ after).insertIdx before.length x = before ++ x :: after := by
  induction before with
  | nil => simp
  | cons y before ih => simp [ih]

theorem set_append {α : Type} (before after : List α) (x y : α) :
    (before ++ x :: after).set before.length y = before ++ y :: after := by
  simp

theorem eraseIdx_append {α : Type} (before after : List α) (x : α) :
    (before ++ x :: after).eraseIdx before.length = before ++ after := by
  induction before with
  | nil => rfl
  | cons y before ih => simp [ih]

end NovaBase.Lib
