import Mathlib.Data.List.FinRange
import Mathlib.Data.List.Sort

/-!
# Stable sorting through indices

A stable sort puts the indices of what is sorted in order and leaves those that
compare equal as they were. There is only one such arrangement, whatever
algorithm finds it.
-/

namespace NovaBase.Lib

section Order

variable {n : Nat}

/-- Indices in increasing order, where those that compare equal are in their own order. -/
def StablySorted (le : Fin n → Fin n → Bool) (order : List (Fin n)) : Prop :=
  order.Pairwise fun i j => le i j = true ∧ (le j i = true → i < j)

/-- There is at most one stable arrangement. -/
theorem StablySorted.unique {le : Fin n → Fin n → Bool} {order other : List (Fin n)}
    (horder : StablySorted le order) (hother : StablySorted le other) (hperm : order.Perm other) :
    order = other := by
  refine hperm.eq_of_pairwise ?_ horder hother
  intro i j _ _ hij hji
  exact absurd ((hij.2 hji.1).trans (hji.2 hij.1)) (lt_irrefl i)

theorem snd_of_mem_zipIdx_finRange {i : Fin n} {index : Nat}
    (h : (i, index) ∈ (List.finRange n).zipIdx) : index = i := by
  obtain ⟨hindex, hi⟩ := List.getElem?_eq_some_iff.mp (List.mem_zipIdx_iff_getElem?.mp h)
  have hi : (List.finRange n)[index] = i := hi
  rw [← hi, List.getElem_finRange, Fin.val_cast]

theorem stablySorted_mergeSort {le : Fin n → Fin n → Bool}
    (trans : ∀ i j k, le i j = true → le j k = true → le i k = true)
    (total : ∀ i j, (le i j || le j i) = true) :
    StablySorted le ((List.finRange n).mergeSort le) := by
  have hsorted := List.pairwise_mergeSort (List.zipIdxLE_trans trans) (List.zipIdxLE_total total)
    (List.finRange n).zipIdx
  have hnodup : ((List.finRange n).mergeSort le).Nodup :=
    (List.mergeSort_perm _ le).nodup_iff.mpr (List.nodup_finRange n)
  rw [← List.mergeSort_zipIdx, List.Nodup, List.pairwise_map] at hnodup
  rw [StablySorted, ← List.mergeSort_zipIdx, List.pairwise_map]
  refine (hsorted.and hnodup).imp_of_mem ?_
  rintro ⟨i, index⟩ ⟨j, index'⟩ hi hj ⟨hle, hne⟩
  have hindex := snd_of_mem_zipIdx_finRange (List.mem_mergeSort.mp hi)
  have hindex' := snd_of_mem_zipIdx_finRange (List.mem_mergeSort.mp hj)
  subst hindex hindex'
  simp only [List.zipIdxLE] at hle
  split at hle
  · rename_i hij
    refine ⟨hij, fun hji => ?_⟩
    rw [if_pos hji] at hle
    exact lt_of_le_of_ne (of_decide_eq_true hle) hne
  · cases hle

end Order

section First

variable {α β κ : Type} [LinearOrder κ] {f : α → Option β} {key : α → κ} {list : List α}

/-- The first result in the order of the keys is that of the least key that has one. -/
theorem findSome?_mergeSort {a : α} {b : β} (hnodup : (list.map key).Nodup) (ha : a ∈ list)
    (hb : f a = some b) (hleast : ∀ other ∈ list, (f other).isSome = true → key a ≤ key other) :
    (list.mergeSort fun x y => decide (key x ≤ key y)).findSome? f = some b := by
  have hperm := List.mergeSort_perm list fun x y => decide (key x ≤ key y)
  have hsorted : (list.mergeSort fun x y => decide (key x ≤ key y)).Pairwise fun x y =>
      decide (key x ≤ key y) = true :=
    List.pairwise_mergeSort (by simpa using fun x y z => le_trans)
      (by simpa using fun x y => le_total (key x) (key y)) list
  have hkeys := (hperm.map key).nodup_iff.mpr hnodup
  obtain ⟨before, after, hsplit⟩ := List.append_of_mem (hperm.mem_iff.mpr ha)
  rw [hsplit, List.map_append, List.map_cons] at hkeys
  rw [hsplit] at hsorted
  refine List.findSome?_eq_some_iff.mpr ⟨before, a, after, hsplit, hb, fun other hother => ?_⟩
  refine Option.eq_none_iff_forall_ne_some.mpr fun found hfound => ?_
  have hle : key other ≤ key a := by
    simpa using (List.pairwise_append.mp hsorted).2.2 other hother a (List.mem_cons_self ..)
  have hmem : other ∈ list := by
    rw [← hperm.mem_iff, hsplit]
    exact List.mem_append_left _ hother
  have heq : key other = key a := le_antisymm hle (hleast other hmem (Option.isSome_of_mem hfound))
  exact (List.nodup_append.mp hkeys).2.2 _ (List.mem_map_of_mem hother) _
    (List.mem_cons_self ..) heq

end First

section CopyBack

variable {α β : Type}

/-- Write items over a list, one after the other from a position on. -/
def writeFrom (f : β → α) (items : List β) (position : Nat) (list : List α) : List α :=
  (items.zipIdx position).foldl (fun list item => list.set item.2 (f item.1)) list

theorem writeFrom_append (f : β → α) (items : List β) (before after : List α)
    (h : after.length = items.length) :
    writeFrom f items before.length (before ++ after) = before ++ items.map f := by
  induction items generalizing before after with
  | nil => simp [writeFrom, List.length_eq_zero_iff.mp h]
  | cons item rest ih =>
      obtain ⟨old, after, rfl⟩ := List.exists_cons_of_length_eq_add_one h
      have hset : (before ++ old :: after).set before.length (f item) =
          (before ++ [f item]) ++ after := by simp
      have hrest := ih (before ++ [f item]) after (by simpa using h)
      simp only [writeFrom, List.length_append, List.length_singleton] at hrest
      rw [writeFrom, List.zipIdx_cons, List.foldl_cons, hset, hrest]
      simp

/-- Items that are written over as many others replace them. -/
theorem writeFrom_zero (f : β → α) {items : List β} {list : List α}
    (h : list.length = items.length) : writeFrom f items 0 list = items.map f := by
  simpa using writeFrom_append f items [] list h

end CopyBack

end NovaBase.Lib
