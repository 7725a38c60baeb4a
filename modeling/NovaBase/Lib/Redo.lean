import Mathlib.Data.List.Induction
import Mathlib.Data.Nat.Basic

/-!
# Redo of whole blocks

A redo log replaces blocks of a growing list. A write past the end first fills
the gap with fresh blocks. The result depends on the last write to each block
only, so redoing a log twice is redoing it once.
-/

namespace NovaBase.Lib.Redo

variable {β : Type} (fresh : Nat → β)

/-- The list, filled up with fresh blocks to a length of at least `n`. -/
def grow (n : Nat) (blocks : List β) : List β :=
  blocks ++ (List.range' blocks.length (n - blocks.length)).map fresh

/-- One write. -/
def redoOne (blocks : List β) (write : Nat × β) : List β :=
  (grow fresh (write.1 + 1) blocks).set write.1 write.2

/-- All writes in order. -/
def redo (writes : List (Nat × β)) (blocks : List β) : List β :=
  writes.foldl (redoOne fresh) blocks

/-- The last block written to a position. -/
def lastWrite (writes : List (Nat × β)) (i : Nat) : Option β :=
  ((writes.filter fun write => write.1 = i).getLast?).map Prod.snd

/-- One more than the largest position written. -/
def needed (writes : List (Nat × β)) : Nat :=
  (writes.map fun write => write.1 + 1).foldl max 0

theorem length_grow (n : Nat) (blocks : List β) :
    (grow fresh n blocks).length = max blocks.length n := by
  simp only [grow, List.length_append, List.length_map, List.length_range']
  omega

theorem grow_of_le {n : Nat} {blocks : List β} (h : n ≤ blocks.length) :
    grow fresh n blocks = blocks := by
  simp [grow, Nat.sub_eq_zero_of_le h]

/-- Growing by one block. -/
theorem grow_append {n : Nat} {blocks : List β} (h : blocks.length < n) :
    grow fresh n (blocks ++ [fresh blocks.length]) = grow fresh n blocks := by
  obtain ⟨k, rfl⟩ : ∃ k, n = blocks.length + 1 + k := ⟨n - (blocks.length + 1), by omega⟩
  have hlong : blocks.length + 1 + k - (blocks.length + 1) = k := by omega
  have hshort : blocks.length + 1 + k - blocks.length = k + 1 := by omega
  simp only [grow, List.length_append, List.length_singleton, hlong, hshort, List.range'_succ,
    List.map_cons, List.append_assoc, List.singleton_append]

theorem getElem?_grow {n i : Nat} {blocks : List β} (h : i < max blocks.length n) :
    (grow fresh n blocks)[i]? = some (blocks[i]?.getD (fresh i)) := by
  rw [grow]
  rcases Nat.lt_or_ge i blocks.length with hlt | hge
  · rw [List.getElem?_append_left hlt, List.getElem?_eq_getElem hlt]
    rfl
  · rw [List.getElem?_append_right hge, List.getElem?_map, List.getElem?_range' (by omega),
      List.getElem?_eq_none hge]
    simp
    congr 1
    omega

@[simp] theorem redo_nil (blocks : List β) : redo fresh [] blocks = blocks := rfl

theorem redo_concat (writes : List (Nat × β)) (write : Nat × β) (blocks : List β) :
    redo fresh (writes ++ [write]) blocks = redoOne fresh (redo fresh writes blocks) write := by
  simp [redo]

theorem lastWrite_concat (writes : List (Nat × β)) (write : Nat × β) (i : Nat) :
    lastWrite (writes ++ [write]) i = if write.1 = i then some write.2 else lastWrite writes i := by
  by_cases h : write.1 = i <;> simp [lastWrite, h]

theorem needed_concat (writes : List (Nat × β)) (write : Nat × β) :
    needed (writes ++ [write]) = max (needed writes) (write.1 + 1) := by
  simp [needed]

theorem lt_needed {writes : List (Nat × β)} {i : Nat} {block : β}
    (h : lastWrite writes i = some block) : i < needed writes := by
  induction writes using List.reverseRecOn with
  | nil => simp [lastWrite] at h
  | append_singleton writes write ih =>
      rw [lastWrite_concat] at h
      rw [needed_concat]
      split at h
      · omega
      · have := ih h
        omega

theorem length_redo (writes : List (Nat × β)) (blocks : List β) :
    (redo fresh writes blocks).length = max blocks.length (needed writes) := by
  induction writes using List.reverseRecOn with
  | nil => simp [needed]
  | append_singleton writes write ih =>
      rw [redo_concat, needed_concat, redoOne, List.length_set, length_grow, ih, Nat.max_assoc]

/-- Each block is the last one written there, or the old one, or a fresh one. -/
theorem getElem?_redo (writes : List (Nat × β)) (blocks : List β) {i : Nat}
    (h : i < max blocks.length (needed writes)) :
    (redo fresh writes blocks)[i]? =
      some ((lastWrite writes i).getD (blocks[i]?.getD (fresh i))) := by
  induction writes using List.reverseRecOn with
  | nil =>
      have hlt : i < blocks.length := by simpa [needed] using h
      simp [lastWrite, hlt]
  | append_singleton writes write ih =>
      rw [needed_concat] at h
      have hgrown : i < max (redo fresh writes blocks).length (write.1 + 1) := by
        rw [length_redo]
        omega
      rw [redo_concat, lastWrite_concat, redoOne, List.getElem?_set, length_grow]
      by_cases hi : write.1 = i
      · rw [if_pos hi, if_pos (by omega), if_pos hi]
        rfl
      · rw [if_neg hi, if_neg hi, getElem?_grow fresh hgrown]
        rcases Nat.lt_or_ge i (max blocks.length (needed writes)) with hlt | hge
        · rw [ih hlt]
          rfl
        · have hnone : (redo fresh writes blocks)[i]? = none := by
            apply List.getElem?_eq_none
            rw [length_redo]
            exact hge
          have hold : blocks[i]? = none := List.getElem?_eq_none (by omega)
          have hunwritten : lastWrite writes i = none := by
            cases hlast : lastWrite writes i with
            | none => rfl
            | some block => exact absurd (lt_needed hlast) (by omega)
          rw [hnone, hold, hunwritten]
          rfl

/-- Redoing twice is redoing once. -/
theorem redo_redo (writes : List (Nat × β)) (blocks : List β) :
    redo fresh writes (redo fresh writes blocks) = redo fresh writes blocks := by
  apply List.ext_getElem?
  intro i
  rcases Nat.lt_or_ge i (max blocks.length (needed writes)) with hlt | hge
  · rw [getElem?_redo fresh writes _ (by rw [length_redo]; omega), getElem?_redo fresh writes _ hlt]
    cases lastWrite writes i <;> rfl
  · rw [List.getElem?_eq_none (by rw [length_redo, length_redo]; omega),
      List.getElem?_eq_none (by rw [length_redo]; omega)]

end NovaBase.Lib.Redo
