import NovaBase.Lib.Bytes

/-!
# Byte strings of equal blocks

A byte string seen as a list of blocks of one positive size. Slices and
splices at block boundaries are reads and updates of the list.
-/

namespace NovaBase.Lib

/-- `bytes` is the concatenation of `blocks`, which all have length `size`. -/
structure Blocks (size : Nat) (blocks : List Bytes) (bytes : Bytes) : Prop where
  flatten : bytes = blocks.flatten
  sized : ∀ block ∈ blocks, block.length = size

namespace Blocks

open Bytes

variable {size : Nat} {blocks : List Bytes} {bytes block data : Bytes} {i : Nat}

theorem nil (size : Nat) : Blocks size [] [] := ⟨rfl, by simp⟩

theorem cons (hblock : block.length = size) (h : Blocks size blocks bytes) :
    Blocks size (block :: blocks) (block ++ bytes) :=
  ⟨by rw [List.flatten_cons, h.flatten], by simpa using ⟨hblock, h.sized⟩⟩

theorem length_eq (h : Blocks size blocks bytes) : bytes.length = blocks.length * size := by
  obtain ⟨rfl, hsized⟩ := h
  induction blocks with
  | nil => simp
  | cons block blocks ih =>
      have hrest := ih fun other hmem => hsized other (List.mem_cons_of_mem _ hmem)
      rw [List.flatten_cons, List.length_append, hrest, hsized block List.mem_cons_self,
        List.length_cons, Nat.succ_mul, Nat.add_comm]

/-- Every string whose length is a multiple of the size consists of blocks. -/
theorem exists_of_length {n : Nat} (h : bytes.length = n * size) :
    ∃ blocks, Blocks size blocks bytes ∧ blocks.length = n := by
  induction n generalizing bytes with
  | zero =>
      obtain rfl : bytes = [] := List.eq_nil_of_length_eq_zero (by omega)
      exact ⟨[], nil size, rfl⟩
  | succ n ih =>
      rw [Nat.succ_mul] at h
      have hdrop : (bytes.drop size).length = n * size := by simp [h]
      obtain ⟨blocks, hblocks, hlen⟩ := ih hdrop
      have htake : (bytes.take size).length = size := by simp [h]
      refine ⟨bytes.take size :: blocks, ?_, by simp [hlen]⟩
      have hcons := cons htake hblocks
      rwa [List.take_append_drop] at hcons

/-- Adding a block at the end. -/
theorem append (h : Blocks size blocks bytes) (hdata : data.length = size) :
    Blocks size (blocks ++ [data]) (bytes ++ data) := by
  refine ⟨by simp [h.flatten], fun other hmem => ?_⟩
  rcases List.mem_append.mp hmem with hmem | hmem
  · exact h.sized other hmem
  · obtain rfl := List.mem_singleton.mp hmem
    exact hdata

/-- The bytes around one block. -/
theorem split (h : Blocks size blocks bytes) (hi : i < blocks.length) :
    ∃ before after, Blocks size (blocks.take i) before ∧ Blocks size (blocks.drop (i + 1)) after ∧
      bytes = before ++ (blocks[i] ++ after) ∧ before.length = i * size := by
  have hbefore : Blocks size (blocks.take i) (blocks.take i).flatten :=
    ⟨rfl, fun other hmem => h.sized other (List.mem_of_mem_take hmem)⟩
  refine ⟨(blocks.take i).flatten, (blocks.drop (i + 1)).flatten, hbefore,
    ⟨rfl, fun other hmem => h.sized other (List.mem_of_mem_drop hmem)⟩, ?_, ?_⟩
  · rw [h.flatten]
    conv_lhs => rw [← List.take_append_drop i blocks, List.drop_eq_getElem_cons hi]
    rw [List.flatten_append, List.flatten_cons]
  · rw [hbefore.length_eq, List.length_take, min_eq_left (by omega)]

/-- Reading one block. -/
theorem slice_block (h : Blocks size blocks bytes) (hi : blocks[i]? = some block) :
    slice bytes (i * size) (i * size + size) = block := by
  obtain ⟨hlt, rfl⟩ := List.getElem?_eq_some_iff.mp hi
  obtain ⟨before, after, -, -, hbytes, hlen⟩ := h.split hlt
  have hsize := h.sized _ (List.getElem_mem hlt)
  rw [hbytes]
  exact slice_middle _ _ _ hlen.symm (by rw [hlen, hsize])

/-- Overwriting one block. -/
theorem splice_block (h : Blocks size blocks bytes) (hi : i < blocks.length)
    (hdata : data.length = size) :
    Blocks size (blocks.set i data) (splice bytes (i * size) data) := by
  obtain ⟨before, after, hbefore, hafter, hbytes, hlen⟩ := h.split hi
  have hsize := h.sized _ (List.getElem_mem hi)
  have hsplice : splice bytes (i * size) data = before ++ (data ++ after) := by
    rw [hbytes]
    exact splice_middle _ _ _ _ hlen.symm (by rw [hdata, hsize])
  rw [hsplice, List.set_eq_take_append_cons_drop, if_pos hi]
  refine ⟨by simp [hbefore.flatten, hafter.flatten], fun other hmem => ?_⟩
  rcases List.mem_append.mp hmem with hmem | hmem
  · exact hbefore.sized other hmem
  · rcases List.mem_cons.mp hmem with rfl | hmem
    · exact hdata
    · exact hafter.sized other hmem

/-- The blocks of a string are determined by it. -/
theorem unique {others : List Bytes} (hsize : 0 < size) (h : Blocks size blocks bytes)
    (h' : Blocks size others bytes) : blocks = others := by
  have hlen : blocks.length = others.length :=
    Nat.eq_of_mul_eq_mul_right hsize (h.length_eq.symm.trans h'.length_eq)
  apply List.ext_getElem hlen
  intro i hi hi'
  rw [← h.slice_block (List.getElem?_eq_getElem hi),
    ← h'.slice_block (List.getElem?_eq_getElem hi')]

end Blocks

end NovaBase.Lib
