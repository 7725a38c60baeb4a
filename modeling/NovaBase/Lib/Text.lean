import Mathlib.Algebra.GroupWithZero.Nat
import Mathlib.Data.List.Basic

/-!
# Byte offsets in a text

A text is a list of characters; its size is counted in bytes of its UTF-8
encoding. A slice exists where its offsets lie on boundaries of characters.
-/

namespace NovaBase.Lib.Text

/-- The number of bytes that a text takes in UTF-8. -/
def size (text : List Char) : Nat := (text.map Char.utf8Size).sum

/-- The text behind so many bytes, if a character ends there. -/
def sliceFrom : List Char → Nat → Option (List Char)
  | text, 0 => some text
  | [], _ + 1 => none
  | c :: rest, offset + 1 =>
      if c.utf8Size ≤ offset + 1 then sliceFrom rest (offset + 1 - c.utf8Size) else none

/-- The text before so many bytes, if a character ends there. -/
def sliceTo : List Char → Nat → Option (List Char)
  | _, 0 => some []
  | [], _ + 1 => none
  | c :: rest, offset + 1 =>
      if c.utf8Size ≤ offset + 1 then (sliceTo rest (offset + 1 - c.utf8Size)).map (c :: ·)
      else none

/-- The text between two offsets, if both lie on boundaries. -/
def slice (text : List Char) (start stop : Nat) : Option (List Char) :=
  if start ≤ stop then (sliceFrom text start).bind (sliceTo · (stop - start)) else none

@[simp] theorem size_nil : size [] = 0 := rfl

@[simp] theorem size_cons (c : Char) (rest : List Char) :
    size (c :: rest) = c.utf8Size + size rest := by
  simp [size]

@[simp] theorem size_append (a b : List Char) : size (a ++ b) = size a + size b := by
  simp [size]

/-- The size of a string is that of its characters. -/
theorem size_toList (source : String) : size source.toList = source.utf8ByteSize := by
  have hofList : ∀ text : List Char, size text = (String.ofList text).utf8ByteSize := by
    intro text
    induction text with
    | nil => rfl
    | cons c rest ih =>
        have hfirst : (String.ofList [c]).utf8ByteSize = c.utf8Size := by
          rw [← String.singleton_eq_ofList, String.utf8ByteSize_singleton]
        rw [← List.singleton_append, String.ofList_append, String.utf8ByteSize_append, hfirst, ← ih]
        rw [List.singleton_append, size_cons]
  rw [hofList, String.ofList_toList]

/-- What comes behind a front of the text is sliced off where the front ends. -/
theorem sliceFrom_size (front rest : List Char) :
    sliceFrom (front ++ rest) (size front) = some rest := by
  induction front with
  | nil => cases rest <;> rfl
  | cons c front ih =>
      have hc := c.utf8Size_pos
      obtain ⟨n, hn⟩ : ∃ n, size (c :: front) = n + 1 := ⟨size (c :: front) - 1, by
        rw [size_cons]
        omega⟩
      have hrest : n + 1 - c.utf8Size = size front := by
        rw [← hn, size_cons]
        omega
      rw [List.cons_append, hn, sliceFrom, if_pos, hrest, ih]
      rw [← hn, size_cons]
      omega

/-- Only where a front ends is there a slice. -/
theorem sliceFrom_eq_some {text rest : List Char} {offset : Nat}
    (h : sliceFrom text offset = some rest) :
    ∃ front, text = front ++ rest ∧ size front = offset := by
  induction text generalizing offset with
  | nil =>
      cases offset with
      | zero => exact ⟨[], by simpa [sliceFrom] using h, rfl⟩
      | succ offset => simp [sliceFrom] at h
  | cons c text ih =>
      cases offset with
      | zero => exact ⟨[], by simpa [sliceFrom] using h, rfl⟩
      | succ offset =>
          rw [sliceFrom] at h
          split at h
          · obtain ⟨front, rfl, hfront⟩ := ih h
            refine ⟨c :: front, rfl, ?_⟩
            rw [size_cons]
            omega
          · cases h

theorem le_size_of_sliceFrom {text rest : List Char} {offset : Nat}
    (h : sliceFrom text offset = some rest) : offset ≤ size text := by
  obtain ⟨front, rfl, rfl⟩ := sliceFrom_eq_some h
  rw [size_append]
  exact Nat.le_add_right _ _

theorem sliceTo_size (front rest : List Char) :
    sliceTo (front ++ rest) (size front) = some front := by
  induction front with
  | nil => cases rest <;> rfl
  | cons c front ih =>
      have hc := c.utf8Size_pos
      obtain ⟨n, hn⟩ : ∃ n, size (c :: front) = n + 1 := ⟨size (c :: front) - 1, by
        rw [size_cons]
        omega⟩
      have hrest : n + 1 - c.utf8Size = size front := by
        rw [← hn, size_cons]
        omega
      rw [List.cons_append, hn, sliceTo, if_pos, hrest, ih, Option.map_some]
      rw [← hn, size_cons]
      omega

/-- The middle of a text is sliced out between its ends. -/
theorem slice_size (front middle rest : List Char) :
    slice (front ++ (middle ++ rest)) (size front) (size front + size middle) = some middle := by
  rw [slice, if_pos (Nat.le_add_right _ _), sliceFrom_size, Option.bind_some,
    Nat.add_sub_cancel_left, sliceTo_size]

end NovaBase.Lib.Text
