import NovaBase.Core.Value

/-!
# Dotted paths

A path names a field of a document, or a field of a document nested in it. It is
a list of segments, joined by dots where it is kept as text. What counts as a
letter or a digit is taken from the tables of the Unicode standard.
-/

namespace NovaBase

open Lib

/-- The whitespace among the ASCII characters. -/
def isAsciiWhitespace (c : Char) : Bool :=
  c.toNat = 32 || (9 ≤ c.toNat && c.toNat ≤ 13)

/-- The character properties of the Unicode standard that the database asks for. -/
class CharacterTables where
  isAlphabetic : Char → Bool
  isNumeric : Char → Bool
  isWhitespace : Char → Bool
  isControl : Char → Bool
  alphabetic_ascii : ∀ c : Char, c.toNat < 128 → isAlphabetic c = c.isAlpha
  numeric_ascii : ∀ c : Char, c.toNat < 128 → isNumeric c = c.isDigit
  whitespace_ascii : ∀ c : Char, c.toNat < 128 → isWhitespace c = isAsciiWhitespace c

/-- The tables on ASCII characters, with no other letters and digits. -/
@[reducible] def CharacterTables.ascii : CharacterTables where
  isAlphabetic := Char.isAlpha
  isNumeric := Char.isDigit
  isWhitespace := isAsciiWhitespace
  isControl c := c.toNat < 32 || c.toNat = 127
  alphabetic_ascii _ _ := rfl
  numeric_ascii _ _ := rfl
  whitespace_ascii _ _ := rfl

section Characters

variable [CharacterTables]

/-- A letter or a number of any script. -/
def isAlphanumeric (c : Char) : Bool :=
  CharacterTables.isAlphabetic c || CharacterTables.isNumeric c

end Characters

section Ascii

variable {c : Char}

theorem isAlpha_iff : c.isAlpha = true ↔
    (65 ≤ c.toNat ∧ c.toNat ≤ 90) ∨ (97 ≤ c.toNat ∧ c.toNat ≤ 122) := by
  have hletter : c.isAlpha = (decide (c.val ≥ 'A'.val ∧ c.val ≤ 'Z'.val) ||
      (decide (c.val ≥ 'a'.val) && decide (c.val ≤ 'z'.val))) := rfl
  simp [hletter, UInt32.le_iff_toNat_le]

theorem isDigit_iff : c.isDigit = true ↔ 48 ≤ c.toNat ∧ c.toNat ≤ 57 := by
  simp [Char.isDigit, UInt32.le_iff_toNat_le]

/-- Letters are no whitespace. -/
theorem isAsciiWhitespace_of_isAlpha (h : c.isAlpha = true) : isAsciiWhitespace c = false := by
  have hrange := isAlpha_iff.mp h
  simp only [isAsciiWhitespace, Bool.or_eq_false_iff, ← Bool.decide_and, decide_eq_false_iff_not]
  omega

/-- Capital letters are moved behind the others by 32. -/
theorem toNat_toLower (c : Char) :
    c.toLower.toNat = if 65 ≤ c.toNat ∧ c.toNat ≤ 90 then c.toNat + 32 else c.toNat := by
  have hupper : (c.val ≥ 'A'.val ∧ c.val ≤ 'Z'.val) ↔ 65 ≤ c.toNat ∧ c.toNat ≤ 90 := by
    simp [UInt32.le_iff_toNat_le]
  unfold Char.toLower
  by_cases h : c.val ≥ 'A'.val ∧ c.val ≤ 'Z'.val
  · have hsmall := hupper.mp h
    rw [dif_pos h, if_pos hsmall]
    show (c.val + 32).toNat = c.toNat + 32
    rw [UInt32.toNat_add]
    show (c.toNat + 32) % 2 ^ 32 = c.toNat + 32
    omega
  · rw [dif_neg h, if_neg (mt hupper.mpr h)]

end Ascii

/-- The segments of a path as one text. -/
def joinDots (segments : List String) : String := String.intercalate "." segments

/-- The parts of a text between its dots. -/
def splitDots (path : String) : List String := (path.toList.splitOn '.').map String.ofList

/-- Segments without dots can be read back. -/
theorem splitDots_joinDots {segments : List String} (hne : segments ≠ [])
    (hdots : ∀ segment ∈ segments, '.' ∉ segment.toList) :
    splitDots (joinDots segments) = segments := by
  have hseparator : ".".toList = ['.'] := by decide
  have hsplit : (['.'].intercalate (segments.map String.toList)).splitOn '.' =
      segments.map String.toList :=
    List.splitOn_intercalate '.' (List.forall_mem_map.mpr hdots) (by simpa using hne)
  rw [splitDots, joinDots, String.toList_intercalate, hseparator, hsplit, List.map_map]
  simp [Function.comp_def]

namespace Document

/-- The value at a path. Only documents are entered on the way. -/
def lookupParts (document : Document) : List String → Option NovaValue
  | [] => none
  | [part] => document.get part
  | part :: rest =>
      match document.get part with
      | some (.document nested) => lookupParts nested rest
      | _ => none

/-- The value at a path that is written with dots. -/
def lookup (document : Document) (path : String) : Option NovaValue :=
  lookupParts document (splitDots path)

end Document

end NovaBase
