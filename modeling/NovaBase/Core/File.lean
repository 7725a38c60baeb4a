import NovaBase.Core.Error
import NovaBase.Lib.Bytes

/-!
# Files

One regular file behind an open handle: its bytes, the cursor, and how many
leading bytes the last synchronization covers. A write may stop after any
prefix of its data. Offsets are signed 64-bit integers in the operating system,
so a file that has reached `maxFileLength` takes no more bytes.
-/

namespace NovaBase

open Lib Lib.Bytes

/-- The largest file offset. -/
def maxFileLength : Nat := 2 ^ 63 - 1

/-- What happens to one write: it completes, or it stops after some of its bytes. -/
inductive WriteOutcome
  | complete
  | cut (stored : Nat)
  deriving DecidableEq, Repr

/-- An open file. -/
structure File where
  bytes : Bytes
  cursor : Nat
  synced : Nat
  deriving DecidableEq

namespace File

/-- How many bytes of `data` a write stores. -/
def stored (outcome : WriteOutcome) (data : Bytes) (file : File) : Nat :=
  match outcome with
  | .complete => min data.length (maxFileLength - file.cursor)
  | .cut stored => min stored (min data.length (maxFileLength - file.cursor))

/-- The file after `data` has been stored at the cursor; a gap before it reads as zero. Bytes
stored again are no longer known to be on disk. -/
def store (data : Bytes) (file : File) : File :=
  { bytes := splice (file.bytes ++ List.replicate (file.cursor - file.bytes.length) 0)
      file.cursor data
    cursor := file.cursor + data.length
    synced := min file.synced file.cursor }

/-- Write all of `data` at the cursor. -/
def writeAll (outcome : WriteOutcome) (data : Bytes) (file : File) : Result Unit × File :=
  let count := file.stored outcome data
  (if outcome = .complete ∧ count = data.length then .ok () else .error .io,
    file.store (data.take count))

/-- Move the cursor to an offset, which may lie behind the end. -/
def seek (offset : Nat) (file : File) : File := { file with cursor := offset }

/-- Move the cursor behind the last byte. -/
def seekEnd (file : File) : File := file.seek file.bytes.length

/-- Truncate the file. -/
def setLen (length : Nat) (file : File) : File :=
  { file with bytes := file.bytes.take length, synced := min file.synced length }

/-- Read `length` bytes at the cursor. -/
def readExact (length : Nat) (file : File) : Result Bytes × File :=
  if file.cursor + length ≤ file.bytes.length then
    (.ok (slice file.bytes file.cursor (file.cursor + length)),
      { file with cursor := file.cursor + length })
  else (.error .io, { file with cursor := max file.cursor file.bytes.length })

/-- Bring everything written so far to disk. -/
def syncAll (file : File) : File := { file with synced := file.bytes.length }

/-- What is left after a crash that keeps the first `length` bytes. -/
def crash (length : Nat) (file : File) : File :=
  { file with bytes := file.bytes.take length, synced := min file.synced length }

/-- The file fits the operating system's offsets, and no more than its bytes are synchronized. -/
structure Sound (file : File) : Prop where
  fits : file.bytes.length ≤ maxFileLength
  synced : file.synced ≤ file.bytes.length

theorem readExact_bytes (length : Nat) (file : File) :
    (file.readExact length).2.bytes = file.bytes := by
  unfold readExact
  split <;> rfl

section Writing

variable {outcome : WriteOutcome} {data : Bytes} {file : File}

/-- A write at the end of the file only adds bytes. -/
theorem store_end (h : file.cursor = file.bytes.length) :
    (file.store data).bytes = file.bytes ++ data := by
  simp [store, splice, h]

/-- A write inside the file overwrites part of it. -/
theorem store_inside (h : file.cursor + data.length ≤ file.bytes.length) :
    (file.store data).bytes = splice file.bytes file.cursor data := by
  have hgap : file.cursor - file.bytes.length = 0 := by omega
  simp [store, hgap]

theorem length_writeAll_inside (h : file.cursor + data.length ≤ file.bytes.length) :
    (file.writeAll outcome data).2.bytes.length = file.bytes.length := by
  have hstored : (data.take (file.stored outcome data)).length ≤ data.length :=
    List.length_take_le' ..
  simp only [writeAll]
  rw [store_inside (by omega), length_splice (by omega)]

/-- A write that fails does so for a reason of its own or for want of room. -/
theorem writeAll_cases (outcome : WriteOutcome) (data : Bytes) (file : File) :
    (file.writeAll outcome data = (.ok (), file.store data) ∧
        (data = [] ∨ file.cursor + data.length ≤ maxFileLength)) ∨
      ((file.writeAll outcome data).1 = .error .io ∧
        (outcome = .complete → maxFileLength < file.cursor + data.length)) := by
  simp only [writeAll]
  split
  · rename_i h
    obtain ⟨rfl, hcount⟩ := h
    refine .inl ⟨by rw [hcount, List.take_length], ?_⟩
    simp only [stored] at hcount
    rcases Nat.eq_zero_or_pos data.length with hzero | hpos
    · exact .inl (List.eq_nil_of_length_eq_zero hzero)
    · exact .inr (by omega)
  · rename_i h
    refine .inr ⟨rfl, ?_⟩
    rintro rfl
    simp only [stored, true_and] at h
    omega

/-- Storing nothing at the end of a sound file changes nothing. -/
theorem store_nil (h : file.cursor = file.bytes.length) (hsound : file.Sound) :
    file.store [] = file := by
  have hsynced := hsound.synced
  have hbytes : (file.store []).bytes = file.bytes ++ [] := store_end h
  rw [List.append_nil] at hbytes
  cases file
  simp_all [store]

theorem stored_room (h : file.cursor = file.bytes.length) (hfits : file.Sound) :
    file.bytes.length + file.stored outcome data ≤ maxFileLength := by
  have := hfits.fits
  cases outcome with
  | complete => simp only [stored]; omega
  | cut stored => simp only [File.stored]; omega

/-- Appending what fits keeps a file sound. -/
theorem Sound.store_end (hsound : file.Sound) (h : file.cursor = file.bytes.length)
    (hroom : file.bytes.length + data.length ≤ maxFileLength) : (file.store data).Sound where
  fits := by
    rw [File.store_end h, List.length_append]
    exact hroom
  synced := by
    have hsynced := hsound.synced
    rw [File.store_end h, List.length_append]
    simp only [store]
    omega

theorem Sound.setLen (hsound : file.Sound) (length : Nat) : (file.setLen length).Sound where
  fits := by
    have := hsound.fits
    simp only [File.setLen, List.length_take]
    omega
  synced := by
    have := hsound.synced
    simp only [File.setLen, List.length_take]
    omega

end Writing

end File

end NovaBase
