import NovaBase.Index.Metadata
import NovaBase.Storage.PageSlots

/-!
# Damaged bytes

Page images, tree snapshots and metadata files carry a checksum of all bytes
but its own. A file that its reader accepts is sealed by that checksum, and a
sealed file with one byte replaced is not. What the readers look at before they
compare checksums lies within the lengths they check first.
-/

namespace NovaBase.Index

open Lib Lib.Bytes Lib.Checksum

/-- The top coefficient of the polynomial is set. -/
theorem msb_polynomial : (0xedb88320#32).msb = true := by decide

/-- A number that was read is that of the first bytes. -/
theorem word_eq_ok {width number : Nat} {input rest : Bytes}
    (h : Cursor.word width input = .ok (number, rest)) :
    number = fromBigEndian (input.take width) ∧ rest = input.drop width := by
  simp only [Cursor.word, Cursor.take, bind_eq_ok, require_eq_ok, pure_eq_ok, Except.ok.injEq,
    Prod.exists, Prod.mk.injEq] at h
  obtain ⟨bytes, after, ⟨-, -, rfl, rfl⟩, rfl, rfl⟩ := h
  exact ⟨rfl, rfl⟩

/-- The bytes of a page that is accepted have the checksum that they state. -/
theorem sealed_of_fromBytes {bytes : Bytes} {page : Storage.Page}
    (h : Storage.Page.fromBytes bytes = .ok page) :
    Sealed 0xedb88320#32 (BitVec.allOnes 32) Storage.checksumStart Storage.checksumEnd bytes := by
  simp only [Storage.Page.fromBytes, bind_eq_ok, require_eq_ok] at h
  obtain ⟨-, -, -, -, -, -, -, -, -, hchecksum, -⟩ := h
  exact hchecksum.symm

/-- The stored checksum is read from its place behind the eight fields before it. -/
theorem sealed_of_decodeTree {bytes : Bytes} {tree : Nat × Nat × List Node}
    (h : decodeTree bytes = .ok tree) :
    Sealed 0xedb88320#32 (BitVec.allOnes 32) checksumOffset (checksumOffset + 4) bytes := by
  simp only [decodeTree, bind_eq_ok, require_eq_ok, Prod.exists] at h
  obtain ⟨-, -, -, -, start, afterMagic, hmagic, found, afterVersion, hfound, -, -, size, afterSize,
    hsize, -, -, capacity, afterCapacity, hcapacity, -, -, first, afterFirst, hfirst, -, -, root,
    afterRoot, hroot, count, afterCount, hcount, stored, afterStored, hstored, -, -, -, -, -,
    -, hchecksum, -⟩ := h
  simp only [Cursor.take, bind_eq_ok, require_eq_ok, pure_eq_ok, Except.ok.injEq,
    Prod.mk.injEq] at hmagic
  obtain ⟨-, -, -, rfl⟩ := hmagic
  obtain ⟨-, rfl⟩ := word_eq_ok hfound
  obtain ⟨-, rfl⟩ := word_eq_ok hsize
  obtain ⟨-, rfl⟩ := word_eq_ok hcapacity
  obtain ⟨-, rfl⟩ := word_eq_ok hfirst
  obtain ⟨-, rfl⟩ := word_eq_ok hroot
  obtain ⟨-, rfl⟩ := word_eq_ok hcount
  obtain ⟨rfl, -⟩ := word_eq_ok hstored
  calc
    fromBigEndian (slice bytes checksumOffset (checksumOffset + 4)) =
        fromBigEndian ((bytes.drop 32).take 4) := by
      rw [slice, List.take_drop]
      rfl
    _ = (crc32WithZeroedChecksum bytes).toNat := by
      rw [← hchecksum]
      simp only [List.drop_drop, Nat.reduceAdd]

/-- The bytes of a definition that is accepted end with their checksum. -/
theorem sealedBehind_of_decodeDefinition {bytes : Bytes} {definition : IndexDefinition}
    (h : decodeDefinition bytes = .ok definition) :
    SealedBehind 0xedb88320#32 (BitVec.allOnes 32) (bytes.length - 4) bytes := by
  simp only [decodeDefinition, bind_eq_ok, require_eq_ok] at h
  obtain ⟨-, -, -, hchecksum, -⟩ := h
  exact hchecksum

/-- What reads only sealed files rejects the others. -/
theorem rejects_of_imp {α : Type} {read : Bytes → Result α} {Accepted : Bytes → Prop}
    {bytes : Bytes}
    (haccepted : ∀ a, read bytes = .ok a → Accepted bytes) (h : ¬Accepted bytes) :
    ∃ cause, read bytes = .error cause := by
  cases hread : read bytes with
  | error cause => exact ⟨cause, rfl⟩
  | ok a => exact absurd (haccepted a hread) h

/-- A file that is accepted is rejected once one of its bytes is replaced by another. -/
theorem damaged_byte_rejected (bytes : Bytes) (i : Nat) {old new : UInt8}
    (hold : bytes[i]? = some old) (hne : new ≠ old) :
    (∀ page, Storage.Page.fromBytes bytes = .ok page →
      ∃ cause, Storage.Page.fromBytes (bytes.set i new) = .error cause) ∧
    (∀ tree, decodeTree bytes = .ok tree →
      ∃ cause, decodeTree (bytes.set i new) = .error cause) ∧
    ∀ definition, decodeDefinition bytes = .ok definition →
      ∃ cause, decodeDefinition (bytes.set i new) = .error cause := by
  refine ⟨fun page h => ?_, fun tree h => ?_, fun definition h => ?_⟩
  · exact rejects_of_imp (fun _ => sealed_of_fromBytes)
      (not_sealed_set msb_polynomial (by decide) (sealed_of_fromBytes h) hold hne)
  · exact rejects_of_imp (fun _ => sealed_of_decodeTree)
      (not_sealed_set msb_polynomial (by decide) (sealed_of_decodeTree h) hold hne)
  · have hdamaged := not_sealedBehind_set msb_polynomial (by decide)
      (sealedBehind_of_decodeDefinition h) hold hne
    have hlength : (bytes.set i new).length = bytes.length := List.length_set
    rw [← hlength] at hdamaged
    exact rejects_of_imp (fun _ => sealedBehind_of_decodeDefinition) hdamaged

/-- A leaf with two keys. -/
def keyedLeaf : Node := .leaf [(.int64 5, [.filled 1]), (.string "b", [.filled 2, .filled 3])] none

/-- One bit is flipped: in a record or in the checksum of a page, in a key or in the checksum of a
tree, and in the name or in the checksum of a definition. -/
theorem damaged_byte_rejected_bit :
    (∃ image record checksum, Storage.Page.slottedPage.toBytes = .ok image ∧
      image[4094]? = some record ∧ image[17]? = some checksum ∧
      (∃ cause, Storage.Page.fromBytes (image.set 4094 (record ^^^ 1)) = .error cause) ∧
      ∃ cause, Storage.Page.fromBytes (image.set 17 (checksum ^^^ 1)) = .error cause) ∧
    (∃ file key checksum, encodeTree 31 0 [keyedLeaf] = .ok file ∧
      file[61]? = some key ∧ file[33]? = some checksum ∧
      (∃ cause, decodeTree (file.set 61 (key ^^^ 1)) = .error cause) ∧
      ∃ cause, decodeTree (file.set 33 (checksum ^^^ 1)) = .error cause) ∧
    ∃ file name checksum, encodeDefinition ⟨"by_age", "people", ["age"]⟩ = .ok file ∧
      file[10]? = some name ∧ file[38]? = some checksum ∧
      (∃ cause, decodeDefinition (file.set 10 (name ^^^ 1)) = .error cause) ∧
      ∃ cause, decodeDefinition (file.set 38 (checksum ^^^ 1)) = .error cause := by
  have hflip : ∀ byte : UInt8, byte ^^^ 1 ≠ byte := by
    intro byte h
    have hsame : byte ^^^ 1 = byte ^^^ 0 := h.trans UInt8.xor_zero.symm
    exact absurd ((UInt8.xor_right_inj byte).mp hsame) (by decide)
  refine ⟨?_, ?_, ?_⟩
  · obtain ⟨image, himage⟩ := Storage.Page.toBytes_of_fits Storage.Page.fits_slottedPage
    have hpage := Storage.Page.fromBytes_toBytes himage
    have hlength := Storage.Page.length_toBytes himage
    have hbyte (i : Nat) (hi : i < Storage.pageSize) : ∃ byte, image[i]? = some byte :=
      ⟨_, List.getElem?_eq_getElem (hlength ▸ hi)⟩
    obtain ⟨record, hrecord⟩ := hbyte 4094 (by decide)
    obtain ⟨checksum, hchecksum⟩ := hbyte 17 (by decide)
    exact ⟨image, record, checksum, himage, hrecord, hchecksum,
      (damaged_byte_rejected image 4094 hrecord (hflip record)).1 _ hpage,
      (damaged_byte_rejected image 17 hchecksum (hflip checksum)).1 _ hpage⟩
  · have hread : decodeTree ((encodeTree 31 0 [keyedLeaf]).toOption.getD []) =
        .ok (31, 0, [keyedLeaf]) := by decide +kernel
    exact ⟨_, _, _, rfl, rfl, rfl, (damaged_byte_rejected _ 61 rfl (hflip _)).2.1 _ hread,
      (damaged_byte_rejected _ 33 rfl (hflip _)).2.1 _ hread⟩
  · have hread : decodeDefinition
        ((encodeDefinition ⟨"by_age", "people", ["age"]⟩).toOption.getD []) =
        .ok ⟨"by_age", "people", ["age"]⟩ := by decide +kernel
    exact ⟨_, _, _, rfl, rfl, rfl, (damaged_byte_rejected _ 10 rfl (hflip _)).2.2 _ hread,
      (damaged_byte_rejected _ 38 rfl (hflip _)).2.2 _ hread⟩

end NovaBase.Index
