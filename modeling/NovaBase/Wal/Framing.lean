import NovaBase.Wal.Record
import NovaBase.Storage.PageImage

/-!
# Framing of the write-ahead log

A record is read from its own frame whatever follows, and every proper prefix
of a frame is a torn tail. Encoding produces frames, so a log written record by
record is read back record by record.
-/

namespace NovaBase.Wal

open Lib Lib.Bytes Lib.FramedLog Storage

/-- A complete frame is valid when its checksum matches, its number is the next one, and its
payload decodes. -/
theorem decodeFrame_eq_ok {count : Nat} {encoded : Bytes} {record : LogRecord} :
    decodeFrame count encoded = .ok record ↔
      fromBigEndian (slice encoded 28 32) =
          (crc32 encoded checksumOffset (checksumOffset + 4)).toNat ∧
        UInt64.ofNat (fromBigEndian (slice encoded 12 20)) = record.lsn ∧
        record.lsn.toNat = count ∧
        UInt64.ofNat (fromBigEndian (slice encoded 20 28)) = record.transactionId ∧
        decodeOperation (encoded[6]?.getD 0) (encoded.drop headerSize) = .ok record.operation := by
  have htag : (encoded.take headerSize)[6]? = encoded[6]? :=
    List.getElem?_take_of_lt (by decide)
  simp only [decodeFrame, slice_zero, slice_take encoded (show 20 ≤ headerSize by decide),
    slice_take encoded (show 28 ≤ headerSize by decide),
    slice_take encoded (show 32 ≤ headerSize by decide), htag, bind_eq_ok, require_eq_ok,
    pure_eq_ok, Except.ok.injEq]
  constructor
  · rintro ⟨-, hchecksum, -, hcount, operation, hoperation, rfl⟩
    exact ⟨hchecksum, rfl, hcount, rfl, hoperation⟩
  · rintro ⟨hchecksum, hlsn, hcount, htransaction, hoperation⟩
    exact ⟨(), hchecksum, (), hlsn ▸ hcount, record.operation, hoperation, by
      rw [hlsn, htransaction]⟩

/-- A record is found exactly when the header is sound and its frame is complete and valid. -/
theorem decodeRecord_eq_some {allowTornTail : Bool} {count total : Nat} {bytes : Bytes}
    {record : LogRecord} :
    decodeRecord allowTornTail count bytes = .ok (some (record, total)) ↔
      headerSize ≤ bytes.length ∧ total ≤ bytes.length ∧
        (∃ length, decodeHeader (bytes.take headerSize) = .ok length ∧
          total = headerSize + length) ∧
        decodeFrame count (bytes.take total) = .ok record := by
  unfold decodeRecord
  split
  · rename_i hshort
    constructor
    · intro h
      cases allowTornTail <;> simp [corruption] at h
    · rintro ⟨hle, -⟩
      omega
  · rename_i hlong
    simp only [slice_zero, bind_eq_ok]
    constructor
    · rintro ⟨length, hheader, h⟩
      split at h
      · cases allowTornTail <;> simp [corruption] at h
      · rename_i hfits
        simp only [bind_eq_ok, pure_eq_ok, Except.ok.injEq, Option.some.injEq,
          Prod.mk.injEq] at h
        obtain ⟨_, hframe, rfl, rfl⟩ := h
        exact ⟨by omega, by omega, ⟨length, hheader, rfl⟩, hframe⟩
    · rintro ⟨-, hfits, ⟨length, hheader, rfl⟩, hframe⟩
      refine ⟨length, hheader, ?_⟩
      rw [if_neg (by omega), hframe]
      rfl

@[simp] theorem decodeRecord_nil (count : Nat) : decodeRecord true count [] = .ok none := rfl

/-- A torn tail is an incomplete header, or a sound header with an incomplete payload. -/
theorem decodeRecord_eq_none {count : Nat} {bytes : Bytes} :
    decodeRecord true count bytes = .ok none ↔ bytes.length < headerSize ∨
      ∃ length, decodeHeader (bytes.take headerSize) = .ok length ∧
        bytes.length < headerSize + length := by
  unfold decodeRecord
  split
  · rename_i hshort
    simp [hshort]
  · rename_i hlong
    simp only [slice_zero, bind_eq_ok, hlong, false_or]
    constructor
    · rintro ⟨length, hheader, h⟩
      split at h
      · rename_i hshort
        exact ⟨length, hheader, hshort⟩
      · simp at h
    · rintro ⟨length, hheader, hshort⟩
      refine ⟨length, hheader, ?_⟩
      rw [if_pos hshort]
      rfl

/-- The log format is a framing. -/
theorem framing : Framing (decodeRecord true) where
  reads := by
    intro count bytes record total h
    obtain ⟨hlong, hle, ⟨length, hheader, rfl⟩, hframe⟩ := decodeRecord_eq_some.mp h
    have hlen : (bytes.take (headerSize + length)).length = headerSize + length := by
      simpa using hle
    refine ⟨hle, ?_, ?_⟩
    · rw [← List.length_pos_iff, hlen]
      simp [headerSize]
    · intro rest
      have htotal : (bytes.take (headerSize + length) ++ rest).take (headerSize + length) =
          bytes.take (headerSize + length) := by
        rw [List.take_append_of_le_length (by omega), List.take_take, Nat.min_self]
      have hhead : (bytes.take (headerSize + length) ++ rest).take headerSize =
          bytes.take headerSize := by
        rw [List.take_append_of_le_length (by omega), List.take_take, min_eq_left (by omega)]
      refine decodeRecord_eq_some.mpr ⟨?_, ?_, ⟨length, ?_, ?_⟩, ?_⟩
      · rw [List.length_append]; omega
      · rw [List.length_append]; omega
      · rw [hhead, hheader]
      · exact hlen
      · rw [hlen, htotal, hframe]
  torn := by
    intro count record frame h k hk
    have hread := h.2 []
    rw [List.append_nil] at hread
    obtain ⟨hlong, hle, ⟨length, hheader, hlength⟩, -⟩ := decodeRecord_eq_some.mp hread
    have htake : (frame.take k).length = k := by simp; omega
    rw [decodeRecord_eq_none, htake]
    rcases Nat.lt_or_ge k headerSize with hk' | hk'
    · exact .inl hk'
    · refine .inr ⟨length, ?_, by omega⟩
      rw [List.take_take, min_eq_left hk', hheader]
  shrinks := by
    intro count tail h k
    rw [decodeRecord_eq_none] at h ⊢
    have hle : (tail.take k).length ≤ tail.length := List.length_take_le' ..
    rcases h with hshort | ⟨length, hheader, hshort⟩
    · exact .inl (by omega)
    · rcases Nat.lt_or_ge (tail.take k).length headerSize with hk | hk
      · exact .inl hk
      · refine .inr ⟨length, ?_, by omega⟩
        rw [List.length_take] at hk
        rw [List.take_take, min_eq_left (by omega), hheader]

/-- A log decodes exactly to the records whose frames it starts with, before a torn tail. -/
theorem decodeRecords_eq_ok {bytes : Bytes} {records : List LogRecord} {last : Nat} :
    decodeRecords bytes true = .ok (records, last) ↔
      ∃ kept tail, bytes = kept ++ tail ∧ kept.length = last ∧
        Frames (decodeRecord true) 0 records kept ∧
        decodeRecord true records.length tail = .ok none :=
  scan_eq_ok framing decodeRecord_nil

section Encoding

variable {record : LogRecord} {tag : UInt8} {payload bytes : Bytes}

/-- The header of a record with a given checksum field. -/
def frameHeader (record : LogRecord) (tag : UInt8) (length checksum : Nat) : Bytes :=
  magic ++ (toBigEndian 2 version ++ ([tag, 0] ++
    (toBigEndian 4 length ++ (toBigEndian 8 record.lsn.toNat ++
      (toBigEndian 8 record.transactionId.toNat ++ (toBigEndian 4 checksum ++
        toBigEndian 4 0))))))

@[simp] theorem length_frameHeader (length checksum : Nat) :
    (frameHeader record tag length checksum).length = headerSize := by
  simp [frameHeader, magic, headerSize]

/-- The fields of a header, read back at their offsets. -/
theorem slice_frameHeader (record : LogRecord) (tag : UInt8) (length checksum : Nat) :
    slice (frameHeader record tag length checksum) 0 4 = magic ∧
      slice (frameHeader record tag length checksum) 4 6 = toBigEndian 2 version ∧
      slice (frameHeader record tag length checksum) 6 8 = [tag, 0] ∧
      slice (frameHeader record tag length checksum) 8 12 = toBigEndian 4 length ∧
      slice (frameHeader record tag length checksum) 12 20 = toBigEndian 8 record.lsn.toNat ∧
      slice (frameHeader record tag length checksum) 20 28 =
        toBigEndian 8 record.transactionId.toNat ∧
      slice (frameHeader record tag length checksum) 28 32 = toBigEndian 4 checksum ∧
      slice (frameHeader record tag length checksum) 32 36 = toBigEndian 4 0 := by
  have hwhole : slice (frameHeader record tag length checksum) 0 36 =
      frameHeader record tag length checksum := slice_self (by simp [headerSize])
  have hmagic : 0 + magic.length = 4 := rfl
  have hversion : 4 + (toBigEndian 2 version).length = 6 := by simp
  have htag : 6 + [tag, 0].length = 8 := rfl
  have hlength : 8 + (toBigEndian 4 length).length = 12 := by simp
  have hlsn : 12 + (toBigEndian 8 record.lsn.toNat).length = 20 := by simp
  have hid : 20 + (toBigEndian 8 record.transactionId.toNat).length = 28 := by simp
  have hchecksum : 28 + (toBigEndian 4 checksum).length = 32 := by simp
  obtain ⟨h0, h⟩ := slice_eq_append (hwhole.trans rfl) hmagic (by omega)
  obtain ⟨h4, h⟩ := slice_eq_append h hversion (by omega)
  obtain ⟨h6, h⟩ := slice_eq_append h htag (by omega)
  obtain ⟨h8, h⟩ := slice_eq_append h hlength (by omega)
  obtain ⟨h12, h⟩ := slice_eq_append h hlsn (by omega)
  obtain ⟨h20, h⟩ := slice_eq_append h hid (by omega)
  obtain ⟨h28, h⟩ := slice_eq_append h hchecksum (by omega)
  exact ⟨h0, h4, h6, h8, h12, h20, h28, h⟩

/-- Writing the checksum changes the checksum field only. -/
theorem checksum_splice (record : LogRecord) (tag : UInt8) (payload : Bytes) (checksum : Nat) :
    splice (frameHeader record tag payload.length 0 ++ payload) checksumOffset
        (toBigEndian 4 checksum) =
      frameHeader record tag payload.length checksum ++ payload := by
  have hmiddle : splice ((magic ++ (toBigEndian 2 version ++ ([tag, 0] ++
      (toBigEndian 4 payload.length ++ (toBigEndian 8 record.lsn.toNat ++
        toBigEndian 8 record.transactionId.toNat))))) ++ (toBigEndian 4 0 ++
          (toBigEndian 4 0 ++ payload))) checksumOffset (toBigEndian 4 checksum) = _ :=
    splice_middle _ _ _ _ (by simp [checksumOffset, magic]) (by simp)
  simpa only [frameHeader, List.append_assoc] using hmiddle

/-- The checksum does not depend on the checksum field. -/
theorem crc32_splice {bytes data : Bytes} (hdata : data.length = 4)
    (hlen : checksumOffset + 4 ≤ bytes.length) :
    crc32 (splice bytes checksumOffset data) checksumOffset (checksumOffset + 4) =
      crc32 bytes checksumOffset (checksumOffset + 4) := by
  exact congrArg (fun message => ~~~Checksum.register _ _ message)
    (Checksum.mask_splice (by rw [hdata]) hlen)

/-- An encoded record is its header, with the checksum of the whole, and its payload. -/
theorem encodeRecord_eq (h : encodeRecord record = .ok bytes) :
    ∃ tag payload, encodeOperation record.operation = .ok (tag, payload) ∧
      bytes = frameHeader record tag payload.length
        (crc32 bytes checksumOffset (checksumOffset + 4)).toNat ++ payload := by
  simp only [encodeRecord, bind_eq_ok, require_eq_ok, pure_eq_ok] at h
  obtain ⟨⟨tag, payload⟩, hoperation, -, -, hbytes⟩ := h
  refine ⟨tag, payload, hoperation, ?_⟩
  have hshape : magic ++ (toBigEndian 2 version ++ ([tag, 0] ++ (toBigEndian 4 payload.length ++
      (toBigEndian 8 record.lsn.toNat ++ (toBigEndian 8 record.transactionId.toNat ++
        (toBigEndian 4 0 ++ (toBigEndian 4 0 ++ payload))))))) =
      frameHeader record tag payload.length 0 ++ payload := by
    simp only [frameHeader, List.append_assoc]
  rw [hshape, Except.ok.injEq] at hbytes
  have hcrc : crc32 bytes checksumOffset (checksumOffset + 4) =
      crc32 (frameHeader record tag payload.length 0 ++ payload) checksumOffset
        (checksumOffset + 4) := by
    rw [← hbytes]
    exact crc32_splice (by simp) (by simp [headerSize, checksumOffset]; omega)
  rw [hcrc, ← checksum_splice, hbytes]

/-- Decoding an operation's tag and payload gives the operation back. -/
theorem decodeOperation_encodeOperation {operation : Operation}
    (h : encodeOperation operation = .ok (tag, payload)) :
    decodeOperation tag payload = .ok operation ∧ payload.length ≤ maxPayload := by
  cases operation with
  | pageWrite pageId page =>
      simp only [encodeOperation, bind_eq_ok, require_eq_ok, pure_eq_ok, Except.ok.injEq,
        Prod.mk.injEq] at h
      obtain ⟨-, rfl, image, himage, rfl, rfl⟩ := h
      have hlen := Page.length_toBytes himage
      have hinitial : slice (toBigEndian 8 page.id.toNat ++ image) 0 8 =
          toBigEndian 8 page.id.toNat := by
        rw [slice_append_left _ (by simp), slice_self (by simp)]
      have hsuffix : (toBigEndian 8 page.id.toNat ++ image).drop 8 = image :=
        List.drop_left' (by simp)
      have hid : fromBigEndian (toBigEndian 8 page.id.toNat) = page.id.toNat :=
        fromBigEndian_toBigEndian page.id.toNat_lt
      constructor
      · simp [decodeOperation, hinitial, hsuffix, hid, hlen, Page.fromBytes_toBytes himage]
      · simp [hlen, maxPayload]
        omega
  | _ =>
      simp only [encodeOperation, Except.ok.injEq, Prod.mk.injEq] at h
      obtain ⟨rfl, rfl⟩ := h
      exact ⟨rfl, Nat.zero_le _⟩

/-- An encoded record is a frame. -/
theorem reads_encodeRecord (h : encodeRecord record = .ok bytes) :
    Reads (decodeRecord true) record.lsn.toNat record bytes := by
  obtain ⟨tag, payload, hoperation, hbytes⟩ := encodeRecord_eq h
  obtain ⟨hdecode, hmax⟩ := decodeOperation_encodeOperation hoperation
  generalize hchecksum : (crc32 bytes checksumOffset (checksumOffset + 4)).toNat = checksum
    at hbytes
  have hsmall : checksum < 256 ^ 4 :=
    hchecksum ▸ (crc32 bytes checksumOffset (checksumOffset + 4)).isLt
  have hlen : bytes.length = headerSize + payload.length := by rw [hbytes]; simp
  have hhead : bytes.take headerSize = frameHeader record tag payload.length checksum := by
    rw [hbytes, List.take_left' (by simp)]
  have htail : bytes.drop headerSize = payload := by
    rw [hbytes, List.drop_left' (by simp)]
  obtain ⟨hmagic, hversion, htag, hlength, hlsn, htransaction, hstored, hreserved⟩ :=
    slice_frameHeader record tag payload.length checksum
  have htag0 : (frameHeader record tag payload.length checksum)[6]? = some tag := by
    have := congrArg (fun bytes => bytes[0]?) htag
    simpa [getElem?_slice] using this
  have htag1 : (frameHeader record tag payload.length checksum)[7]? = some 0 := by
    have := congrArg (fun bytes => bytes[1]?) htag
    simpa [getElem?_slice] using this
  have hversionValue : fromBigEndian (toBigEndian 2 version) = version :=
    fromBigEndian_toBigEndian (by decide)
  have hlengthValue : fromBigEndian (toBigEndian 4 payload.length) = payload.length :=
    fromBigEndian_toBigEndian (by simp [maxPayload, pageSize] at hmax; omega)
  have hlsnValue : fromBigEndian (toBigEndian 8 record.lsn.toNat) = record.lsn.toNat :=
    fromBigEndian_toBigEndian record.lsn.toNat_lt
  have htransactionValue : fromBigEndian (toBigEndian 8 record.transactionId.toNat) =
      record.transactionId.toNat := fromBigEndian_toBigEndian record.transactionId.toNat_lt
  have hheader : decodeHeader (frameHeader record tag payload.length checksum) =
      .ok payload.length := by
    simp only [decodeHeader, bind_eq_ok, require_eq_ok, pure_eq_ok, hmagic, hversion, hreserved,
      hlength, hversionValue, hlengthValue, htag1]
    exact ⟨(), trivial, (), trivial, (), ⟨trivial, rfl⟩, (), hmax, trivial⟩
  have hframe : decodeFrame record.lsn.toNat bytes = .ok record := by
    simp only [decodeFrame, slice_zero, bind_eq_ok, require_eq_ok, pure_eq_ok, hhead, htail,
      hstored, hlsn, htransaction, htag0, fromBigEndian_toBigEndian hsmall, hlsnValue,
      htransactionValue, UInt64.ofNat_toNat, Option.getD_some]
    exact ⟨(), hchecksum.symm, (), trivial, record.operation, hdecode, rfl⟩
  have hread : decodeRecord true record.lsn.toNat bytes = .ok (some (record, bytes.length)) := by
    refine decodeRecord_eq_some.mpr ⟨by omega, le_rfl, ⟨payload.length, ?_, hlen⟩, ?_⟩
    · rw [hhead, hheader]
    · rw [List.take_length, hframe]
  have hreads := (framing.reads hread).2
  rwa [List.take_length] at hreads

end Encoding

end NovaBase.Wal
