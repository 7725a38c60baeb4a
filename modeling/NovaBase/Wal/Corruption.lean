import NovaBase.Storage.PageFit
import NovaBase.Wal.Log

/-!
# A damaged byte in the log

One byte of a log file is replaced. The checksum covers everything but its own
field, so the damage is reported, with one exception: the payload length is
trusted before the checksum is verified. A marker record whose length field
then reaches past the end of the file passes for a torn tail.
-/

namespace NovaBase.Wal

open Lib Lib.Bytes Lib.FramedLog Storage

/-- Records without a payload. -/
def Operation.isMarker : Operation → Bool
  | .pageWrite _ _ => false
  | _ => true

theorem payload_of_isMarker {operation : Operation} {tag : UInt8} {payload : Bytes}
    (h : encodeOperation operation = .ok (tag, payload)) :
    (operation.isMarker = true → payload = []) ∧
      (operation.isMarker = false → payload.length = maxPayload) := by
  cases operation with
  | pageWrite pageId page =>
      simp only [encodeOperation, bind_eq_ok, require_eq_ok, pure_eq_ok, Except.ok.injEq,
        Prod.mk.injEq] at h
      obtain ⟨-, rfl, image, himage, rfl, rfl⟩ := h
      have hlen := Page.length_toBytes himage
      simp [Operation.isMarker, hlen, maxPayload, Nat.add_comm]
  | _ =>
      simp only [encodeOperation, Except.ok.injEq, Prod.mk.injEq] at h
      simp [Operation.isMarker, h.2]

/-- An operation is decoded from a payload of its own length only. -/
theorem decodeOperation_length {operation other : Operation} {tag : UInt8}
    {payload found : Bytes} (h : encodeOperation operation = .ok (tag, payload))
    (hfound : decodeOperation tag found = .ok other) : found.length = payload.length := by
  cases operation with
  | pageWrite pageId page =>
      have hlen := (payload_of_isMarker h).2 rfl
      simp only [encodeOperation, bind_eq_ok, require_eq_ok, pure_eq_ok, Except.ok.injEq,
        Prod.mk.injEq] at h
      obtain ⟨-, rfl, image, himage, rfl, rfl⟩ := h
      simp only [decodeOperation] at hfound
      simp at hfound
      rw [hlen, hfound.1, maxPayload, Nat.add_comm]
  | _ =>
      simp only [encodeOperation, Except.ok.injEq, Prod.mk.injEq] at h
      obtain ⟨rfl, rfl⟩ := h
      by_cases hnil : found = []
      · rw [hnil]
      · simp [decodeOperation, hnil, corruption] at hfound

theorem decodeHeader_length {header : Bytes} {length : Nat} (h : decodeHeader header = .ok length) :
    length = fromBigEndian (slice header 8 12) ∧ length ≤ maxPayload := by
  simp only [decodeHeader, bind_eq_ok, require_eq_ok, pure_eq_ok, Except.ok.injEq] at h
  obtain ⟨-, -, -, -, -, -, -, hmax, rfl⟩ := h
  exact ⟨rfl, hmax⟩

/-- The payload length a marker's header announces once byte `i` of its frame is `value`. -/
def announcedLength (i : Nat) (value : UInt8) : Nat :=
  fromBigEndian ((toBigEndian 4 0).set (i - 8) value)

section Frame

variable {record : LogRecord} {encoded : Bytes} {i : Nat} {old value : UInt8}

/-- Damage outside the length field leaves the frame complete, and its checksum wrong. -/
theorem decodeRecord_set_outside (h : encodeRecord record = .ok encoded)
    (hold : encoded[i]? = some old) (hne : value ≠ old) (hi : i < 8 ∨ 12 ≤ i)
    (rest : Bytes) (found : Option (LogRecord × Nat)) :
    decodeRecord true record.lsn.toNat (encoded.set i value ++ rest) ≠ .ok found := by
  obtain ⟨tag, payload, hoperation, hencoded⟩ := encodeRecord_eq h
  obtain ⟨-, hmax⟩ := decodeOperation_encodeOperation hoperation
  generalize hchecksum : (crc32 encoded checksumOffset (checksumOffset + 4)).toNat = checksum
    at hencoded
  obtain ⟨-, -, -, hlength, -, -, hstored, -⟩ :=
    slice_frameHeader record tag payload.length checksum
  have hlen : encoded.length = headerSize + payload.length := by rw [hencoded]; simp
  have hlenSet : (encoded.set i value).length = headerSize + payload.length := by simpa using hlen
  have hslice {start stop : Nat} (hstop : stop ≤ headerSize) (hout : i < start ∨ stop ≤ i) :
      slice (encoded.set i value) start stop =
        slice (frameHeader record tag payload.length checksum) start stop := by
    rw [slice_set_of_not_mem _ _ hout, hencoded, slice_append_left _ (by simpa using hstop)]
  have hannounced : ∀ length, decodeHeader ((encoded.set i value ++ rest).take headerSize) =
      .ok length → length = payload.length := by
    intro length hheader
    rw [(decodeHeader_length hheader).1, slice_take _ (by decide),
      slice_append_left _ (by rw [hlenSet]; simp only [headerSize]; omega), hslice (by decide) hi,
        hlength,
      fromBigEndian_toBigEndian (by simp [maxPayload, pageSize] at hmax; omega)]
  intro hdecode
  cases found with
  | none =>
      rcases decodeRecord_eq_none.mp hdecode with hshort | ⟨length, hheader, hshort⟩
      · rw [List.length_append, hlenSet] at hshort
        omega
      · rw [List.length_append, hlenSet, hannounced length hheader] at hshort
        omega
  | some found =>
      obtain ⟨-, -, ⟨length, hheader, htotal⟩, hframe⟩ := decodeRecord_eq_some.mp hdecode
      have hwhole : (encoded.set i value ++ rest).take found.2 = encoded.set i value := by
        rw [htotal, hannounced length hheader, List.take_left' hlenSet]
      rw [hwhole] at hframe
      have hchecked := (decodeFrame_eq_ok.mp hframe).1
      have hslot : slice encoded 28 32 = toBigEndian 4 checksum := by
        rw [hencoded, slice_append_left _ (by simp [headerSize]), hstored]
      have hsealed : Checksum.Sealed 0xedb88320#32 (BitVec.allOnes 32) checksumOffset
          (checksumOffset + 4) encoded := by
        calc
          fromBigEndian (slice encoded 28 32) = checksum := by
            rw [hslot]
            exact fromBigEndian_toBigEndian
              (hchecksum ▸ (crc32 encoded checksumOffset (checksumOffset + 4)).isLt)
          _ = (crc32 encoded checksumOffset (checksumOffset + 4)).toNat := hchecksum.symm
      exact Checksum.not_sealed_set (by decide) (by decide) hsealed hold hne hchecked

/-- The header of a frame of which a byte of the length field has changed: that field, and the
others. -/
theorem slices_set_inside {tag : UInt8} {payload : Bytes} {checksum : Nat}
    (hencoded : encoded = frameHeader record tag payload.length checksum ++ payload)
    (hi : 8 ≤ i ∧ i < 12) (rest : Bytes) :
    slice ((encoded.set i value ++ rest).take headerSize) 8 12 =
        (toBigEndian 4 payload.length).set (i - 8) value ∧
      ∀ {start stop : Nat}, stop ≤ headerSize → stop ≤ 8 ∨ 12 ≤ start →
        slice ((encoded.set i value ++ rest).take headerSize) start stop =
          slice (frameHeader record tag payload.length checksum) start stop := by
  obtain ⟨-, -, -, hlength, -⟩ := slice_frameHeader record tag payload.length checksum
  have hlong : headerSize ≤ (encoded.set i value).length := by
    rw [List.length_set, hencoded]
    simp
  constructor
  · rw [slice_take _ (by decide),
      slice_append_left _ (le_trans (by decide : 12 ≤ headerSize) hlong),
      slice_set_of_mem _ _ hi.1 hi.2, hencoded, slice_append_left _ (by simp [headerSize]), hlength]
  · intro start stop hstop hout
    rw [slice_take _ hstop, slice_append_left _ (le_trans hstop hlong),
      slice_set_of_not_mem _ _ (by omega), hencoded, slice_append_left _ (by simpa using hstop)]

/-- The length that is announced then is no longer that of the payload. -/
theorem announced_set_inside {tag : UInt8} {payload : Bytes} {checksum : Nat}
    (hencoded : encoded = frameHeader record tag payload.length checksum ++ payload)
    (hmax : payload.length ≤ maxPayload) (hold : encoded[i]? = some old) (hne : value ≠ old)
    (hi : 8 ≤ i ∧ i < 12) (rest : Bytes) {length : Nat}
    (hheader : decodeHeader ((encoded.set i value ++ rest).take headerSize) = .ok length) :
    length ≠ payload.length := by
  intro heq
  have hfield : slice encoded 8 12 = toBigEndian 4 payload.length := by
    obtain ⟨-, -, -, hlength, -⟩ := slice_frameHeader record tag payload.length checksum
    rw [hencoded, slice_append_left _ (by simp [headerSize]), hlength]
  have hannounced := (decodeHeader_length hheader).1
  rw [(slices_set_inside hencoded hi rest).1, heq] at hannounced
  have hback : fromBigEndian (toBigEndian 4 payload.length) = payload.length :=
    fromBigEndian_toBigEndian (by simp [maxPayload, pageSize] at hmax; omega)
  have hsame := fromBigEndian_injective (by simp) (hback.trans hannounced)
  have hbyte := congrArg (fun bytes => bytes[i - 8]?) hsame
  simp only [List.getElem?_set_self', ← hfield, getElem?_slice] at hbyte
  rw [if_pos (by omega), show 8 + (i - 8) = i by omega, hold] at hbyte
  exact hne (by simpa using hbyte.symm)

/-- No record is read from a frame of which a byte of the length field has changed: the operation
says how long its payload is. -/
theorem decodeRecord_set_inside_ne_some (h : encodeRecord record = .ok encoded)
    (hold : encoded[i]? = some old) (hne : value ≠ old) (hi : 8 ≤ i ∧ i < 12) (rest : Bytes)
    (found : LogRecord × Nat) :
    decodeRecord true record.lsn.toNat (encoded.set i value ++ rest) ≠ .ok (some found) := by
  obtain ⟨tag, payload, hoperation, hencoded⟩ := encodeRecord_eq h
  obtain ⟨-, hmax⟩ := decodeOperation_encodeOperation hoperation
  generalize (crc32 encoded checksumOffset (checksumOffset + 4)).toNat = checksum at hencoded
  obtain ⟨-, -, htag, -⟩ := slice_frameHeader record tag payload.length checksum
  have hlong : headerSize ≤ (encoded.set i value).length := by
    rw [List.length_set, hencoded]
    simp
  intro hdecode
  obtain ⟨-, hle, ⟨length, hheader, htotal⟩, hframe⟩ := decodeRecord_eq_some.mp hdecode
  have hdecoded := (decodeFrame_eq_ok.mp hframe).2.2.2.2
  have htagByte : ((encoded.set i value ++ rest).take found.2)[6]? = some tag := by
    have hbyte := congrArg (fun bytes => bytes[0]?) htag
    simp only [getElem?_slice] at hbyte
    rw [List.getElem?_take_of_lt (by simp only [htotal, headerSize]; omega),
      List.getElem?_append_left (lt_of_lt_of_le (by decide) hlong),
      List.getElem?_set_ne (by omega), hencoded,
      List.getElem?_append_left (by simp [headerSize])]
    simpa using hbyte
  rw [htagByte, Option.getD_some] at hdecoded
  have hsame := decodeOperation_length hoperation hdecoded
  rw [List.length_drop, List.length_take, min_eq_left hle, htotal,
    Nat.add_sub_cancel_left] at hsame
  exact announced_set_inside hencoded hmax hold hne hi rest hheader hsame

/-- The damaged header of a record without payload is still a header, if its length is allowed. -/
theorem decodeHeader_set_inside {tag : UInt8} {checksum : Nat}
    (hencoded : encoded = frameHeader record tag ([] : Bytes).length checksum ++ [])
    (hi : 8 ≤ i ∧ i < 12) (rest : Bytes) (hbound : announcedLength i value ≤ maxPayload) :
    decodeHeader ((encoded.set i value ++ rest).take headerSize) =
      .ok (announcedLength i value) := by
  obtain ⟨hread, hslice⟩ :
      slice ((encoded.set i value ++ rest).take headerSize) 8 12 = _ ∧ _ :=
    slices_set_inside hencoded hi rest
  obtain ⟨hmagic, hversion, htag, -, -, -, -, hreserved⟩ :=
    slice_frameHeader record tag ([] : Bytes).length checksum
  have hreservedByte : ((encoded.set i value ++ rest).take headerSize)[7]? = some 0 := by
    have hbyte := congrArg (fun bytes => bytes[1]?)
      ((hslice (by decide) (by decide)).trans htag)
    simpa [getElem?_slice] using hbyte
  have hversionValue : fromBigEndian (toBigEndian 2 version) = version :=
    fromBigEndian_toBigEndian (by decide)
  simp only [decodeHeader, bind_eq_ok, require_eq_ok, pure_eq_ok, hread,
    (hslice (by decide) (by decide)).trans hmagic,
    (hslice (by decide) (by decide)).trans hversion, hversionValue,
    (hslice (by decide) (by decide)).trans hreserved, hreservedByte]
  exact ⟨(), trivial, (), trivial, (), ⟨trivial, rfl⟩, (), hbound, rfl⟩

/-- Damage inside the length field changes the announced length; a complete frame of another
length is never valid, so the record either fails or looks incomplete. -/
theorem decodeRecord_set_inside (h : encodeRecord record = .ok encoded)
    (hold : encoded[i]? = some old) (hne : value ≠ old) (hi : 8 ≤ i ∧ i < 12)
    (rest : Bytes) :
    (∀ found, decodeRecord true record.lsn.toNat (encoded.set i value ++ rest) ≠
        .ok (some found)) ∧
      (decodeRecord true record.lsn.toNat (encoded.set i value ++ rest) = .ok none ↔
        record.operation.isMarker = true ∧ announcedLength i value ≤ maxPayload ∧
          encoded.length + rest.length < headerSize + announcedLength i value) := by
  refine ⟨decodeRecord_set_inside_ne_some h hold hne hi rest, ?_⟩
  obtain ⟨tag, payload, hoperation, hencoded⟩ := encodeRecord_eq h
  obtain ⟨hmarker, hpage⟩ := payload_of_isMarker hoperation
  generalize (crc32 encoded checksumOffset (checksumOffset + 4)).toNat = checksum at hencoded
  have hlen : encoded.length = headerSize + payload.length := by rw [hencoded]; simp
  rw [decodeRecord_eq_none, List.length_append, List.length_set]
  constructor
  · rintro (hshort | ⟨length, hheader, hshort⟩)
    · omega
    · obtain ⟨hannounced, hbound⟩ := decodeHeader_length hheader
      cases hkind : record.operation.isMarker with
      | false =>
          have := hpage hkind
          omega
      | true =>
          rw [(slices_set_inside hencoded hi rest).1, hmarker hkind, List.length_nil,
            ← announcedLength] at hannounced
          rw [← hannounced]
          exact ⟨rfl, hbound, hshort⟩
  · rintro ⟨hkind, hbound, hshort⟩
    obtain rfl := hmarker hkind
    exact .inr ⟨_, decodeHeader_set_inside hencoded hi rest hbound, hshort⟩

end Frame

/-- One call of a run in which every call succeeds. -/
theorem appendAll_cons {call : Call} {calls : List Call} {log last : WriteAheadLog}
    (hstep : InStep log) (h : appendAll (call :: calls) log = some last) :
    ∃ bytes next, encodeRecord (call.record log.nextLsn) = .ok bytes ∧
      call.run .complete log = (.ok log.nextLsn, next) ∧ InStep next ∧
      next.file.bytes = log.file.bytes ++ bytes ∧ appendAll calls next = some last := by
  rw [appendAll] at h
  rcases hstep.run_cases .complete call with ⟨cause, -, hrun⟩ | ⟨bytes, hencode, hreads, hrun⟩
  · simp [hrun] at h
  · rcases hrun with hrun | ⟨-, hroom, hrun⟩
    · simp [hrun] at h
    · rw [hrun] at h
      exact ⟨bytes, _, hencode, hrun, hstep.store hreads hroom, File.store_end hstep.cursor, h⟩

/-- A run in which every call succeeds stays in step and only adds to the file. -/
theorem appendAll_inStep {calls : List Call} {log last : WriteAheadLog} (hstep : InStep log)
    (h : appendAll calls log = some last) :
    InStep last ∧ ∃ rest, last.file.bytes = log.file.bytes ++ rest := by
  induction calls generalizing log with
  | nil =>
      obtain rfl : log = last := by simpa [appendAll] using h
      exact ⟨hstep, [], (List.append_nil _).symm⟩
  | cons call calls ih =>
      obtain ⟨bytes, next, -, -, hnext, hbytes, h⟩ := appendAll_cons hstep h
      obtain ⟨hlast, rest, hrest⟩ := ih hnext h
      exact ⟨hlast, bytes ++ rest, by rw [hrest, hbytes, List.append_assoc]⟩

/-- The call whose frame covers a byte of the log. -/
theorem appendAll_at {calls : List Call} {log last : WriteAheadLog} (hstep : InStep log)
    (h : appendAll calls log = some last) {position : Nat}
    (hstart : log.file.bytes.length ≤ position) (hstop : position < last.file.bytes.length) :
    ∃ before call after middle, calls = before ++ call :: after ∧
      appendAll before log = some middle ∧ middle.file.bytes.length ≤ position ∧
      ∀ bytes, encodeRecord (call.record middle.nextLsn) = .ok bytes →
        position < middle.file.bytes.length + bytes.length := by
  induction calls generalizing log with
  | nil =>
      obtain rfl : log = last := by simpa [appendAll] using h
      omega
  | cons call calls ih =>
      obtain ⟨bytes, next, hencode, hrun, hnext, hbytes, hrest⟩ := appendAll_cons hstep h
      rcases Nat.lt_or_ge position next.file.bytes.length with hlt | hge
      · refine ⟨[], call, calls, log, rfl, rfl, hstart, fun found hfound => ?_⟩
        obtain rfl : bytes = found := by simpa [hencode] using hfound
        rw [hbytes, List.length_append] at hlt
        exact hlt
      · obtain ⟨before, found, after, middle, rfl, hbefore, hle, hlt⟩ := ih hnext hrest hge
        refine ⟨call :: before, found, after, middle, rfl, ?_, hle, hlt⟩
        rw [appendAll, hrun]
        exact hbefore

/-- Calls that append a record without a payload. -/
def Call.isMarker : Call → Bool
  | .logPageWrite _ _ => false
  | _ => true

theorem Call.isMarker_record (call : Call) (lsn : Lsn) :
    (call.record lsn).operation.isMarker = call.isMarker := by
  cases call <;> rfl

/-- The byte at `position`, once it is `value`, makes the marker record that `call` appends to
`log` reach past the end of a file of `total` bytes. -/
def Overstates (total position : Nat) (value : UInt8) (call : Call) (log : WriteAheadLog) : Prop :=
  let start := log.file.bytes.length
  call.isMarker = true ∧ start + 8 ≤ position ∧ position < start + 12 ∧
    announcedLength (position - start) value ≤ maxPayload ∧
    total < start + headerSize + announcedLength (position - start) value

/-- Some marker record of the log overstates its length once the byte at `position` is `value`. -/
def OverstatesLength (calls : List Call) (position : Nat) (value : UInt8) : Prop :=
  ∃ before call after log last, calls = before ++ call :: after ∧
    appendAll before .fresh = some log ∧ appendAll calls .fresh = some last ∧
    Overstates last.file.bytes.length position value call log

/-- Reading a log fails exactly when it does not stop quietly at the first frame that is no
record. -/
theorem decodeRecords_fails_iff {log : WriteAheadLog} (hstep : InStep log) {back : Bytes}
    (hne : back ≠ []) {found : Result (Option (LogRecord × Nat))}
    (hdecode : decodeRecord true log.records.length back = found)
    (hread : ∀ read, found ≠ .ok (some read)) :
    (∃ cause, decodeRecords (log.file.bytes ++ back) true = .error cause) ↔ found ≠ .ok none := by
  rw [decodeRecords]
  cases found with
  | error cause =>
      rw [scan_error hstep.frames hne hdecode]
      simp
  | ok read =>
      cases read with
      | none =>
          rw [scan_torn hstep.frames hdecode]
          simp
      | some read => exact absurd rfl (hread read)

/-- Damage to one frame of a log. -/
theorem decodeRecords_set_at {call : Call} {calls : List Call} {log last : WriteAheadLog}
    (hstep : InStep log) (h : appendAll (call :: calls) log = some last) {bytes : Bytes}
    (hencode : encodeRecord (call.record log.nextLsn) = .ok bytes) {position : Nat}
    (hstart : log.file.bytes.length ≤ position)
    (hstop : position < log.file.bytes.length + bytes.length) {old value : UInt8}
    (hold : last.file.bytes[position]? = some old) (hne : value ≠ old) :
    (∃ cause, decodeRecords (last.file.bytes.set position value) true = .error cause) ↔
      ¬Overstates last.file.bytes.length position value call log := by
  obtain ⟨found, next, hfound, -, hnext, hbytes, h⟩ := appendAll_cons hstep h
  obtain rfl : bytes = found := by simpa [hencode] using hfound
  obtain ⟨-, rest, hrest⟩ := appendAll_inStep hnext h
  have hwhole : last.file.bytes = log.file.bytes ++ (bytes ++ rest) := by
    rw [hrest, hbytes, List.append_assoc]
  obtain ⟨i, rfl⟩ : ∃ i, position = log.file.bytes.length + i :=
    ⟨position - log.file.bytes.length, by omega⟩
  have hi : i < bytes.length := by omega
  have hset : last.file.bytes.set (log.file.bytes.length + i) value =
      log.file.bytes ++ (bytes.set i value ++ rest) := by
    rw [hwhole, List.set_append_right _ _ (by omega), Nat.add_sub_cancel_left,
      List.set_append_left _ _ hi]
  have hbyte : bytes[i]? = some old := by
    rw [hwhole, List.getElem?_append_right (by omega), Nat.add_sub_cancel_left,
      List.getElem?_append_left hi] at hold
    exact hold
  have hcount : (call.record log.nextLsn).lsn.toNat = log.records.length := by
    rw [← hstep.next]
    cases call <;> rfl
  have hne' : bytes.set i value ++ rest ≠ [] := by
    rw [← List.length_pos_iff, List.length_append, List.length_set]
    omega
  have htotal : last.file.bytes.length =
      log.file.bytes.length + (bytes.length + rest.length) := by
    rw [hwhole, List.length_append, List.length_append]
  have hscan : ∀ found, decodeRecord true log.records.length (bytes.set i value ++ rest) = found →
      (∀ read, found ≠ .ok (some read)) →
      ((∃ cause, decodeRecords (last.file.bytes.set (log.file.bytes.length + i) value) true =
        .error cause) ↔ found ≠ .ok none) := by
    intro found hdecode hread
    rw [hset]
    exact decodeRecords_fails_iff hstep hne' hdecode hread
  by_cases hinside : 8 ≤ i ∧ i < 12
  · obtain ⟨hread, hnone⟩ := decodeRecord_set_inside hencode hbyte hne hinside rest
    rw [hcount] at hread hnone
    rw [hscan _ rfl hread, not_iff_not, hnone, Call.isMarker_record]
    simp only [Overstates, Nat.add_sub_cancel_left, htotal]
    constructor
    · rintro ⟨hkind, hbound, hshort⟩
      exact ⟨hkind, by omega, by omega, hbound, by omega⟩
    · rintro ⟨hkind, -, -, hbound, hshort⟩
      exact ⟨hkind, hbound, by omega⟩
  · have hfail := decodeRecord_set_outside hencode hbyte hne (by omega) rest
    rw [hcount] at hfail
    rw [hscan _ rfl fun read => hfail _]
    simp only [hfail, ne_eq, not_false_eq_true, true_iff]
    rintro ⟨-, hlow, hhigh, -⟩
    omega

/-- A damaged byte is reported unless it makes a marker record overstate its length. -/
theorem decodeRecords_set {calls : List Call} {log : WriteAheadLog}
    (hrun : appendAll calls .fresh = some log) {position : Nat} {old value : UInt8}
    (hold : log.file.bytes[position]? = some old) (hne : value ≠ old) :
    (∃ cause, decodeRecords (log.file.bytes.set position value) true = .error cause) ↔
      ¬OverstatesLength calls position value := by
  have hposition := (List.getElem?_eq_some_iff.mp hold).1
  have hsplit : ∀ {before call after middle}, calls = before ++ call :: after →
      appendAll before .fresh = some middle → InStep middle ∧
        appendAll (call :: after) middle = some log := by
    intro before call after middle hcalls hbefore
    rw [hcalls, appendAll_append, hbefore] at hrun
    exact ⟨(appendAll_inStep .fresh hbefore).1, hrun⟩
  constructor
  · rintro hfail ⟨before, call, after, middle, last, hcalls, hbefore, hlast, hover⟩
    obtain rfl : log = last := by simpa [hrun] using hlast
    obtain ⟨hstep, hrest⟩ := hsplit hcalls hbefore
    obtain ⟨bytes, -, hencode, -⟩ := appendAll_cons hstep hrest
    have hlen : headerSize ≤ bytes.length := by
      obtain ⟨tag, payload, -, hbytes⟩ := encodeRecord_eq hencode
      rw [hbytes]
      simp
    obtain ⟨-, hlow, hhigh, -⟩ := id hover
    simp only [headerSize] at hlen
    exact (decodeRecords_set_at hstep hrest hencode (by omega) (by omega) hold hne).mp hfail hover
  · intro hover
    obtain ⟨before, call, after, middle, hcalls, hbefore, hlow, hhigh⟩ :=
      appendAll_at .fresh hrun (Nat.zero_le _) hposition
    obtain ⟨hstep, hrest⟩ := hsplit hcalls hbefore
    obtain ⟨bytes, -, hencode, -⟩ := appendAll_cons hstep hrest
    exact (decodeRecords_set_at hstep hrest hencode hlow (hhigh bytes hencode) hold hne).mpr
      fun h => hover ⟨before, call, after, middle, log, hcalls, hbefore, hrun, h⟩

/-- A call whose record can be encoded and has room succeeds. -/
theorem appendAll_of_room {call : Call} {log : WriteAheadLog} {bytes : Bytes}
    (hstep : InStep log) (hencode : encodeRecord (call.record log.nextLsn) = .ok bytes)
    (hroom : log.file.bytes.length + bytes.length ≤ maxFileLength) :
    ∃ next, InStep next ∧ next.nextLsn = log.nextLsn + 1 ∧
      next.file.bytes = log.file.bytes ++ bytes ∧
      ∀ calls, appendAll (call :: calls) log = appendAll calls next := by
  have hstored : log.file.stored .complete bytes = bytes.length := by
    simp only [File.stored, hstep.cursor]
    omega
  have hwrite : log.file.writeAll .complete bytes = (.ok (), log.file.store bytes) := by
    simp [File.writeAll, hstored]
  have hrecord : (⟨log.nextLsn, (call.record log.nextLsn).transactionId,
      (call.record log.nextLsn).operation⟩ : LogRecord) = call.record log.nextLsn := by
    cases call <;> rfl
  have hreads := reads_encodeRecord hencode
  have hlsn : (call.record log.nextLsn).lsn = log.nextLsn := by cases call <;> rfl
  rw [hlsn, hstep.next] at hreads
  have hrun : call.run .complete log = (.ok log.nextLsn, { log with
      file := log.file.store bytes
      records := log.records ++ [call.record log.nextLsn]
      nextLsn := log.nextLsn + 1 }) := by
    simp only [Call.run_eq_append, WriteAheadLog.append, hrecord, hencode, hwrite,
      if_pos hstep.room]
  exact ⟨_, hstep.store hreads hroom, rfl, File.store_end hstep.cursor,
    fun calls => by rw [appendAll, hrun]⟩

/-- A transaction writes a page with a record. -/
def pageWriteCalls : List Call := [.begin 7, .logPageWrite 7 ⟨3, [some [7]]⟩, .commit 7]

theorem length_encodeRecord {record : LogRecord} {bytes payload : Bytes} {tag : UInt8}
    (h : encodeRecord record = .ok bytes)
    (hoperation : encodeOperation record.operation = .ok (tag, payload)) :
    bytes.length = headerSize + payload.length := by
  obtain ⟨_, _, hsame, hshape⟩ := encodeRecord_eq h
  obtain ⟨-, rfl⟩ := Prod.mk.inj (Except.ok.inj (hoperation.symm.trans hsame))
  rw [hshape]
  simp

/-- Its page takes 4140 bytes of the log. -/
theorem encodeRecord_pageWrite : ∃ bytes,
    encodeRecord ⟨1, 7, .pageWrite 3 ⟨3, [some [7]]⟩⟩ = .ok bytes ∧ bytes.length = 4140 := by
  have hfits : (⟨3, [some [7]]⟩ : Page).Fits := show _ ≤ pageSize by decide
  obtain ⟨image, himage⟩ := Page.toBytes_of_fits hfits
  have hlength := Page.length_toBytes himage
  have hoperation : encodeOperation (.pageWrite 3 ⟨3, [some [7]]⟩) =
      .ok (1, toBigEndian 8 3 ++ image) := by
    simp [encodeOperation, himage]
  have hsmall : (toBigEndian 8 3 ++ image).length < 2 ^ 32 := by
    simp [hlength, pageSize]
  obtain ⟨bytes, hbytes⟩ : ∃ bytes, encodeRecord ⟨1, 7, .pageWrite 3 ⟨3, [some [7]]⟩⟩ =
      .ok bytes := by
    simp only [encodeRecord, hoperation, ok_bind, require_of _ hsmall, pure_eq_ok]
    exact ⟨_, rfl⟩
  refine ⟨bytes, hbytes, (length_encodeRecord hbytes hoperation).trans ?_⟩
  simp [hlength, pageSize, headerSize]

/-- Its three records take 36, 4140 and 36 bytes. -/
theorem appendAll_pageWriteCalls : ∃ first second log,
    appendAll (pageWriteCalls.take 1) .fresh = some first ∧ first.file.bytes.length = 36 ∧
    appendAll (pageWriteCalls.take 2) .fresh = some second ∧ second.file.bytes.length = 4176 ∧
    appendAll pageWriteCalls .fresh = some log ∧ log.file.bytes.length = 4212 ∧
    log.file.bytes[4187]? = some 0 := by
  obtain ⟨begun, hbegun, hbegunLength⟩ :
      ∃ bytes, encodeRecord ⟨0, 7, .begin⟩ = .ok bytes ∧ bytes.length = 36 := ⟨_, rfl, rfl⟩
  obtain ⟨done, hdone, hdoneLength, hzero⟩ :
      ∃ bytes, encodeRecord ⟨2, 7, .commit⟩ = .ok bytes ∧ bytes.length = 36 ∧
        bytes[11]? = some 0 := ⟨_, rfl, rfl, rfl⟩
  obtain ⟨written, hwritten, hwrittenLength⟩ := encodeRecord_pageWrite
  obtain ⟨first, hfirst, hfirstLsn, hfirstBytes, hfirstRun⟩ :=
    @appendAll_of_room (.begin 7) _ _ InStep.fresh hbegun (by rw [hbegunLength]; decide)
  have hfirstLsn : first.nextLsn = 1 := hfirstLsn
  have hfirstLength : first.file.bytes.length = 36 := by
    rw [hfirstBytes, List.length_append, hbegunLength]
    rfl
  obtain ⟨second, hsecond, hsecondLsn, hsecondBytes, hsecondRun⟩ :=
    @appendAll_of_room (.logPageWrite 7 ⟨3, [some [7]]⟩) _ _ hfirst
      (hfirstLsn ▸ hwritten) (by rw [hfirstLength, hwrittenLength]; decide)
  have hsecondLsn : second.nextLsn = 2 := hsecondLsn.trans (by rw [hfirstLsn]; rfl)
  have hsecondLength : second.file.bytes.length = 4176 := by
    rw [hsecondBytes, List.length_append, hfirstLength, hwrittenLength]
  obtain ⟨log, -, -, hbytes, hrun⟩ :=
    @appendAll_of_room (.commit 7) _ _ hsecond
      (hsecondLsn ▸ hdone) (by rw [hsecondLength, hdoneLength]; decide)
  refine ⟨first, second, log, hfirstRun [], hfirstLength, (hfirstRun _).trans (hsecondRun []),
    hsecondLength, (hfirstRun _).trans ((hsecondRun _).trans (hrun [])), ?_, ?_⟩
  · rw [hbytes, List.length_append, hsecondLength, hdoneLength]
  · rw [hbytes, List.getElem?_append_right (by rw [hsecondLength]; decide), hsecondLength]
    exact hzero

/-- Damage to the page is reported. A length that makes the commit record reach past the end of the
file is not. -/
theorem decodeRecords_set_pageWrite : ∃ log old, appendAll pageWriteCalls .fresh = some log ∧
    log.file.bytes[100]? = some old ∧
    (∃ cause, decodeRecords (log.file.bytes.set 100 (old ^^^ 1)) true = .error cause) ∧
    ¬∃ cause, decodeRecords (log.file.bytes.set 4187 200) true = .error cause := by
  obtain ⟨first, second, log, hfirst, hfirstLength, hsecond, hsecondLength, hrun, hlength, hzero⟩ :=
    appendAll_pageWriteCalls
  obtain ⟨old, hold⟩ : ∃ old, log.file.bytes[100]? = some old :=
    ⟨_, List.getElem?_eq_getElem (by rw [hlength]; decide)⟩
  have hflip : old ^^^ 1 ≠ old := by
    intro h
    exact absurd ((UInt8.xor_right_inj old).mp (h.trans UInt8.xor_zero.symm)) (by decide)
  refine ⟨log, old, hrun, hold, (decodeRecords_set hrun hold hflip).mpr ?_,
    fun hreported => (decodeRecords_set hrun hzero (by decide)).mp hreported ?_⟩
  · rintro ⟨before, call, after, middle, last, hcalls, hbefore, -, -, hlow, hhigh, -⟩
    match before with
    | [] =>
        obtain rfl := Option.some.inj hbefore
        exact absurd hhigh (by decide)
    | [_] =>
        obtain ⟨rfl, -⟩ := List.cons.inj hcalls
        obtain rfl := Option.some.inj (hfirst.symm.trans hbefore)
        rw [hfirstLength] at hhigh
        exact absurd hhigh (by decide)
    | [_, _] =>
        obtain ⟨rfl, hrest⟩ := List.cons.inj hcalls
        obtain ⟨rfl, -⟩ := List.cons.inj hrest
        obtain rfl := Option.some.inj (hsecond.symm.trans hbefore)
        rw [hsecondLength] at hlow
        exact absurd hlow (by decide)
    | _ :: _ :: _ :: rest =>
        have hlong := congrArg List.length hcalls
        simp [pageWriteCalls] at hlong
  · refine ⟨pageWriteCalls.take 2, .commit 7, [], second, log, rfl, hsecond, hrun, rfl, ?_⟩
    rw [hlength, hsecondLength]
    decide

/-- A begin record that announces 200 bytes of payload hides itself and the commit after it. -/
theorem overstated_length_not_reported : ¬∀ (calls : List Call) (log : WriteAheadLog)
    (position : Nat) (old value : UInt8), appendAll calls .fresh = some log →
      log.file.bytes[position]? = some old → value ≠ old →
        ∃ cause, decodeRecords (log.file.bytes.set position value) true = .error cause := by
  intro h
  have hquiet : ((appendAll [.begin 7, .commit 7] .fresh).map fun log =>
      decide (decodeRecords (log.file.bytes.set 11 200) true = .ok ([], 0))) = some true := by
    decide +kernel
  have hold : (((appendAll [.begin 7, .commit 7] .fresh).map fun log =>
      log.file.bytes).getD [])[11]? = some 0 := by decide
  obtain ⟨cause, hcause⟩ := h [.begin 7, .commit 7] _ 11 0 200 rfl hold (by decide)
  simp only [Option.map_eq_some_iff, decide_eq_true_eq] at hquiet
  obtain ⟨log, hlog, hquiet⟩ := hquiet
  have hsame : log = _ := (Option.some.inj hlog).symm
  rw [← hsame] at hcause
  simp [hquiet] at hcause

end NovaBase.Wal
