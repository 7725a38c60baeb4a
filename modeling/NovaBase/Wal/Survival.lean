import NovaBase.Wal.Log

/-!
# What survives in a log file

`Keeps kept more tail file` splits a log file into synchronized records, later
records, and an incomplete tail. A cut at or after the synchronized prefix
takes later records only, and opening the file returns everything but the tail.
-/

namespace NovaBase.Wal

open Lib Lib.Bytes Lib.FramedLog

/-- The records `kept` are synchronized; then come the records `more` and an incomplete tail. -/
structure Keeps (kept more : List LogRecord) (tail : Bytes) (file : File) : Prop where
  sound : file.Sound
  frames : ∃ front back, file.bytes = front ++ (back ++ tail) ∧
    Frames (decodeRecord true) 0 kept front ∧ Frames (decodeRecord true) kept.length more back ∧
    front.length ≤ file.synced
  torn : decodeRecord true (kept.length + more.length) tail = .ok none

namespace Keeps

variable {kept more : List LogRecord} {tail : Bytes} {file : File} {log : WriteAheadLog}

theorem crash (h : Keeps kept more tail file) {length : Nat}
    (hlength : file.synced ≤ length) : ∃ fewer rest, Keeps kept fewer rest (file.crash length) := by
  obtain ⟨front, back, hbytes, hfront, hback, hsynced⟩ := h.frames
  obtain ⟨m, left, rest, hcut, hleft, hrest⟩ := hback.cut framing h.torn (length - front.length)
  refine ⟨more.take m, rest, h.sound.setLen length, ⟨front, left, ?_, hfront, hleft, ?_⟩, hrest⟩
  · simp only [File.crash]
    rw [hbytes, List.take_append, List.take_of_length_le (by omega), hcut]
  · simp only [File.crash]
    omega

/-- A file that keeps records opens, with these records first. -/
theorem openFile (h : Keeps kept more tail file) :
    ∃ log, WriteAheadLog.openFile file = .ok log ∧ InStep log ∧ log.records = kept ++ more ∧
      Keeps kept more [] log.file ∧ log.durableLsn = (kept ++ more).getLast?.map LogRecord.lsn ∧
      log.file.synced = min file.synced log.file.bytes.length := by
  obtain ⟨front, back, hbytes, hfront, hback, hsynced⟩ := h.frames
  have hframes : Frames (decodeRecord true) 0 (kept ++ more) (front ++ back) :=
    hfront.append (by simpa using hback)
  obtain ⟨log, hopen, hstep, hrecords, hkept, hlogSynced, hdurable⟩ :=
    InStep.openFile_frames h.sound (by rw [hbytes, List.append_assoc]) hframes
      (by simpa using h.torn)
  refine ⟨log, hopen, hstep, hrecords, ⟨hstep.sound, ⟨front, back, ?_, hfront, hback, ?_⟩, rfl⟩,
    hdurable, by rw [hlogSynced, hkept]⟩
  · rw [hkept, List.append_nil]
  · rw [hlogSynced, List.length_append]
    omega

/-- Appending a frame leaves the synchronized records alone. -/
theorem store (h : Keeps kept more [] log.file) (hstep : InStep log)
    (hrecords : log.records = kept ++ more) {record : LogRecord} {bytes : Bytes}
    (hreads : Reads (decodeRecord true) log.records.length record bytes)
    (hroom : log.file.bytes.length + bytes.length ≤ maxFileLength) :
    Keeps kept (more ++ [record]) [] (log.file.store bytes) := by
  obtain ⟨front, back, hbytes, hfront, hback, hsynced⟩ := h.frames
  rw [hrecords, List.length_append] at hreads
  refine ⟨hstep.sound.store_end hstep.cursor hroom,
    ⟨front, back ++ bytes, ?_, hfront, hback.append (.single hreads), ?_⟩, rfl⟩
  · rw [File.store_end hstep.cursor, hbytes]
    simp only [List.append_nil, List.append_assoc]
  · have := hstep.sound.synced
    have := hstep.cursor
    simp only [File.store]
    omega

theorem flush (h : Keeps kept more [] log.file) : Keeps kept more [] log.flush.file := by
  obtain ⟨front, back, hbytes, hfront, hback, hsynced⟩ := h.frames
  refine ⟨⟨h.sound.fits, le_rfl⟩, ⟨front, back, hbytes, hfront, hback, ?_⟩, rfl⟩
  simp only [WriteAheadLog.flush, File.syncAll]
  exact le_trans hsynced h.sound.synced

/-- Less may be asked to survive. -/
theorem forget (h : Keeps kept more tail file) : Keeps [] (kept ++ more) tail file := by
  obtain ⟨front, back, hbytes, hfront, hback, hsynced⟩ := h.frames
  refine ⟨h.sound, ⟨[], front ++ back, by simpa using hbytes, .nil 0,
    hfront.append (by simpa using hback), Nat.zero_le _⟩, by simpa using h.torn⟩

/-- After a synchronization any number of the records counts as kept. -/
theorem promote (h : Keeps kept more tail log.file) {first rest : List LogRecord}
    (hrecords : first ++ rest = kept ++ more) : Keeps first rest tail log.flush.file := by
  obtain ⟨front, back, hbytes, hnil, hframes, -⟩ := h.forget.frames
  cases hnil
  rw [← hrecords] at hframes
  obtain ⟨a, b, rfl, ha, hb⟩ := hframes.split first.length
  rw [List.take_left] at ha
  rw [List.drop_left] at hb
  rw [List.nil_append, List.append_assoc] at hbytes
  have htorn := h.torn
  rw [← List.length_append, ← hrecords, List.length_append] at htorn
  refine ⟨⟨h.sound.fits, le_rfl⟩, ⟨a, b, hbytes, ha, by simpa using hb, ?_⟩, htorn⟩
  simp only [WriteAheadLog.flush, File.syncAll]
  rw [hbytes, List.length_append]
  exact Nat.le_add_right ..

/-- A proper prefix of the next frame becomes the tail. -/
theorem store_prefix (h : Keeps kept more [] log.file) (hstep : InStep log)
    (hrecords : log.records = kept ++ more) {record : LogRecord} {bytes : Bytes}
    (hreads : Reads (decodeRecord true) log.records.length record bytes) {count : Nat}
    (hcount : count < bytes.length)
    (hroom : log.file.bytes.length + count ≤ maxFileLength) :
    Keeps kept more (bytes.take count) (log.file.store (bytes.take count)) := by
  obtain ⟨front, back, hbytes, hfront, hback, hsynced⟩ := h.frames
  have hlen : (bytes.take count).length = count := by simp; omega
  rw [hrecords, List.length_append] at hreads
  refine ⟨hstep.sound.store_end hstep.cursor (by omega), ⟨front, back, ?_, hfront, hback, ?_⟩,
    framing.torn hreads count hcount⟩
  · rw [File.store_end hstep.cursor, hbytes]
    simp only [List.append_nil, List.append_assoc]
  · have := hstep.sound.synced
    have := hstep.cursor
    simp only [File.store]
    omega

end Keeps

/-- The frame of a begin record of transaction 1, first in its log. -/
def beginFrame : Bytes :=
  [78, 86, 87, 76, 0, 1, 0, 0, 0, 0, 0, 0, 0, 0, 0, 0, 0, 0, 0, 0, 0, 0, 0, 0, 0, 0, 0, 1,
    180, 24, 172, 192, 0, 0, 0, 0]

end NovaBase.Wal
