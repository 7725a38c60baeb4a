import NovaBase.Core.File
import NovaBase.Wal.Framing

/-!
# The append-only log

A session keeps the records in memory next to the file. Opening reads the file
back, appending encodes one record and writes it at the cursor, and flushing
synchronizes the file. `InStep` says that memory, file and cursor agree; every
successful call keeps it.
-/

namespace NovaBase.Wal

open Lib Lib.Bytes Lib.FramedLog Storage

/-- An open write-ahead log. -/
structure WriteAheadLog where
  file : File
  records : List LogRecord
  nextLsn : Lsn
  durableLsn : Option Lsn
  deriving DecidableEq

namespace WriteAheadLog

/-- Open the log in a file, validating its records and discarding a torn tail. -/
def openFile (file : File) : Result WriteAheadLog := do
  let (records, validLength) ← decodeRecords file.bytes true
  let file := if validLength ≠ file.bytes.length then file.setLen validLength else file
  return {
    file := file.seekEnd
    records := records
    nextLsn := match records.getLast? with
      | none => 0
      | some record => UInt64.ofNat (min (record.lsn.toNat + 1) (2 ^ 64 - 1))
    durableLsn := records.getLast?.map LogRecord.lsn }

/-- Encode a record and write it; it counts as appended once all of it is written. -/
def append (outcome : WriteOutcome) (transactionId : TransactionId) (operation : Operation)
    (log : WriteAheadLog) : Result Lsn × WriteAheadLog :=
  let lsn := log.nextLsn
  let record : LogRecord := ⟨lsn, transactionId, operation⟩
  match encodeRecord record with
  | .error cause => (.error cause, log)
  | .ok bytes =>
      match log.file.writeAll outcome bytes with
      | (.error cause, file) => (.error cause, { log with file := file })
      | (.ok _, file) =>
          let log := { log with file := file, records := log.records ++ [record] }
          if lsn.toNat + 1 < 2 ^ 64 then (.ok lsn, { log with nextLsn := lsn + 1 })
          else (.error (.storage "WAL LSN overflow"), log)

def begin (outcome : WriteOutcome) (transactionId : TransactionId) :
    WriteAheadLog → Result Lsn × WriteAheadLog :=
  append outcome transactionId .begin

def logPageWrite (outcome : WriteOutcome) (transactionId : TransactionId) (page : Page) :
    WriteAheadLog → Result Lsn × WriteAheadLog :=
  append outcome transactionId (.pageWrite page.id page)

def commit (outcome : WriteOutcome) (transactionId : TransactionId) :
    WriteAheadLog → Result Lsn × WriteAheadLog :=
  append outcome transactionId .commit

def abort (outcome : WriteOutcome) (transactionId : TransactionId) :
    WriteAheadLog → Result Lsn × WriteAheadLog :=
  append outcome transactionId .abort

/-- A checkpoint belongs to transaction zero. -/
def checkpoint (outcome : WriteOutcome) : WriteAheadLog → Result Lsn × WriteAheadLog :=
  append outcome 0 .checkpoint

/-- Synchronize every appended record. -/
def flush (log : WriteAheadLog) : WriteAheadLog :=
  { log with
    file := log.file.syncAll
    durableLsn := log.records.getLast?.map LogRecord.lsn }

/-- Synchronize every appended record, where the synchronization may fail. -/
def tryFlush (syncs : Bool) (log : WriteAheadLog) : Result Unit × WriteAheadLog :=
  if syncs then (.ok (), log.flush) else (.error .io, log)

end WriteAheadLog

/-- A call that appends one record. -/
inductive Call
  | begin (transactionId : TransactionId)
  | logPageWrite (transactionId : TransactionId) (page : Page)
  | commit (transactionId : TransactionId)
  | abort (transactionId : TransactionId)
  | checkpoint
  deriving DecidableEq

namespace Call

/-- Make the call, with a given outcome of its write. -/
def run (outcome : WriteOutcome) : Call → WriteAheadLog → Result Lsn × WriteAheadLog
  | .begin transactionId => WriteAheadLog.begin outcome transactionId
  | .logPageWrite transactionId page => WriteAheadLog.logPageWrite outcome transactionId page
  | .commit transactionId => WriteAheadLog.commit outcome transactionId
  | .abort transactionId => WriteAheadLog.abort outcome transactionId
  | .checkpoint => WriteAheadLog.checkpoint outcome

/-- The record that a call appends under a given number. -/
def record (lsn : Lsn) : Call → LogRecord
  | .begin transactionId => ⟨lsn, transactionId, .begin⟩
  | .logPageWrite transactionId page => ⟨lsn, transactionId, .pageWrite page.id page⟩
  | .commit transactionId => ⟨lsn, transactionId, .commit⟩
  | .abort transactionId => ⟨lsn, transactionId, .abort⟩
  | .checkpoint => ⟨lsn, 0, .checkpoint⟩

theorem run_eq_append (outcome : WriteOutcome) (call : Call) (log : WriteAheadLog) :
    call.run outcome log =
      log.append outcome (call.record log.nextLsn).transactionId
        (call.record log.nextLsn).operation := by
  cases call <;> rfl

/-- What a call can do: be refused by the encoder, store a prefix of its frame and fail, or store
the whole frame. -/
theorem run_cases (outcome : WriteOutcome) (call : Call) (log : WriteAheadLog) :
    (∃ cause, encodeRecord (call.record log.nextLsn) = .error cause ∧
      call.run outcome log = (.error cause, log)) ∨
    ∃ bytes, encodeRecord (call.record log.nextLsn) = .ok bytes ∧
      ((call.run outcome log = (.error .io,
          { log with file := log.file.store (bytes.take (log.file.stored outcome bytes)) })) ∨
        outcome = .complete ∧ log.file.stored outcome bytes = bytes.length ∧
          call.run outcome log =
            if log.nextLsn.toNat + 1 < 2 ^ 64 then
              (.ok log.nextLsn, { log with
                file := log.file.store bytes
                records := log.records ++ [call.record log.nextLsn]
                nextLsn := log.nextLsn + 1 })
            else
              (.error (.storage "WAL LSN overflow"), { log with
                file := log.file.store bytes
                records := log.records ++ [call.record log.nextLsn] })) := by
  have hrecord : (⟨log.nextLsn, (call.record log.nextLsn).transactionId,
      (call.record log.nextLsn).operation⟩ : LogRecord) = call.record log.nextLsn := by
    cases call <;> rfl
  rw [run_eq_append]
  simp only [WriteAheadLog.append, hrecord]
  cases hencode : encodeRecord (call.record log.nextLsn) with
  | error cause => exact .inl ⟨cause, rfl, rfl⟩
  | ok bytes =>
      refine .inr ⟨bytes, rfl, ?_⟩
      simp only [File.writeAll]
      by_cases hstored : outcome = .complete ∧ log.file.stored outcome bytes = bytes.length
      · obtain ⟨rfl, hcount⟩ := hstored
        exact .inr ⟨rfl, hcount, by simp [hcount]⟩
      · exact .inl (by simp [hstored])

end Call

/-- Make calls one after another; nothing is returned when one of them fails. -/
def appendAll : List Call → WriteAheadLog → Option WriteAheadLog
  | [], log => some log
  | call :: calls, log =>
      match call.run .complete log with
      | (.ok _, log) => appendAll calls log
      | (.error _, _) => none

theorem appendAll_append (first second : List Call) (log : WriteAheadLog) :
    appendAll (first ++ second) log = (appendAll first log).bind (appendAll second) := by
  induction first generalizing log with
  | nil => rfl
  | cons call calls ih =>
      rw [List.cons_append, appendAll, appendAll]
      cases call.run .complete log with
      | mk result log =>
          cases result with
          | error cause => rfl
          | ok lsn => exact ih log

/-- A record carries the number it was read under. -/
theorem lsn_of_reads {count : Nat} {record : LogRecord} {frame : Bytes}
    (h : Reads (decodeRecord true) count record frame) : record.lsn.toNat = count := by
  obtain ⟨-, -, -, hframe⟩ := decodeRecord_eq_some.mp (h.2 [])
  exact (decodeFrame_eq_ok.mp hframe).2.2.1

/-- Records are numbered by their positions. -/
theorem lsn_of_frames {n : Nat} {records : List LogRecord} {bytes : Bytes}
    (h : Frames (decodeRecord true) n records bytes) {i : Nat} {record : LogRecord}
    (hi : records[i]? = some record) : record.lsn.toNat = n + i := by
  induction h generalizing i with
  | nil n => simp at hi
  | cons head tail ih =>
      cases i with
      | zero =>
          obtain rfl : _ = record := by simpa using hi
          exact lsn_of_reads head
      | succ i =>
          have := ih (i := i) (by simpa using hi)
          omega

theorem lsn_of_getLast? {records : List LogRecord} {bytes : Bytes} {last : LogRecord}
    (h : Frames (decodeRecord true) 0 records bytes) (hlast : records.getLast? = some last) :
    last.lsn.toNat + 1 = records.length := by
  rw [List.getLast?_eq_getElem?] at hlast
  have hlsn := lsn_of_frames h hlast
  have hlt := (List.getElem?_eq_some_iff.mp hlast).1
  omega

/-- The records in memory are the records in the file, and the next one goes after them. -/
structure InStep (log : WriteAheadLog) : Prop where
  frames : Frames (decodeRecord true) 0 log.records log.file.bytes
  sound : log.file.Sound
  cursor : log.file.cursor = log.file.bytes.length
  next : log.nextLsn.toNat = log.records.length

/-- The log of a file that does not exist yet. -/
def WriteAheadLog.fresh : WriteAheadLog := ⟨⟨[], 0, 0⟩, [], 0, none⟩

theorem openFile_nil : WriteAheadLog.openFile ⟨[], 0, 0⟩ = .ok .fresh := rfl

theorem InStep.fresh : InStep .fresh := ⟨.nil 0, ⟨Nat.zero_le _, le_rfl⟩, rfl, rfl⟩

namespace InStep

variable {log : WriteAheadLog}

theorem room (h : InStep log) : log.nextLsn.toNat + 1 < 2 ^ 64 := by
  have hle := h.frames.length_le
  have hfits := h.sound.fits
  rw [h.next]
  simp only [maxFileLength] at hfits
  omega

/-- A call made in step fails without effect, stores a prefix of its frame, or appends its record
and stays in step. -/
theorem run_cases (h : InStep log) (outcome : WriteOutcome) (call : Call) :
    (∃ cause, encodeRecord (call.record log.nextLsn) = .error cause ∧
      call.run outcome log = (.error cause, log)) ∨
    ∃ bytes, encodeRecord (call.record log.nextLsn) = .ok bytes ∧
      Reads (decodeRecord true) log.records.length (call.record log.nextLsn) bytes ∧
      ((call.run outcome log = (.error .io,
          { log with file := log.file.store (bytes.take (log.file.stored outcome bytes)) })) ∨
        outcome = .complete ∧ log.file.bytes.length + bytes.length ≤ maxFileLength ∧
          call.run outcome log = (.ok log.nextLsn, { log with
            file := log.file.store bytes
            records := log.records ++ [call.record log.nextLsn]
            nextLsn := log.nextLsn + 1 })) := by
  rcases call.run_cases outcome log with ⟨cause, hencode, hrun⟩ | ⟨bytes, hencode, hrun⟩
  · exact .inl ⟨cause, hencode, hrun⟩
  · have hreads := reads_encodeRecord hencode
    have hlsn : (call.record log.nextLsn).lsn = log.nextLsn := by cases call <;> rfl
    rw [hlsn, h.next] at hreads
    refine .inr ⟨bytes, hencode, hreads, ?_⟩
    rcases hrun with hrun | ⟨rfl, hstored, hrun⟩
    · exact .inl hrun
    · rw [if_pos h.room] at hrun
      have hpos := List.length_pos_iff.mpr hreads.1
      simp only [File.stored, h.cursor] at hstored
      exact .inr ⟨rfl, by omega, hrun⟩

/-- Storing a whole frame for the next record keeps memory and file in step. -/
theorem store (h : InStep log) {record : LogRecord} {bytes : Bytes}
    (hreads : Reads (decodeRecord true) log.records.length record bytes)
    (hroom : log.file.bytes.length + bytes.length ≤ maxFileLength) :
    InStep { log with
      file := log.file.store bytes
      records := log.records ++ [record]
      nextLsn := log.nextLsn + 1 } where
  frames := by
    simp only [File.store_end h.cursor]
    exact h.frames.append (.single (by simpa using hreads))
  sound := h.sound.store_end h.cursor hroom
  cursor := by
    simp only [File.store_end h.cursor, List.length_append]
    simp [File.store, h.cursor]
  next := by
    have hroom := h.room
    have hnext := h.next
    simp only [UInt64.toNat_add, UInt64.toNat_one, List.length_append, List.length_singleton]
    omega

/-- A successful call appends its record under the next number, and its whole encoding. -/
theorem append (h : InStep log) {outcome : WriteOutcome} {call : Call} {lsn : Lsn}
    {next : WriteAheadLog} (hrun : call.run outcome log = (.ok lsn, next)) :
    InStep next ∧ lsn.toNat = log.records.length ∧ next.records = log.records ++ [call.record lsn] ∧
      next.durableLsn = log.durableLsn ∧ ∃ bytes, encodeRecord (call.record lsn) = .ok bytes ∧
        next.file.bytes = log.file.bytes ++ bytes := by
  rcases h.run_cases outcome call with ⟨cause, -, hcase⟩ | ⟨bytes, hbytes, hreads, hcase⟩
  · simp [hcase] at hrun
  · rcases hcase with hcase | ⟨-, hroom, hcase⟩
    · simp [hcase] at hrun
    · rw [hcase] at hrun
      obtain ⟨hlsn, rfl⟩ := Prod.mk.inj hrun
      obtain rfl := Except.ok.inj hlsn
      exact ⟨h.store hreads hroom, h.next, rfl, rfl, bytes, hbytes, File.store_end h.cursor⟩

theorem flush (h : InStep log) : InStep log.flush where
  frames := h.frames
  sound := ⟨h.sound.fits, le_rfl⟩
  cursor := h.cursor
  next := h.next

/-- Opening a file of frames and a torn tail keeps the frames. -/
theorem openFile_frames {file : File} (hsound : file.Sound) {records : List LogRecord}
    {kept tail : Bytes} (hbytes : file.bytes = kept ++ tail)
    (hframes : Frames (decodeRecord true) 0 records kept)
    (htail : decodeRecord true records.length tail = .ok none) :
    ∃ log, WriteAheadLog.openFile file = .ok log ∧ InStep log ∧ log.records = records ∧
      log.file.bytes = kept ∧ log.file.synced = min file.synced kept.length ∧
      log.durableLsn = records.getLast?.map LogRecord.lsn := by
  have hdecode : decodeRecords file.bytes true = .ok (records, kept.length) :=
    decodeRecords_eq_ok.mpr ⟨kept, tail, hbytes, rfl, hframes, htail⟩
  have htake : file.bytes.take kept.length = kept := by rw [hbytes, List.take_left]
  have hfile : (if kept.length ≠ file.bytes.length then file.setLen kept.length else file) =
      { file with bytes := kept, synced := min file.synced kept.length } := by
    split
    · rw [File.setLen, htake]
    · rename_i hwhole
      have hwhole' : file.bytes.length = kept.length := by omega
      have hkept : file.bytes = kept := by rw [← htake, ← hwhole', List.take_length]
      have hsynced : min file.synced kept.length = file.synced := by
        rw [← hwhole', min_eq_left hsound.synced]
      rw [hsynced, ← hkept]
  have hopen : WriteAheadLog.openFile file = .ok {
      file := { bytes := kept, cursor := kept.length, synced := min file.synced kept.length }
      records := records
      nextLsn := match records.getLast? with
        | none => 0
        | some record => UInt64.ofNat (min (record.lsn.toNat + 1) (2 ^ 64 - 1))
      durableLsn := records.getLast?.map LogRecord.lsn } := by
    simp only [WriteAheadLog.openFile, hdecode, ok_bind, hfile, pure_eq_ok]
    rfl
  refine ⟨_, hopen, ?_, rfl, rfl, rfl, rfl⟩
  have hle := hframes.length_le
  have hfits := hsound.fits
  refine ⟨hframes, ⟨?_, Nat.min_le_right ..⟩, rfl, ?_⟩
  · rw [hbytes, List.length_append] at hfits
    exact le_trans (Nat.le_add_right ..) hfits
  · rw [hbytes, List.length_append] at hfits
    simp only [maxFileLength] at hfits
    cases hlast : records.getLast? with
    | none => simp [List.getLast?_eq_none_iff.mp hlast]
    | some last =>
        have hnumber := lsn_of_getLast? hframes hlast
        simp only [UInt64.toNat_ofNat']
        omega

/-- A log that opens is in step, and its file is the part of the old one that holds its records. -/
theorem of_openFile {file : File} (hsound : file.Sound)
    (hopen : WriteAheadLog.openFile file = .ok log) :
    InStep log ∧ (∃ tail, file.bytes = log.file.bytes ++ tail ∧
      decodeRecord true log.records.length tail = .ok none) ∧
      log.file.synced = min file.synced log.file.bytes.length ∧
      log.durableLsn = log.records.getLast?.map LogRecord.lsn := by
  have hdecode := hopen
  simp only [WriteAheadLog.openFile, bind_eq_ok] at hdecode
  obtain ⟨⟨records, validLength⟩, hdecode, -⟩ := hdecode
  obtain ⟨kept, tail, hbytes, rfl, hframes, htail⟩ := decodeRecords_eq_ok.mp hdecode
  obtain ⟨found, hfound, hstep, rfl, rfl, hsynced, hdurable⟩ :=
    openFile_frames hsound hbytes hframes htail
  obtain rfl : found = log := by simpa [hfound] using hopen
  exact ⟨hstep, ⟨tail, hbytes, htail⟩, hsynced, hdurable⟩

end InStep

end NovaBase.Wal
