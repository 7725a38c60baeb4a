import NovaBase.Lib.Run
import NovaBase.Wal.Log

/-!
# Torn tails

The file of a log that only ever grew by complete appends is the image of its
records, one encoding after another. A cut leaves the records whose encodings
lie below it and an incomplete frame, and opening the file drops that frame.
Sessions of appends and flushes, each ended by a cut that spares what was
flushed, therefore lose the records above the cut and nothing else.
-/

namespace NovaBase.Wal

open Lib Lib.Bytes Lib.FramedLog Storage

/-- The encoding of a record. -/
def frameOf (record : LogRecord) : Bytes := (encodeRecord record).toOption.getD []

/-- The encodings of records, one after another. -/
def imageOf (records : List LogRecord) : Bytes := records.flatMap frameOf

theorem frameOf_of {record : LogRecord} {bytes : Bytes} (h : encodeRecord record = .ok bytes) :
    frameOf record = bytes := by
  rw [frameOf, h]
  rfl

theorem imageOf_append (a b : List LogRecord) : imageOf (a ++ b) = imageOf a ++ imageOf b :=
  List.flatMap_append

/-- Every record carries its position as its number, and has an encoding. -/
def Numbered (records : List LogRecord) : Prop :=
  ∀ i record, records[i]? = some record →
    record.lsn.toNat = i ∧ ∃ bytes, encodeRecord record = .ok bytes

section Numbered

variable {records : List LogRecord}

theorem numbered_nil : Numbered [] := by
  intro i record h
  simp at h

theorem Numbered.take (h : Numbered records) (n : Nat) : Numbered (records.take n) := by
  intro i record hi
  rw [List.getElem?_take] at hi
  split at hi
  · exact h i record hi
  · simp at hi

theorem Numbered.concat (h : Numbered records) {record : LogRecord} {bytes : Bytes}
    (hlsn : record.lsn.toNat = records.length) (hbytes : encodeRecord record = .ok bytes) :
    Numbered (records ++ [record]) := by
  intro i found hi
  rcases Nat.lt_or_ge i records.length with hlt | hge
  · rw [List.getElem?_append_left hlt] at hi
    exact h i found hi
  · rw [List.getElem?_append_right hge, List.getElem?_singleton,
      Option.ite_none_right_eq_some] at hi
    obtain ⟨hzero, hrecord⟩ := hi
    cases hrecord
    exact ⟨by omega, bytes, hbytes⟩

/-- Each record is read from its encoding. -/
theorem Numbered.reads (h : Numbered records) {i : Nat} {record : LogRecord}
    (hi : records[i]? = some record) : Reads (decodeRecord true) i record (frameOf record) := by
  obtain ⟨hlsn, bytes, hbytes⟩ := h i record hi
  have hreads := reads_encodeRecord hbytes
  rwa [hlsn, ← frameOf_of hbytes] at hreads

theorem Numbered.frames (h : Numbered records) :
    Frames (decodeRecord true) 0 records (imageOf records) := by
  induction records using List.reverseRecOn with
  | nil => exact .nil 0
  | append_singleton records record ih =>
      have hlast : (records ++ [record])[records.length]? = some record := by simp
      have hinit : Numbered records := by simpa using h.take records.length
      rw [imageOf_append]
      refine (ih hinit).append (.single ?_)
      have hframe : imageOf [record] = frameOf record := by simp [imageOf]
      rw [hframe, Nat.zero_add]
      exact h.reads hlast

/-- A cut through the image of records leaves as many of them as lie below it, and an incomplete
frame. -/
theorem Numbered.cut (h : Numbered records) (length : Nat) :
    ∃ n tail, n ≤ records.length ∧
      (imageOf records).take length = imageOf (records.take n) ++ tail ∧
      decodeRecord true n tail = .ok none ∧
      ((imageOf (records.take n)).length ≤ length) ∧
      ∀ m, n < m → m ≤ records.length → length < (imageOf (records.take m)).length := by
  induction records using List.reverseRecOn with
  | nil => exact ⟨0, [], le_rfl, by simp [imageOf], rfl, Nat.zero_le _, fun m hm hle => by
      simp only [List.length_nil] at hle
      omega⟩
  | append_singleton records record ih =>
      have hlast : (records ++ [record])[records.length]? = some record := by simp
      have hinit : Numbered records := by simpa using h.take records.length
      have hframe : imageOf [record] = frameOf record := by simp [imageOf]
      have hreads := h.reads hlast
      rw [imageOf_append, hframe]
      rcases Nat.lt_or_ge length (imageOf records).length with hlt | hge
      · obtain ⟨n, tail, hn, htake, htorn, hle, hlongest⟩ := ih hinit
        refine ⟨n, tail, by rw [List.length_append]; omega, ?_, htorn, ?_, fun m hm hmle => ?_⟩
        · rw [List.take_append_of_le_length hlt.le, htake, List.take_append_of_le_length hn]
        · rwa [List.take_append_of_le_length hn]
        · rcases Nat.lt_or_ge records.length m with hall | hsome
          · rw [List.take_of_length_le (by rw [List.length_append]; exact hall), imageOf_append,
              List.length_append]
            omega
          · rw [List.take_append_of_le_length hsome]
            exact hlongest m hm hsome
      · rw [List.take_append, List.take_of_length_le hge]
        rcases Nat.lt_or_ge (length - (imageOf records).length) (frameOf record).length with
          hlt | hwhole
        · refine ⟨records.length, (frameOf record).take (length - (imageOf records).length),
            by simp, by rw [List.take_left], framing.torn hreads _ hlt, ?_, fun m hm hmle => ?_⟩
          · rwa [List.take_left]
          · rw [List.take_of_length_le (by rw [List.length_append]; exact hm), imageOf_append,
              hframe, List.length_append]
            omega
        · refine ⟨records.length + 1, [], by simp, ?_, rfl, ?_, fun m hm hmle => ?_⟩
          · rw [List.take_of_length_le hwhole, List.take_of_length_le (by simp), imageOf_append,
              hframe, List.append_nil]
          · rw [List.take_of_length_le (by simp), imageOf_append, hframe, List.length_append]
            omega
          · rw [List.length_append, List.length_singleton] at hmle
            omega

end Numbered

/-- The file holds the image of the records in memory, and the next record goes after them. -/
structure Exact (log : WriteAheadLog) : Prop where
  inStep : InStep log
  numbered : Numbered log.records
  bytes : log.file.bytes = imageOf log.records

namespace Exact

variable {log next : WriteAheadLog}

theorem fresh : Exact .fresh := ⟨.fresh, numbered_nil, rfl⟩

/-- A successful call appends its record under the next number. -/
theorem append (h : Exact log) {outcome : WriteOutcome} {call : Call} {lsn : Lsn}
    (hrun : call.run outcome log = (.ok lsn, next)) :
    Exact next ∧ lsn.toNat = log.records.length ∧ next.records = log.records ++ [call.record lsn] ∧
      next.durableLsn = log.durableLsn := by
  obtain ⟨hstep, hlsn, hrecords, hdurable, bytes, hencode, hbytes⟩ := h.inStep.append hrun
  have hnumber : (call.record lsn).lsn.toNat = log.records.length := by
    rw [← hlsn]
    cases call <;> rfl
  refine ⟨⟨hstep, hrecords ▸ h.numbered.concat hnumber hencode, ?_⟩, hlsn, hrecords, hdurable⟩
  rw [hbytes, hrecords, h.bytes, imageOf_append]
  simp [imageOf, frameOf_of hencode]

theorem flush (h : Exact log) : Exact log.flush := ⟨h.inStep.flush, h.numbered, h.bytes⟩

/-- Opening the file after a cut gives the longest run of records whose encodings lie below it,
and truncates the file to them. -/
theorem reopen (h : Exact log) (length : Nat) :
    ∃ reopened n, WriteAheadLog.openFile (log.file.crash length) = .ok reopened ∧
      Exact reopened ∧ n ≤ log.records.length ∧ reopened.records = log.records.take n ∧
      (imageOf (log.records.take n)).length ≤ length ∧
      ∀ m, n < m → m ≤ log.records.length → length < (imageOf (log.records.take m)).length := by
  obtain ⟨n, tail, hn, htake, htorn, hle, hlongest⟩ := h.numbered.cut length
  have hbytes : (log.file.crash length).bytes = imageOf (log.records.take n) ++ tail := by
    rw [← htake, ← h.bytes]
    rfl
  have hkept := h.numbered.take n
  have hcount : (log.records.take n).length = n := by simpa using hn
  obtain ⟨reopened, hopen, hstep, hrecords, hfile, -⟩ :=
    InStep.openFile_frames (h.inStep.sound.setLen length) hbytes hkept.frames (by rwa [hcount])
  exact ⟨reopened, n, hopen, ⟨hstep, hrecords ▸ hkept, by rw [hfile, hrecords]⟩, hn, hrecords, hle,
    hlongest⟩

end Exact

/-- What is done to an open log. -/
inductive Work
  | append (call : Call)
  | flush
  deriving DecidableEq

/-- A session: what is done while the log is open, and the length that the file is then cut to. -/
structure Shift where
  work : List Work
  cut : Nat
  deriving DecidableEq

/-- An open log with its history: the records found at its opening and appended since, those that
were there at the last flush, and the length that the file had then. -/
structure Opened where
  log : WriteAheadLog
  written : List LogRecord
  flushed : List LogRecord
  flushedLength : Nat
  deriving DecidableEq

/-- A log file between sessions, with the same history and the offset of the last cut. -/
structure Left where
  file : File
  written : List LogRecord
  flushed : List LogRecord
  flushedLength : Nat
  cut : Nat
  deriving DecidableEq

/-- An appended record goes by the call and the number that it has answered. -/
def Opened.step (opened : Opened) : Work → Option Opened
  | .append call =>
      match call.run .complete opened.log with
      | (.ok lsn, log) => some { opened with
          log := log
          written := opened.written ++ [call.record lsn] }
      | (.error _, _) => none
  | .flush => some {
      log := opened.log.flush
      written := opened.written
      flushed := opened.written
      flushedLength := opened.log.file.bytes.length }

namespace Left

/-- A log that does not exist yet. -/
def start : Left := ⟨⟨[], 0, 0⟩, [], [], 0, 0⟩

/-- Open the file that was left. -/
def reopen (left : Left) : Result Opened := do
  let log ← WriteAheadLog.openFile left.file
  return ⟨log, log.records, left.flushed, left.flushedLength⟩

/-- One session, whose appends succeed and whose cut spares what was flushed. -/
def step (left : Left) (shift : Shift) : Option Left :=
  match left.reopen with
  | .error _ => none
  | .ok opened =>
      match run Opened.step shift.work opened with
      | none => none
      | some last =>
          if last.flushedLength ≤ shift.cut then
            some ⟨last.log.file.crash shift.cut, last.written, last.flushed, last.flushedLength,
              shift.cut⟩
          else none

end Left

/-- History and log agree: the log has what was written, and the flushed records come first. -/
structure Opened.Faithful (opened : Opened) : Prop where
  exact : Exact opened.log
  records : opened.log.records = opened.written
  flushed : opened.flushed <+: opened.written
  flushedLength : opened.flushedLength = (imageOf opened.flushed).length

theorem Opened.Faithful.step {opened next : Opened} {work : Work} (h : opened.Faithful)
    (hstep : opened.step work = some next) : next.Faithful := by
  cases work with
  | append call =>
      cases hrun : call.run .complete opened.log with
      | mk result log =>
          cases result with
          | error cause => simp [Opened.step, hrun] at hstep
          | ok lsn =>
              obtain rfl := by simpa [Opened.step, hrun] using hstep
              obtain ⟨hexact, -, hrecords, -⟩ := h.exact.append hrun
              refine ⟨hexact, ?_, h.flushed.trans (List.prefix_append ..), h.flushedLength⟩
              rw [hrecords, h.records]
  | flush =>
      obtain rfl := by simpa [Opened.step] using hstep
      refine ⟨h.exact.flush, h.records, List.prefix_rfl, ?_⟩
      rw [h.exact.bytes, h.records]

/-- A cut at or after the flushed length leaves every flushed record. -/
theorem flushed_le_survivors {written flushed : List LogRecord} {n length : Nat}
    (hflushed : flushed <+: written) (hlength : (imageOf flushed).length ≤ length)
    (hlongest : ∀ m, n < m → m ≤ written.length → length < (imageOf (written.take m)).length) :
    flushed <+: written.take n := by
  obtain ⟨rest, rfl⟩ := hflushed
  have hle : flushed.length ≤ n := by
    by_contra hlt
    have hmore := hlongest flushed.length (not_le.mp hlt) (by simp)
    rw [List.take_left] at hmore
    omega
  rw [List.take_append, List.take_of_length_le hle]
  exact List.prefix_append ..

/-- What the next opening finds. -/
structure Left.Reopens (left : Left) (opened : Opened) : Prop where
  opens : left.reopen = .ok opened
  faithful : opened.Faithful
  longest : ∃ n ≤ left.written.length, opened.log.records = left.written.take n ∧
    (imageOf (left.written.take n)).length ≤ left.cut ∧
    ∀ m, n < m → m ≤ left.written.length → left.cut < (imageOf (left.written.take m)).length
  flushed : left.flushed <+: opened.log.records

theorem reopens_of_faithful {last : Opened} (h : last.Faithful) {cut : Nat}
    (hcut : last.flushedLength ≤ cut) :
    ∃ opened, Left.Reopens ⟨last.log.file.crash cut, last.written, last.flushed,
      last.flushedLength, cut⟩ opened := by
  obtain ⟨reopened, n, hopen, hexact, hn, hrecords, hle, hlongest⟩ := h.exact.reopen cut
  rw [h.records] at hn hrecords hle hlongest
  have hflushed : last.flushed <+: reopened.records := by
    rw [hrecords]
    exact flushed_le_survivors h.flushed (h.flushedLength ▸ hcut) hlongest
  refine ⟨⟨reopened, reopened.records, last.flushed, last.flushedLength⟩, ?_,
    ⟨hexact, rfl, hflushed, h.flushedLength⟩, ⟨n, hn, hrecords, hle, hlongest⟩, hflushed⟩
  rw [Left.reopen, hopen]
  rfl

theorem reopens_start : ∃ opened, Left.start.Reopens opened := by
  refine ⟨⟨.fresh, [], [], 0⟩, rfl, ⟨.fresh, rfl, List.prefix_rfl, rfl⟩, ?_, List.prefix_rfl⟩
  exact ⟨0, le_rfl, rfl, Nat.zero_le _, fun m hm hle => absurd hle (not_le.mpr hm)⟩

theorem reopens_step {left next : Left} {shift : Shift} (h : ∃ opened, left.Reopens opened)
    (hstep : left.step shift = some next) : ∃ opened, next.Reopens opened := by
  obtain ⟨opened, hopens, hfaithful, -⟩ := h
  rw [Left.step, hopens] at hstep
  dsimp only at hstep
  cases hrun : run Opened.step shift.work opened with
  | none => simp [hrun] at hstep
  | some last =>
      simp only [hrun, Option.ite_none_right_eq_some, Option.some.injEq] at hstep
      obtain ⟨hcut, rfl⟩ := hstep
      exact reopens_of_faithful (run_invariant Opened.Faithful.step hfaithful hrun) hcut

/-- After any sessions the log opens. It returns the longest run of the records written before
whose encodings lie below the last cut, and so every flushed one; the file is truncated to the
image of exactly these. Throughout the new session the file holds the image of what has been
written, and each record carries its position as its number. -/
theorem torn_tails_lose_only_torn_records {shifts : List Shift} {left : Left}
    (hrun : run Left.step shifts .start = some left) :
    ∃ opened, left.reopen = .ok opened ∧
      (∃ n ≤ left.written.length, opened.log.records = left.written.take n ∧
        (imageOf (left.written.take n)).length ≤ left.cut ∧
        ∀ m, n < m → m ≤ left.written.length →
          left.cut < (imageOf (left.written.take m)).length) ∧
      left.flushed <+: opened.log.records ∧
      opened.log.file.bytes = imageOf opened.log.records ∧
      ∀ work last, run Opened.step work opened = some last →
        last.log.records = last.written ∧ last.log.file.bytes = imageOf last.written ∧
          ∀ (i : Nat) (record : LogRecord), last.log.records[i]? = some record →
            record.lsn.toNat = i := by
  obtain ⟨opened, hopens, hfaithful, hlongest, hflushed⟩ : ∃ opened, left.Reopens opened :=
    run_invariant reopens_step reopens_start hrun
  refine ⟨opened, hopens, hlongest, hflushed, hfaithful.exact.bytes, fun work last hwork => ?_⟩
  have hlast : last.Faithful := run_invariant Opened.Faithful.step hfaithful hwork
  refine ⟨hlast.records, hlast.records ▸ hlast.exact.bytes, fun i record hi => ?_⟩
  exact (hlast.exact.numbered i record hi).1

/-- Two sessions, each of which loses an unflushed record to its cut. -/
def sampleShifts : List Shift :=
  [⟨[.append (.begin 1), .flush, .append (.commit 1)], 40⟩,
    ⟨[.append (.abort 1), .append (.begin 2)], 100⟩]

theorem torn_tails_of_two_sessions : ∃ left, run Left.step sampleShifts .start = some left ∧
    ∃ opened, left.reopen = .ok opened ∧ left.flushed <+: opened.log.records := by
  have hruns : (run Left.step sampleShifts .start).isSome = true := by decide +kernel
  obtain ⟨left, hrun⟩ := Option.isSome_iff_exists.mp hruns
  obtain ⟨opened, hopens, -, hflushed, -⟩ := torn_tails_lose_only_torn_records hrun
  exact ⟨left, hrun, opened, hopens, hflushed⟩

end NovaBase.Wal
