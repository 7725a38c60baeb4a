import NovaBase.Lib.Run
import NovaBase.Wal.Survival

/-!
# Reported durability

A log lives through sessions: it is opened, appended to, flushed, and left by a
process exit, which keeps every written byte, or by a crash, which keeps at
least the synchronized prefix. `Keeps kept` says that the records `kept` are in
the synchronized part of the file; no event can take them away. A session
whose opening finds only synchronized records reports no more than that.
-/

namespace NovaBase.Wal

open Lib Lib.Bytes Lib.FramedLog Storage

/-- The log file between sessions, or the session that has it open. -/
inductive Process
  | down (file : File)
  | up (log : WriteAheadLog)
  deriving DecidableEq

/-- What can happen to a log. A crash keeps the first `length` bytes of the file. -/
inductive Event
  | openFile
  | append (call : Call)
  | flush
  | exit
  | crash (length : Nat)
  deriving DecidableEq

namespace Process

/-- A log that does not exist yet. -/
def start : Process := .down ⟨[], 0, 0⟩

/-- One event, without I/O errors. A call that its encoder refuses changes nothing. -/
def step : Process → Event → Option Process
  | .down file, .openFile =>
      match WriteAheadLog.openFile file with
      | .ok log => some (.up log)
      | .error _ => some (.down file)
  | .down file, .crash length =>
      if file.synced ≤ length then some (.down (file.crash length)) else none
  | .up log, .append call =>
      match call.run .complete log with
      | (.error .io, _) => none
      | (_, log) => some (.up log)
  | .up log, .flush => some (.up log.flush)
  | .up log, .exit => some (.down log.file)
  | .up log, .crash length =>
      if log.file.synced ≤ length then some (.down (log.file.crash length)) else none
  | _, _ => none

/-- The records `kept` survive whatever happens next. -/
def Safe (kept : List LogRecord) : Process → Prop
  | .down file => ∃ more tail, Keeps kept more tail file
  | .up log => InStep log ∧ ∃ more, log.records = kept ++ more ∧ Keeps kept more [] log.file

theorem safe_start : Safe [] .start :=
  ⟨[], [], ⟨Nat.zero_le _, le_rfl⟩, ⟨[], [], rfl, .nil 0, .nil 0, le_rfl⟩, rfl⟩

section Events

variable {kept more : List LogRecord} {tail : Bytes} {file : File} {log : WriteAheadLog}

/-- In a synchronized file every record survives. -/
theorem safe_of_synced (hstep : InStep log) (h : log.file.bytes.length ≤ log.file.synced) :
    Safe log.records (.up log) :=
  ⟨hstep, [], (List.append_nil _).symm, hstep.sound,
    ⟨log.file.bytes, [], by simp, hstep.frames, .nil _, h⟩, rfl⟩

/-- A call keeps the synchronized records, the order of the records, and what is reported. -/
theorem safe_append (h : Safe kept (.up log)) {call : Call} {next : Process}
    (hnext : step (.up log) (.append call) = some next) :
    ∃ last, next = .up last ∧ Safe kept (.up last) ∧ log.records <+: last.records ∧
      last.durableLsn = log.durableLsn := by
  obtain ⟨hstep, more, hrecords, hkeeps⟩ := h
  rw [step] at hnext
  rcases hstep.run_cases .complete call with ⟨cause, -, hrun⟩ | ⟨bytes, -, hreads, hrun⟩
  · rw [hrun] at hnext
    have hlog : next = .up log := by cases cause <;> simp_all
    exact ⟨log, hlog, ⟨hstep, more, hrecords, hkeeps⟩, List.prefix_rfl, rfl⟩
  · rcases hrun with hrun | ⟨-, hroom, hrun⟩
    · simp [hrun] at hnext
    · rw [hrun] at hnext
      refine ⟨_, (Option.some.inj hnext).symm, ⟨hstep.store hreads hroom, _, ?_,
        hkeeps.store hstep hrecords hreads hroom⟩, List.prefix_append .., rfl⟩
      simp only [hrecords, List.append_assoc]

/-- Synchronized records survive every event. -/
theorem safe_step {process next : Process} {event : Event} (h : Safe kept process)
    (hnext : step process event = some next) : Safe kept next := by
  cases process with
  | down file =>
      obtain ⟨more, tail, hkeeps⟩ := h
      cases event with
      | openFile =>
          obtain ⟨log, hopen, hstep, hrecords, hlog, -⟩ := hkeeps.openFile
          simp only [step, hopen, Option.some.injEq] at hnext
          exact hnext ▸ ⟨hstep, more, hrecords, hlog⟩
      | crash length =>
          simp only [step, Option.ite_none_right_eq_some, Option.some.injEq] at hnext
          exact hnext.2 ▸ hkeeps.crash hnext.1
      | _ => simp [step] at hnext
  | up log =>
      obtain ⟨hstep, more, hrecords, hkeeps⟩ := id h
      cases event with
      | append call =>
          obtain ⟨last, rfl, hlast, -⟩ := safe_append h hnext
          exact hlast
      | flush =>
          obtain rfl : .up log.flush = next := by simpa [step] using hnext
          exact ⟨hstep.flush, more, hrecords, hkeeps.flush⟩
      | exit =>
          obtain rfl : .down log.file = next := by simpa [step] using hnext
          exact ⟨more, [], hkeeps⟩
      | crash length =>
          simp only [step, Option.ite_none_right_eq_some, Option.some.injEq] at hnext
          exact hnext.2 ▸ hkeeps.crash hnext.1
      | openFile => simp [step] at hnext

end Events

/-- What a session reports as durable survives. -/
def Reported : Process → Prop
  | .down file => Safe [] (.down file)
  | .up log => ∃ kept, Safe kept (.up log) ∧ log.durableLsn = kept.getLast?.map LogRecord.lsn

/-- Every complete record that an opening finds has been synchronized before. -/
def OpensSynchronized : Process → Event → Prop
  | .down file, .openFile =>
      ∀ log ∈ (WriteAheadLog.openFile file).toOption, log.file.bytes.length ≤ file.synced
  | _, _ => True

instance (process : Process) (event : Event) : Decidable (OpensSynchronized process event) :=
  match process, event with
  | .down file, .openFile =>
      inferInstanceAs (Decidable (∀ log ∈ (WriteAheadLog.openFile file).toOption,
        log.file.bytes.length ≤ file.synced))
  | .down _, .append _ | .down _, .flush | .down _, .exit | .down _, .crash _ | .up _, _ =>
      .isTrue trivial

theorem reported_step {process next : Process} {event : Event} (h : Reported process)
    (hguard : OpensSynchronized process event) (hnext : step process event = some next) :
    Reported next := by
  cases process with
  | down file =>
      cases event with
      | openFile =>
          obtain ⟨more, tail, hkeeps⟩ := h
          obtain ⟨log, hopen, hstep, hrecords, -, hdurable, hsynced⟩ := hkeeps.openFile
          obtain rfl : .up log = next := by simpa [step, hopen] using hnext
          have hall := hguard log (by simp [hopen, Except.toOption])
          rw [← hrecords] at hdurable
          exact ⟨log.records, safe_of_synced hstep (by omega), hdurable⟩
      | crash length =>
          have hsafe := safe_step (show Safe [] (.down file) from h) hnext
          simp only [step, Option.ite_none_right_eq_some, Option.some.injEq] at hnext
          obtain ⟨-, rfl⟩ := hnext
          exact hsafe
      | _ => simp [step] at hnext
  | up log =>
      obtain ⟨kept, hsafe, hdurable⟩ := h
      cases event with
      | append call =>
          obtain ⟨last, rfl, hlast, -, hsame⟩ := safe_append hsafe hnext
          exact ⟨kept, hlast, hsame.trans hdurable⟩
      | flush =>
          obtain rfl : .up log.flush = next := by simpa [step] using hnext
          have hflush := safe_of_synced hsafe.1.flush le_rfl
          exact ⟨log.records, hflush, rfl⟩
      | exit =>
          obtain ⟨-, more, -, hkeeps⟩ := hsafe
          obtain rfl : .down log.file = next := by simpa [step] using hnext
          exact ⟨_, _, hkeeps.forget⟩
      | crash length =>
          have hdown := safe_step hsafe hnext
          simp only [step, Option.ite_none_right_eq_some, Option.some.injEq] at hnext
          obtain ⟨-, rfl⟩ := hnext
          obtain ⟨more, tail, hkeeps⟩ := hdown
          exact ⟨_, _, hkeeps.forget⟩
      | openFile => simp [step] at hnext

/-- In a numbered log the records up to number `n` are the first `n + 1`. -/
theorem filter_lsn {kept more : List LogRecord} {bytes : Bytes} {n : Lsn}
    (h : Frames (decodeRecord true) 0 (kept ++ more) bytes) (hn : n.toNat + 1 = kept.length) :
    (kept ++ more).filter (fun record => decide (record.lsn ≤ n)) = kept := by
  rw [List.filter_append, List.filter_eq_self.mpr, List.filter_eq_nil_iff.mpr, List.append_nil]
  · intro record hmem
    obtain ⟨i, hi⟩ := List.mem_iff_getElem?.mp hmem
    have hlsn := lsn_of_frames (i := kept.length + i) h
      (by rw [List.getElem?_append_right (Nat.le_add_right ..), Nat.add_sub_cancel_left, hi])
    simp only [decide_eq_true_eq, UInt64.le_iff_toNat_le]
    omega
  · intro record hmem
    obtain ⟨i, hi⟩ := List.mem_iff_getElem?.mp hmem
    have hlt := (List.getElem?_eq_some_iff.mp hi).1
    have hlsn := lsn_of_frames (i := i) h (by rw [List.getElem?_append_left hlt, hi])
    simp only [decide_eq_true_eq, UInt64.le_iff_toNat_le]
    omega

/-- A record reported durable is returned by every later opening, provided that no opening so far
found records that were written but not synchronized. -/
theorem durable_records_survive {before after : List Event} {log : WriteAheadLog} {n : Lsn}
    {file : File} (hbefore : run step before start = some (.up log))
    (hguard : Along step OpensSynchronized before start) (hdurable : log.durableLsn = some n)
    (hafter : run step after (.up log) = some (.down file)) :
    ∃ reopened, WriteAheadLog.openFile file = .ok reopened ∧
      reopened.records.filter (fun record => decide (record.lsn ≤ n)) =
        log.records.filter (fun record => decide (record.lsn ≤ n)) := by
  obtain ⟨kept, hsafe, hkept⟩ : Reported (.up log) :=
    run_guarded reported_step (show Reported .start from safe_start) hguard hbefore
  obtain ⟨later, tail, hlater⟩ : Safe kept (.down file) := run_invariant safe_step hsafe hafter
  obtain ⟨reopened, hopen, hstep, hrecords, -⟩ := hlater.openFile
  obtain ⟨hlog, more, hmore, hkeeps⟩ := hsafe
  obtain ⟨front, back, -, hfront, -⟩ := hkeeps.frames
  rw [hdurable, eq_comm, Option.map_eq_some_iff] at hkept
  obtain ⟨last, hlast, rfl⟩ := hkept
  have hn := lsn_of_getLast? hfront hlast
  refine ⟨reopened, hopen, ?_⟩
  rw [hrecords, hmore, filter_lsn (hrecords ▸ hstep.frames) hn,
    filter_lsn (hmore ▸ hlog.frames) hn]

/-- A session that holds this record, with some bytes synchronized and some number reported. -/
def beginLog (synced : Nat) (durableLsn : Option Lsn) : WriteAheadLog :=
  ⟨⟨beginFrame, 36, synced⟩, [⟨0, 1, .begin⟩], 1, durableLsn⟩

/-- A flushed begin record outlives a crash that cuts the commit record after it. -/
theorem flushed_begin_survives :
    ∃ reopened, WriteAheadLog.openFile ⟨beginFrame ++ [78, 86, 87, 76], 72, 36⟩ = .ok reopened ∧
      reopened.records.filter (fun record => decide (record.lsn ≤ 0)) =
        (beginLog 36 (some 0)).records.filter (fun record => decide (record.lsn ≤ 0)) := by
  have hbefore : run step [.openFile, .append (.begin 1), .flush] start =
      some (.up (beginLog 36 (some 0))) := by decide +kernel
  have hguard : Along step OpensSynchronized [.openFile, .append (.begin 1), .flush] start := by
    decide +kernel
  have hafter : run step [.append (.commit 1), .crash 40] (.up (beginLog 36 (some 0))) =
      some (.down ⟨beginFrame ++ [78, 86, 87, 76], 72, 36⟩) := by decide +kernel
  exact durable_records_survive hbefore hguard rfl hafter

/-- Reopening after an exit reports a record that a crash can still take away. -/
theorem reopened_record_lost : ¬∀ (before after : List Event) (log : WriteAheadLog) (n : Lsn)
    (file : File), run step before start = some (.up log) → log.durableLsn = some n →
      run step after (.up log) = some (.down file) →
        ∃ reopened, WriteAheadLog.openFile file = .ok reopened ∧
          reopened.records.filter (fun record => decide (record.lsn ≤ n)) =
            log.records.filter (fun record => decide (record.lsn ≤ n)) := by
  intro h
  have hbefore : run step [.openFile, .append (.begin 1), .exit, .openFile] start =
      some (.up (beginLog 0 (some 0))) := by decide +kernel
  have hafter : run step [.crash 0] (.up (beginLog 0 (some 0))) =
      some (.down ⟨[], 36, 0⟩) := by decide +kernel
  obtain ⟨reopened, hopen, hrecords⟩ := h _ _ _ 0 _ hbefore rfl hafter
  have hnone : reopened.records = [] := by
    cases hopen
    rfl
  simp [hnone, beginLog] at hrecords

end Process

end NovaBase.Wal
