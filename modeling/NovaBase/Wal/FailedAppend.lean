import NovaBase.Lib.Run
import NovaBase.Wal.Survival

/-!
# Appends that fail

One session in which a write may stop after any prefix of a record. The failed
append leaves that prefix at the end of the file, where opening takes it for a
torn tail. It stays harmless as long as nothing is stored after it.
-/

namespace NovaBase.Wal

open Lib Lib.Bytes Lib.FramedLog

/-- A call on the open log. -/
inductive SessionEvent
  | append (call : Call) (outcome : WriteOutcome)
  | flush
  deriving DecidableEq

/-- An open log, with what its client has seen: the records whose append succeeded, those of them
that a flush followed, and whether a failed append has stored part of a record. -/
structure Session where
  log : WriteAheadLog
  acknowledged : List LogRecord
  flushed : List LogRecord
  torn : Bool
  deriving DecidableEq

namespace Session

/-- The session when the log has just been opened. -/
def start (log : WriteAheadLog) : Session := ⟨log, [], [], false⟩

/-- The number of bytes that an append stores. -/
def storedBytes (call : Call) (outcome : WriteOutcome) (log : WriteAheadLog) : Nat :=
  match encodeRecord (call.record log.nextLsn) with
  | .ok bytes => log.file.stored outcome bytes
  | .error _ => 0

def step (session : Session) : SessionEvent → Option Session
  | .append call outcome =>
      match call.run outcome session.log with
      | (.ok _, log) =>
          some { session with
            log := log
            acknowledged := session.acknowledged ++ [call.record session.log.nextLsn] }
      | (.error _, log) =>
          some { session with
            log := log
            torn := session.torn || decide (0 < storedBytes call outcome session.log) }
  | .flush =>
      some { session with log := session.log.flush, flushed := session.acknowledged }

/-- After a failed append that stored part of a record, an append stores nothing. -/
def NothingAfterTear (session : Session) : SessionEvent → Prop
  | .append call outcome => session.torn = true → storedBytes call outcome session.log = 0
  | .flush => True

instance (session : Session) (event : SessionEvent) : Decidable (session.NothingAfterTear event) :=
  match event with
  | .append call outcome =>
      inferInstanceAs (Decidable (session.torn = true → storedBytes call outcome session.log = 0))
  | .flush => .isTrue trivial

/-- Everything acknowledged and flushed is among the synchronized records, everything else in
memory among the later ones; only a torn session has an incomplete tail. -/
structure Consistent (session : Session) : Prop where
  cursor : session.log.file.cursor = session.log.file.bytes.length
  acknowledged : session.acknowledged <:+ session.log.records
  recoverable : ∃ kept more tail, Keeps kept more tail session.log.file ∧
    session.flushed <:+ kept ∧ session.log.records <+: kept ++ more ∧
    (session.torn = false →
      InStep session.log ∧ tail = [] ∧ session.log.records = kept ++ more)

theorem consistent_start {file : File} {log : WriteAheadLog} (hsound : file.Sound)
    (hopen : WriteAheadLog.openFile file = .ok log) : (start log).Consistent := by
  obtain ⟨hstep, -⟩ := InStep.of_openFile hsound hopen
  exact ⟨hstep.cursor, List.nil_suffix, [], log.records, [],
    ⟨hstep.sound, ⟨[], log.file.bytes, by simp [start], .nil 0, hstep.frames, Nat.zero_le _⟩, rfl⟩,
    List.nil_suffix, List.prefix_rfl, fun _ => ⟨hstep, rfl, rfl⟩⟩

theorem consistent_flush {session : Session} (h : session.Consistent) :
    Consistent { session with log := session.log.flush, flushed := session.acknowledged } := by
  obtain ⟨hcursor, hacknowledged, kept, more, tail, hkeeps, hflushed, hinitial, hstep⟩ := h
  obtain ⟨rest, hrest⟩ := hinitial
  have hall : Keeps session.log.records rest tail session.log.flush.file :=
    hkeeps.promote hrest
  refine ⟨hcursor, hacknowledged, session.log.records, rest, tail, hall, hacknowledged,
    List.prefix_append .., fun htorn => ?_⟩
  obtain ⟨hin, htail, hrecords⟩ := hstep htorn
  obtain rfl : rest = [] := by
    have hlen := congrArg List.length (hrest.trans hrecords.symm)
    rw [List.length_append] at hlen
    exact List.eq_nil_of_length_eq_zero (by omega)
  exact ⟨hin.flush, htail, (List.append_nil _).symm⟩

/-- An append that stores nothing fails and changes nothing. -/
theorem run_of_storedBytes_eq_zero {log : WriteAheadLog} {call : Call} {outcome : WriteOutcome}
    (hcursor : log.file.cursor = log.file.bytes.length) (hsound : log.file.Sound)
    (h : storedBytes call outcome log = 0) :
    ∃ cause, call.run outcome log = (.error cause, log) := by
  rcases call.run_cases outcome log with ⟨cause, -, hrun⟩ | ⟨bytes, hencode, hrun⟩
  · exact ⟨cause, hrun⟩
  · have hpos := List.length_pos_iff.mpr (reads_encodeRecord hencode).1
    simp only [storedBytes, hencode] at h
    rcases hrun with hrun | ⟨-, hall, -⟩
    · rw [h, List.take_zero, File.store_nil hcursor hsound] at hrun
      exact ⟨_, hrun⟩
    · omega

theorem consistent_append {session next : Session} (h : session.Consistent) {call : Call}
    {outcome : WriteOutcome} (hguard : session.NothingAfterTear (.append call outcome))
    (hnext : session.step (.append call outcome) = some next) : next.Consistent := by
  obtain ⟨hcursor, hacknowledged, kept, more, tail, hkeeps, hflushed, hinitial, hstep⟩ := id h
  rw [step] at hnext
  rcases Nat.eq_zero_or_pos (storedBytes call outcome session.log) with hzero | hpos
  · obtain ⟨cause, hrun⟩ := run_of_storedBytes_eq_zero hcursor hkeeps.sound hzero
    have hsame : (session.torn || decide (0 < storedBytes call outcome session.log)) =
        session.torn := by simp [hzero]
    rw [hrun] at hnext
    simp only [hsame, Option.some.injEq] at hnext
    exact hnext ▸ h
  · have htorn : session.torn = false := by
      cases htorn : session.torn with
      | false => rfl
      | true => exact absurd (hguard htorn) (by omega)
    obtain ⟨hin, rfl, hrecords⟩ := hstep htorn
    rcases hin.run_cases outcome call with ⟨cause, hencode, -⟩ | ⟨bytes, hencode, hreads, hrun⟩
    · simp [storedBytes, hencode] at hpos
    · rcases hrun with hrun | ⟨-, hroom, hrun⟩
      · -- the append failed and left part of its frame, or all of it
        have hroom : session.log.file.bytes.length + session.log.file.stored outcome bytes ≤
            maxFileLength := File.stored_room hin.cursor hin.sound
        have hflag : (session.torn || decide (0 < storedBytes call outcome session.log)) =
            true := by simp [hpos]
        rw [hrun] at hnext
        simp only [hflag, Option.some.injEq] at hnext
        subst hnext
        generalize session.log.file.stored outcome bytes = count at hroom
        have hcursor' : (session.log.file.store (bytes.take count)).cursor =
            (session.log.file.store (bytes.take count)).bytes.length := by
          rw [File.store_end hin.cursor, List.length_append, ← hin.cursor]
          rfl
        rcases Nat.lt_or_ge count bytes.length with hlt | hge
        · exact ⟨hcursor', hacknowledged, kept, more, bytes.take count,
            hkeeps.store_prefix hin hrecords hreads hlt hroom, hflushed, hinitial, by simp⟩
        · rw [List.take_of_length_le hge] at hcursor' ⊢
          refine ⟨hcursor', hacknowledged, kept, _, [],
            hkeeps.store hin hrecords hreads (by omega), hflushed, ?_, by simp⟩
          simp only [hrecords, ← List.append_assoc]
          exact List.prefix_append ..
      · rw [hrun] at hnext
        simp only [Option.some.injEq] at hnext
        subst hnext
        have hnow := hin.store hreads hroom
        have hall : session.log.records ++ [call.record session.log.nextLsn] =
            kept ++ (more ++ [call.record session.log.nextLsn]) := by
          rw [hrecords, List.append_assoc]
        obtain ⟨first, hfirst⟩ := hacknowledged
        exact ⟨hnow.cursor, ⟨first, by simp only [← hfirst, List.append_assoc]⟩, kept, _, [],
          hkeeps.store hin hrecords hreads hroom, hflushed, hall ▸ List.prefix_rfl,
          fun _ => ⟨hnow, rfl, hall⟩⟩

theorem consistent_step {session next : Session} {event : SessionEvent}
    (h : session.Consistent) (hguard : session.NothingAfterTear event)
    (hnext : session.step event = some next) : next.Consistent := by
  cases event with
  | append call outcome => exact consistent_append h hguard hnext
  | flush =>
      simp only [step, Option.some.injEq] at hnext
      exact hnext ▸ consistent_flush h

/-- What was acknowledged before a flush is returned by the next opening, in order, whatever a
crash leaves of the rest, if nothing was stored after a torn append. -/
theorem flushed_records_reopen {file : File} {log : WriteAheadLog} {events : List SessionEvent}
    {session : Session} (hsound : file.Sound) (hopen : WriteAheadLog.openFile file = .ok log)
    (hguard : Along step NothingAfterTear events (start log))
    (hrun : run step events (start log) = some session) {length : Nat}
    (hlength : session.log.file.synced ≤ length) :
    ∃ reopened, WriteAheadLog.openFile (session.log.file.crash length) = .ok reopened ∧
      session.flushed <:+: reopened.records := by
  obtain ⟨-, -, kept, more, tail, hkeeps, ⟨before, hflushed⟩, -⟩ :=
    run_guarded consistent_step (consistent_start hsound hopen) hguard hrun
  obtain ⟨fewer, rest, hcrash⟩ := hkeeps.crash hlength
  obtain ⟨reopened, hreopen, -, hrecords, -⟩ := hcrash.openFile
  exact ⟨reopened, hreopen, before, fewer, by rw [hrecords, hflushed]⟩

/-- A commit record cut after its first byte does no harm to the begin record before it. -/
theorem flushed_begin_reopens : ∃ reopened,
    WriteAheadLog.openFile ((⟨beginFrame ++ [78], 37, 36⟩ : File).crash 37) = .ok reopened ∧
      [(⟨0, 1, .begin⟩ : LogRecord)] <:+: reopened.records := by
  have hguard : Along step NothingAfterTear [.append (.begin 1) .complete, .flush,
      .append (.commit 1) (.cut 1)] (start .fresh) := by decide +kernel
  have hrun : run step [.append (.begin 1) .complete, .flush, .append (.commit 1) (.cut 1)]
      (start .fresh) = some ⟨⟨⟨beginFrame ++ [78], 37, 36⟩, [⟨0, 1, .begin⟩], 1, some 0⟩,
        [⟨0, 1, .begin⟩], [⟨0, 1, .begin⟩], true⟩ := by decide +kernel
  exact flushed_records_reopen ⟨Nat.zero_le _, le_rfl⟩ openFile_nil hguard hrun (by decide)

/-- A begin record cut after its first byte, and appended again, makes the log unreadable. -/
theorem torn_append_poisons_log : ¬∀ (file : File) (log : WriteAheadLog)
    (events : List SessionEvent) (session : Session), file.Sound →
      WriteAheadLog.openFile file = .ok log → run step events (start log) = some session →
        ∃ reopened, WriteAheadLog.openFile session.log.file = .ok reopened ∧
          session.flushed <:+: reopened.records := by
  intro h
  have hrun : run step [.append (.begin 1) (.cut 1), .append (.begin 1) .complete, .flush]
      (start .fresh) = some ⟨⟨⟨78 :: beginFrame, 37, 37⟩, [⟨0, 1, .begin⟩], 1, some 0⟩,
        [⟨0, 1, .begin⟩], [⟨0, 1, .begin⟩], true⟩ := by decide +kernel
  have hfail : WriteAheadLog.openFile ⟨78 :: beginFrame, 37, 37⟩ =
      corruption "invalid WAL magic" := by decide +kernel
  obtain ⟨reopened, hopen, -⟩ := h ⟨[], 0, 0⟩ .fresh _ _ ⟨Nat.zero_le _, le_rfl⟩ openFile_nil hrun
  rw [hfail] at hopen
  cases hopen

end Session

end NovaBase.Wal
