import NovaBase.Wal.TornTail
import NovaBase.Transaction.Outcome

/-!
# Transactions across restarts

One log goes through sessions. Each opens a transaction manager on it, makes
calls, and is ended by a cut of the file. `Orderly` says that the log tells of
every transaction its beginning first and at most one end. The log stays orderly
because a session hands out ids above all recorded ones, and an id that the log
has lost to a cut was never seen by a later session.
-/

namespace NovaBase.Transaction

open Lib Lib.FramedLog Wal

/-- The begin records of a transaction. -/
def begins (id : TransactionId) (records : List LogRecord) : List LogRecord :=
  records.filter fun record => record.transactionId = id ∧ record.operation = .begin

/-- The commit and abort records of a transaction. -/
def endings (id : TransactionId) (records : List LogRecord) : List LogRecord :=
  records.filter fun record =>
    record.transactionId = id ∧ (record.operation = .commit ∨ record.operation = .abort)

/-- Every transaction of the log has one begin record, which comes first, and at most one commit
or abort record. -/
structure Orderly (records : List LogRecord) : Prop where
  opened : ∀ record ∈ records, (begins record.transactionId records).length = 1
  closed : ∀ id, (endings id records).length ≤ 1
  order : ∀ before record after, records = before ++ record :: after →
    record.operation ≠ .begin → begins record.transactionId before ≠ []

section Records

variable {records more : List LogRecord} {id : TransactionId} {record : LogRecord}

theorem begins_append : begins id (records ++ more) = begins id records ++ begins id more :=
  List.filter_append ..

theorem endings_append : endings id (records ++ more) = endings id records ++ endings id more :=
  List.filter_append ..

theorem begins_ne_nil (hmem : record ∈ records) (hbegin : record.operation = .begin) :
    begins record.transactionId records ≠ [] :=
  List.ne_nil_of_mem (List.mem_filter.mpr ⟨hmem, by simp [hbegin]⟩)

theorem transactionId_of_begins (h : begins id records ≠ []) :
    ∃ record ∈ records, record.transactionId = id := by
  obtain ⟨record, hrecord⟩ := List.exists_mem_of_ne_nil _ h
  obtain ⟨hmem, hid⟩ := List.mem_filter.mp hrecord
  exact ⟨record, hmem, (of_decide_eq_true hid).1⟩

theorem endings_of_fresh (h : ∀ found ∈ records, found.transactionId ≠ id) :
    endings id records = [] :=
  List.filter_eq_nil_iff.mpr fun found hfound => by simp [h found hfound]

/-- A record of a log that grows by one is an old one or the last. -/
theorem split_concat {last : LogRecord} {before after : List LogRecord}
    (h : records ++ [last] = before ++ record :: after) :
    (records = before ∧ last = record) ∨ ∃ rest, records = before ++ record :: rest := by
  rcases List.eq_nil_or_concat after with rfl | ⟨rest, final, rfl⟩
  · obtain ⟨hbefore, hlast⟩ := List.append_inj' h rfl
    exact .inl ⟨hbefore, List.singleton_inj.mp hlast⟩
  · have hsplit : records ++ [last] = (before ++ record :: rest) ++ [final] := by simpa using h
    exact .inr ⟨rest, (List.append_inj' hsplit rfl).1⟩

theorem mem_endings_operations {ending : Ending} :
    ending.operation ∈ (endings id records).map LogRecord.operation ↔
      id ∈ ending.recorded records := by
  rw [Ending.mem_recorded]
  simp only [endings, List.mem_map, List.mem_filter, decide_eq_true_eq]
  constructor
  · rintro ⟨record, ⟨hmem, hid, -⟩, hoperation⟩
    exact ⟨record, hmem, hoperation, hid⟩
  · rintro ⟨record, hmem, hoperation, hid⟩
    refine ⟨record, ⟨hmem, hid, ?_⟩, hoperation⟩
    cases ending <;> simp_all [Ending.operation]

namespace Orderly

theorem nil : Orderly [] :=
  ⟨by simp, by simp [endings], fun before record after h => by simp at h⟩

/-- The begin record of a new transaction. -/
theorem begin (h : Orderly records) (hbegin : record.operation = .begin)
    (hfresh : ∀ found ∈ records, found.transactionId ≠ record.transactionId) :
    Orderly (records ++ [record]) := by
  have hnone : begins record.transactionId records = [] := by
    by_contra hsome
    obtain ⟨found, hmem, hid⟩ := transactionId_of_begins hsome
    exact hfresh found hmem hid
  refine ⟨fun found hfound => ?_, fun id => ?_, fun before found after heq hother => ?_⟩
  · rw [begins_append]
    rcases List.mem_append.mp hfound with hold | hnew
    · have hne := hfresh found hold
      have hone := h.opened found hold
      simpa [begins, Ne.symm hne] using hone
    · obtain rfl := List.mem_singleton.mp hnew
      rw [hnone]
      simp [begins, hbegin]
  · rw [endings_append]
    have hnew : endings id [record] = [] := by simp [endings, hbegin]
    rw [hnew, List.append_nil]
    exact h.closed id
  · rcases split_concat heq with ⟨-, rfl⟩ | ⟨rest, hsplit⟩
    · exact absurd hbegin hother
    · exact h.order before found rest hsplit hother

/-- The last record of a transaction that has begun and not ended. -/
theorem close (h : Orderly records) {ending : Ending}
    (hoperation : record.operation = ending.operation)
    (hbegun : begins record.transactionId records ≠ [])
    (hopen : endings record.transactionId records = []) : Orderly (records ++ [record]) := by
  have hnotBegin : record.operation ≠ .begin := by
    rw [hoperation]
    cases ending <;> decide
  have hnone : ∀ id, begins id [record] = [] := fun id => by simp [begins, hnotBegin]
  refine ⟨fun found hfound => ?_, fun id => ?_, fun before found after heq hother => ?_⟩
  · rw [begins_append, hnone, List.append_nil]
    rcases List.mem_append.mp hfound with hold | hnew
    · exact h.opened found hold
    · obtain rfl := List.mem_singleton.mp hnew
      obtain ⟨first, hmem, hid⟩ := transactionId_of_begins hbegun
      exact hid ▸ h.opened first hmem
  · rw [endings_append, List.length_append]
    by_cases hid : record.transactionId = id
    · subst hid
      rw [hopen, List.length_nil, Nat.zero_add]
      exact List.length_filter_le _ [record]
    · have hnew : endings id [record] = [] := by simp [endings, hid]
      rw [hnew]
      exact h.closed id
  · rcases split_concat heq with ⟨rfl, rfl⟩ | ⟨rest, hsplit⟩
    · exact hbegun
    · exact h.order before found rest hsplit hother

/-- A log that has lost its last records is orderly still. -/
theorem left (h : Orderly (records ++ more)) : Orderly records := by
  have hbegun : ∀ record ∈ records, begins record.transactionId records ≠ [] := by
    intro record hmem
    by_cases hbegin : record.operation = .begin
    · exact begins_ne_nil hmem hbegin
    · obtain ⟨before, after, rfl⟩ := List.append_of_mem hmem
      have hfirst := h.order before record (after ++ more) (by simp) hbegin
      rw [begins_append]
      exact List.append_ne_nil_of_left_ne_nil hfirst _
  refine ⟨fun record hmem => ?_, fun id => ?_, fun before record after heq => ?_⟩
  · have hone := h.opened record (List.mem_append_left _ hmem)
    have hpos := List.length_pos_iff.mpr (hbegun record hmem)
    rw [begins_append, List.length_append] at hone
    omega
  · have hle := h.closed id
    rw [endings_append, List.length_append] at hle
    omega
  · exact h.order before record (after ++ more) (by simp [heq])

end Orderly

end Records

/-- The last records that a log has of a transaction in a given state. -/
def TransactionStatus.operations : TransactionStatus → List Operation
  | .active => []
  | .committed => [.commit]
  | .rolledBack => [.abort]

theorem operation_mem_operations {ending : Ending} {status : TransactionStatus} :
    ending.operation ∈ status.operations ↔ status = ending.status := by
  cases ending <;> cases status <;>
    simp [Ending.operation, Ending.status, TransactionStatus.operations]

theorem operations_status (ending : Ending) :
    ending.status.operations = [ending.operation] := by
  cases ending <;> rfl

/-- A session under way: the manager, the records that it found, and the ids it has handed out. -/
structure Serving where
  manager : TransactionManager
  found : List LogRecord
  handed : List TransactionId

/-- The id that a call hands out. -/
def handedBy : Result Reply → List TransactionId
  | .ok (.began id) => [id]
  | _ => []

/-- Start a session on a log. -/
def serve (file : File) : Result Serving := do
  let manager ← TransactionManager.openFile file
  return ⟨manager, manager.wal.records, []⟩

/-- One call, without I/O errors. -/
def Serving.step (serving : Serving) (request : Request) : Option Serving :=
  let (reply, manager) := serving.manager.handle ⟨.perfect, request⟩
  if reply = .error .io then none
  else some ⟨manager, serving.found, serving.handed ++ handedBy reply⟩

/-- What a session serves, and the length that the log is then cut to. -/
structure Life where
  requests : List Request
  cut : Nat
  deriving DecidableEq

/-- One session on a log, ended by a cut that spares what has been synchronized. -/
def Life.step (file : File) (life : Life) : Option File :=
  match serve file with
  | .error _ => none
  | .ok serving =>
      match run Serving.step life.requests serving with
      | none => none
      | some last =>
          if last.manager.wal.file.synced ≤ life.cut then
            some (last.manager.wal.file.crash life.cut)
          else none

open TransactionManager

/-- Appending a marker fails for I/O reasons only. -/
theorem marker_run {log : WriteAheadLog} (h : InStep log) (outcome : WriteOutcome) {call : Call}
    (hmarker : ∀ lsn, Encodable (call.record lsn)) :
    (∃ lsn next, call.run outcome log = (.ok lsn, next)) ∨
      ∃ next, call.run outcome log = (.error .io, next) := by
  obtain ⟨frame, hframe⟩ := encodeRecord_of_encodable (hmarker log.nextLsn)
  rcases h.run_cases outcome call with ⟨cause, hfail, -⟩ | ⟨bytes, -, -, hcase | ⟨-, -, hcase⟩⟩
  · simp [hframe] at hfail
  · exact .inr ⟨_, hcase⟩
  · exact .inl ⟨_, _, hcase⟩

theorem marker_begin (id : TransactionId) (lsn : Lsn) : Encodable ((Call.begin id).record lsn) := by
  intro pageId page h
  simp [Call.record] at h

theorem marker_ending (ending : Ending) (id : TransactionId) (lsn : Lsn) :
    Encodable ((ending.call id).record lsn) := by
  intro pageId page h
  rw [Ending.call_record] at h
  cases ending <;> simp [Ending.operation] at h

theorem appendsWhole_ending {manager : TransactionManager} (h : InStep manager.wal)
    (ending : Ending) {id : TransactionId}
    (hreply : (manager.handle ⟨.perfect, ending.request id⟩).1 ≠ .error .io) :
    manager.AppendsWhole ⟨.perfect, ending.request id⟩ := by
  intro call hcall
  obtain ⟨hactive, rfl⟩ : manager.statuses.get id = some .active ∧ ending.call id = call := by
    cases ending <;> simpa [appends, Ending.request, Ending.call] using hcall
  rcases marker_run h .complete (marker_ending ending id) with ⟨lsn, next, hrun⟩ | ⟨next, hrun⟩
  · simp [Io.perfect, hrun, Except.isOk, Except.toBool]
  · refine absurd ?_ hreply
    have hcheck : manager.ensureActive id = .ok () := ensureActive_eq_ok.mpr hactive
    simp [handle_ending, answer, terminate, hcheck, Io.perfect, hrun]

/-- A call that meets no I/O error has appended all it had to. -/
theorem appendsWhole_of_ne_io {manager : TransactionManager} (h : InStep manager.wal)
    {request : Request} (hreply : (manager.handle ⟨.perfect, request⟩).1 ≠ .error .io) :
    manager.AppendsWhole ⟨.perfect, request⟩ := by
  cases request with
  | begin =>
      intro call hcall
      obtain ⟨hroom, rfl⟩ : manager.nextId.toNat + 1 < 2 ^ 64 ∧ .begin manager.nextId = call := by
        simpa only [appends, Option.mem_def, Option.ite_none_right_eq_some, Option.some.injEq]
          using hcall
      rcases marker_run h .complete (marker_begin manager.nextId) with
        ⟨lsn, next, hrun⟩ | ⟨next, hrun⟩
      · simp [Io.perfect, hrun, Except.isOk, Except.toBool]
      · refine absurd ?_ hreply
        have hnext : checkedNext manager.nextId = .ok (manager.nextId + 1) :=
          checkedNext_eq_ok.mpr ⟨hroom, rfl⟩
        have hbegin : manager.wal.begin .complete manager.nextId = (.error .io, next) := hrun
        simp [handle, answer, begin, hnext, Io.perfect, hbegin]
  | commit id => exact appendsWhole_ending h .commit hreply
  | rollback id => exact appendsWhole_ending h .rollback hreply
  | _ => exact fun call hcall => by simp [appends] at hcall

/-- What holds during a session: the log is orderly and agrees with the states of the session's
transactions, and all ids so far lie below the next one. -/
structure Serving.Sound (serving : Serving) : Prop where
  safe : serving.manager.Safe
  exact : Exact serving.manager.wal
  orderly : Orderly serving.manager.wal.records
  below : ∀ record ∈ serving.manager.wal.records,
    record.transactionId < serving.manager.nextId
  room : ∀ record ∈ serving.manager.wal.records, record.transactionId.toNat + 1 < 2 ^ 64
  states : ∀ id status, serving.manager.statuses.get id = some status →
    begins id serving.manager.wal.records ≠ [] ∧
      (endings id serving.manager.wal.records).map LogRecord.operation = status.operations
  found : ∀ record ∈ serving.found, record.transactionId < serving.manager.nextId
  handed : ∀ id ∈ serving.handed, (∃ status, serving.manager.statuses.get id = some status) ∧
    ∀ record ∈ serving.found, record.transactionId < id
  distinct : serving.handed.Nodup

namespace Serving.Sound

variable {serving next : Serving} {request : Request}

/-- The state after a call whose effect is known. -/
theorem step_eq (hstep : serving.step request = some next) :
    (serving.manager.handle ⟨.perfect, request⟩).1 ≠ .error .io ∧
      next = ⟨(serving.manager.handle ⟨.perfect, request⟩).2, serving.found,
        serving.handed ++ handedBy (serving.manager.handle ⟨.perfect, request⟩).1⟩ := by
  simp only [Serving.step, Option.ite_none_left_eq_some, Option.some.injEq] at hstep
  exact ⟨hstep.1, hstep.2.symm⟩

/-- A new transaction. -/
theorem begin (h : serving.Sound) {lsn : Lsn} {log : WriteAheadLog}
    (hroom : serving.manager.nextId.toNat + 1 < 2 ^ 64)
    (happend : (Call.begin serving.manager.nextId).run .complete serving.manager.wal =
      (.ok lsn, log)) {manager : TransactionManager} (hsafe : manager.Safe)
    (hwal : manager.wal = log)
    (hstatuses : manager.statuses =
      serving.manager.statuses.insert serving.manager.nextId .active)
    (hnext : manager.nextId = serving.manager.nextId + 1) :
    Serving.Sound ⟨manager, serving.found, serving.handed ++ [serving.manager.nextId]⟩ := by
  obtain ⟨hexact, -, hrecords, -⟩ := h.exact.append happend
  have hlt : serving.manager.nextId < manager.nextId := by
    rw [hnext, UInt64.lt_iff_toNat_lt, UInt64.toNat_add, UInt64.toNat_one]
    omega
  have hfresh : ∀ found ∈ serving.manager.wal.records,
      found.transactionId ≠ serving.manager.nextId := fun found hfound => (h.below found hfound).ne
  subst hwal
  refine ⟨hsafe, hexact, ?_, ?_, ?_, ?_, ?_, ?_, ?_⟩
  · rw [hrecords]
    exact h.orderly.begin rfl hfresh
  · rw [hrecords]
    exact List.forall_mem_append.mpr ⟨fun record hold => (h.below record hold).trans hlt,
      List.forall_mem_singleton.mpr hlt⟩
  · rw [hrecords]
    exact List.forall_mem_append.mpr ⟨h.room, List.forall_mem_singleton.mpr hroom⟩
  · rw [hstatuses, hrecords]
    intro id status hstatus
    have hnone : endings id [(Call.begin serving.manager.nextId).record lsn] = [] := by
      simp [endings, Call.record]
    rw [begins_append, endings_append, hnone, List.append_nil]
    rcases SortedMap.get_insert_eq_some.mp hstatus with ⟨rfl, rfl⟩ | ⟨-, hold⟩
    · rw [endings_of_fresh hfresh]
      exact ⟨by simp [begins, Call.record], rfl⟩
    · obtain ⟨hbegun, hended⟩ := h.states id status hold
      exact ⟨List.append_ne_nil_of_left_ne_nil hbegun _, hended⟩
  · exact fun record hrecord => (h.found record hrecord).trans hlt
  · intro id hid
    rcases List.mem_append.mp hid with hold | hnew
    · obtain ⟨⟨status, hstatus⟩, habove⟩ := h.handed id hold
      refine ⟨?_, habove⟩
      rw [hstatuses, SortedMap.get_insert]
      split
      · exact ⟨_, rfl⟩
      · exact ⟨status, hstatus⟩
    · obtain rfl := List.mem_singleton.mp hnew
      exact ⟨⟨.active, by rw [hstatuses, SortedMap.get_insert, if_pos rfl]⟩, h.found⟩
  · refine List.nodup_append.mpr ⟨h.distinct, List.nodup_singleton _, fun id hid other hother => ?_⟩
    obtain rfl := List.mem_singleton.mp hother
    obtain ⟨⟨status, hstatus⟩, -⟩ := h.handed id hid
    exact (h.safe.fresh id status hstatus).ne

/-- The end of a transaction. -/
theorem close (h : serving.Sound) {ending : Ending} {id : TransactionId} {lsn : Lsn}
    {log : WriteAheadLog} (hactive : serving.manager.statuses.get id = some .active)
    (happend : (ending.call id).run .complete serving.manager.wal = (.ok lsn, log))
    {manager : TransactionManager} (hsafe : manager.Safe) (hwal : manager.wal = log.flush)
    (hstatuses : manager.statuses = serving.manager.statuses.insert id ending.status)
    (hnext : manager.nextId = serving.manager.nextId) :
    Serving.Sound ⟨manager, serving.found, serving.handed⟩ := by
  obtain ⟨hexact, -, hrecords, -⟩ := h.exact.append happend
  obtain ⟨hbegun, hended⟩ := h.states id .active hactive
  have hopen : endings id serving.manager.wal.records = [] := List.map_eq_nil_iff.mp hended
  have hlog : manager.wal.records =
      serving.manager.wal.records ++ [⟨lsn, id, ending.operation⟩] := by
    rw [hwal, ← Ending.call_record ending id lsn, ← hrecords]
    rfl
  obtain ⟨first, hfirst, hfirstId⟩ := transactionId_of_begins hbegun
  refine ⟨hsafe, hwal ▸ hexact.flush, ?_, ?_, ?_, ?_, ?_, ?_, h.distinct⟩
  · rw [hlog]
    exact h.orderly.close rfl hbegun hopen
  · rw [hlog, hnext]
    exact List.forall_mem_append.mpr ⟨h.below,
      List.forall_mem_singleton.mpr (hfirstId ▸ h.below first hfirst)⟩
  · rw [hlog]
    exact List.forall_mem_append.mpr ⟨h.room,
      List.forall_mem_singleton.mpr (hfirstId ▸ h.room first hfirst)⟩
  · rw [hstatuses, hlog]
    intro other status hstatus
    rw [begins_append, endings_append]
    rcases SortedMap.get_insert_eq_some.mp hstatus with ⟨rfl, rfl⟩ | ⟨hne, hold⟩
    · refine ⟨List.append_ne_nil_of_left_ne_nil hbegun _, ?_⟩
      rw [hopen, operations_status]
      cases ending <;> simp [endings, Ending.operation]
    · obtain ⟨hbegun', hended'⟩ := h.states other status hold
      have hnone : endings other [(⟨lsn, id, ending.operation⟩ : LogRecord)] = [] := by
        simp [endings, hne]
      rw [hnone, List.append_nil]
      exact ⟨List.append_ne_nil_of_left_ne_nil hbegun' _, hended'⟩
  · exact fun record hrecord => hnext ▸ h.found record hrecord
  · intro other hother
    obtain ⟨⟨status, hstatus⟩, habove⟩ := h.handed other hother
    refine ⟨?_, habove⟩
    rw [hstatuses, SortedMap.get_insert]
    split
    · exact ⟨_, rfl⟩
    · exact ⟨status, hstatus⟩

theorem step (h : serving.Sound) (hstep : serving.step request = some next) : next.Sound := by
  obtain ⟨hreply, rfl⟩ := step_eq hstep
  have hsafe := safe_handle h.safe ⟨.perfect, request⟩
  cases effect_handle (appendsWhole_of_ne_io h.exact.inStep hreply) with
  | idle hwal hstatuses hnext hrefused hnothing =>
      have hnone : handedBy (serving.manager.handle ⟨.perfect, request⟩).1 = [] := by
        cases hresult : (serving.manager.handle ⟨.perfect, request⟩).1 with
        | error cause => rfl
        | ok reply =>
            cases reply with
            | began id => exact absurd hresult (hnothing id)
            | _ => rfl
      rw [hnone, List.append_nil]
      refine ⟨hsafe, hwal ▸ h.exact, hwal ▸ h.orderly, ?_, hwal ▸ h.room, ?_, ?_, ?_, h.distinct⟩
      · rw [hwal, hnext]
        exact h.below
      · rw [hwal, hstatuses]
        exact h.states
      · rw [hnext]
        exact h.found
      · rw [hstatuses]
        exact h.handed
  | began lsn log hrequest hroom happend hresult hwal hstatuses hnext =>
      rw [hresult]
      exact h.begin hroom happend hsafe hwal hstatuses hnext
  | unsynced ending id lsn log hrequest hsyncs => simp [Io.perfect] at hsyncs
  | ended ending id lsn log hrequest hactive happend hresult hwal hstatuses hnext =>
      have hnone : handedBy (.ok .done) = [] := rfl
      rw [hresult, hnone, List.append_nil]
      exact h.close hactive happend hsafe hwal hstatuses hnext

end Serving.Sound

/-- The largest id bounds the ids of a log, and is one of them unless it is zero. -/
theorem maxId_spec (records : List LogRecord) :
    (∀ record ∈ records, record.transactionId ≤ maxId records) ∧
      (maxId records = 0 ∨ ∃ record ∈ records, record.transactionId = maxId records) := by
  induction records using List.reverseRecOn with
  | nil => exact ⟨by simp, .inl rfl⟩
  | append_singleton records record ih =>
      have hmax : maxId (records ++ [record]) = max (maxId records) record.transactionId := by
        simp [maxId]
      obtain ⟨hle, hattained⟩ := ih
      rw [hmax]
      constructor
      · exact List.forall_mem_append.mpr ⟨fun found hold => (hle found hold).trans
          (le_max_left _ _), List.forall_mem_singleton.mpr (le_max_right _ _)⟩
      · rcases le_total (maxId records) record.transactionId with hsmall | hlarge
        · rw [max_eq_right hsmall]
          exact .inr ⟨record, by simp, rfl⟩
        · rw [max_eq_left hlarge]
          refine hattained.imp_right ?_
          rintro ⟨found, hfound, hid⟩
          exact ⟨found, List.mem_append_left _ hfound, hid⟩

/-- A log file between sessions: what is left of an orderly log. -/
def Resumable (file : File) : Prop :=
  ∃ log length, file = File.crash length log.file ∧ Exact log ∧ Orderly log.records ∧
    ∀ record ∈ log.records, record.transactionId.toNat + 1 < 2 ^ 64

theorem resumable_nil : Resumable ⟨[], 0, 0⟩ :=
  ⟨.fresh, 0, rfl, .fresh, .nil, by simp [WriteAheadLog.fresh]⟩

/-- A session starts on such a file, with ids above all that it finds. -/
theorem Resumable.serves {file : File} (h : Resumable file) :
    ∃ serving, serve file = .ok serving ∧ serving.Sound ∧
      serving.found = serving.manager.wal.records ∧
      ∃ length, decodeRecords file.bytes true = .ok (serving.manager.wal.records, length) := by
  obtain ⟨log, length, rfl, hexact, horderly, hroom⟩ := h
  obtain ⟨wal, n, hopen, hreopened, hn, hrecords, -⟩ := hexact.reopen length
  have hkept : ∀ record ∈ wal.records, record ∈ log.records := fun record hrecord =>
    List.mem_of_mem_take (hrecords ▸ hrecord)
  obtain ⟨hle, hattained⟩ := maxId_spec wal.records
  have hnext : checkedNext (maxId wal.records) = .ok (maxId wal.records + 1) := by
    refine checkedNext_eq_ok.mpr ⟨?_, rfl⟩
    rcases hattained with hzero | ⟨record, hrecord, hid⟩
    · rw [hzero]
      decide
    · rw [← hid]
      exact hroom record (hkept record hrecord)
  have hserve : serve (log.file.crash length) =
      .ok ⟨⟨maxId wal.records + 1, .empty, .empty, wal⟩, wal.records, []⟩ := by
    simp only [serve, openFile, hopen, ok_bind, hnext, pure_eq_ok]
  have hlt : ∀ record ∈ wal.records, record.transactionId < maxId wal.records + 1 := by
    intro record hrecord
    have hlow := UInt64.le_iff_toNat_le.mp (hle record hrecord)
    have hsmall := (checkedNext_eq_ok.mp hnext).1
    rw [UInt64.lt_iff_toNat_lt, UInt64.toNat_add, UInt64.toNat_one]
    omega
  have hdecode : ∃ length', decodeRecords (log.file.crash length).bytes true =
      .ok (wal.records, length') := by
    obtain ⟨⟨records, validLength⟩, hdecode, hrest⟩ := bind_eq_ok.mp hopen
    obtain rfl := Except.ok.inj hrest
    exact ⟨validLength, hdecode⟩
  have hopenManager : openFile (log.file.crash length) =
      .ok ⟨maxId wal.records + 1, .empty, .empty, wal⟩ := by
    simp only [openFile, hopen, ok_bind, hnext, pure_eq_ok]
  refine ⟨_, hserve, ⟨safe_openFile hopenManager, hreopened, ?_, hlt,
    fun record hrecord => hroom record (hkept record hrecord), by simp, hlt, by simp,
    List.nodup_nil⟩, rfl, hdecode⟩
  have hsplit : log.records = wal.records ++ log.records.drop n := by
    rw [hrecords, List.take_append_drop]
  exact (hsplit ▸ horderly).left

/-- A session leaves such a file behind. -/
theorem Resumable.step {file next : File} {life : Life} (h : Resumable file)
    (hstep : life.step file = some next) : Resumable next := by
  obtain ⟨serving, hserve, hsound, -⟩ := h.serves
  simp only [Life.step, hserve] at hstep
  cases hrun : run Serving.step life.requests serving with
  | none => simp [hrun] at hstep
  | some last =>
      simp only [hrun, Option.ite_none_right_eq_some, Option.some.injEq] at hstep
      obtain ⟨-, rfl⟩ := hstep
      have hlast : last.Sound := run_invariant Serving.Sound.step hsound hrun
      exact ⟨last.manager.wal, life.cut, rfl, hlast.exact, hlast.orderly, hlast.room⟩

/-- A session knows of the transactions it has begun what the log says of them. -/
theorem Serving.Sound.status_iff {serving : Serving} (h : serving.Sound) {id : TransactionId}
    (hid : id ∈ serving.handed) (ending : Ending) :
    serving.manager.status id = .ok ending.status ↔
      id ∈ ending.recorded serving.manager.wal.records := by
  obtain ⟨⟨status, hstatus⟩, -⟩ := h.handed id hid
  rw [← mem_endings_operations, (h.states id status hstatus).2, operation_mem_operations]
  simp [TransactionManager.status, hstatus]

/-- After any sessions, each ended by a cut that spares what was flushed, the log opens. Then, and
throughout the next session, every transaction of the log has exactly one begin record and at most
one commit or abort record, which comes after it; the ids handed out are distinct and above all
ids found at the opening; and the state of each of them is committed or rolled back exactly if the
log has its commit or abort record. -/
theorem orderly_across_restarts {lives : List Life} {file : File}
    (hrun : run Life.step lives ⟨[], 0, 0⟩ = some file) :
    ∃ serving, serve file = .ok serving ∧
      (∃ length, decodeRecords file.bytes true =
        .ok (serving.manager.wal.records, length)) ∧
      Orderly serving.manager.wal.records ∧
      ∀ requests last, run Serving.step requests serving = some last →
        decodeRecords last.manager.wal.file.bytes true =
          .ok (last.manager.wal.records, last.manager.wal.file.bytes.length) ∧
        Orderly last.manager.wal.records ∧
        last.handed.Nodup ∧
        (∀ id ∈ last.handed, ∀ record ∈ serving.manager.wal.records,
          record.transactionId < id) ∧
        ∀ id ∈ last.handed,
          (last.manager.status id = .ok .committed ↔
            id ∈ committed last.manager.wal.records) ∧
          (last.manager.status id = .ok .rolledBack ↔
            id ∈ aborted last.manager.wal.records) := by
  obtain ⟨serving, hserve, hsound, hfound, hdecode⟩ : ∃ serving, serve file = .ok serving ∧
      serving.Sound ∧ serving.found = serving.manager.wal.records ∧ ∃ length,
        decodeRecords file.bytes true = .ok (serving.manager.wal.records, length) :=
    (run_invariant Resumable.step resumable_nil hrun).serves
  refine ⟨serving, hserve, hdecode, hsound.orderly, fun requests last hlast => ?_⟩
  have hkeep : ∀ {state request next}, state.Sound ∧ state.found = serving.found →
      Serving.step state request = some next → next.Sound ∧ next.found = serving.found := by
    intro state request next hstate hstep
    obtain ⟨-, rfl⟩ := Serving.Sound.step_eq hstep
    exact ⟨hstate.1.step hstep, hstate.2⟩
  obtain ⟨hend, hsame⟩ := run_invariant hkeep ⟨hsound, rfl⟩ hlast
  refine ⟨decodeRecords_eq_ok.mpr ⟨_, [], by simp, rfl, hend.exact.inStep.frames, rfl⟩,
    hend.orderly, hend.distinct, fun id hid => ?_, fun id hid =>
      ⟨hend.status_iff hid .commit, hend.status_iff hid .rollback⟩⟩
  rw [← hfound, ← hsame]
  exact (hend.handed id hid).2

/-- Two sessions: the first loses the begin record of its second transaction, whose id the second
session hands out again. -/
def sampleLives : List Life :=
  [⟨[.begin, .commit 1, .begin], 90⟩, ⟨[.begin, .rollback 2], 200⟩]

theorem orderly_after_two_sessions : ∃ file, run Life.step sampleLives ⟨[], 0, 0⟩ = some file ∧
    ∃ serving, serve file = .ok serving ∧ Orderly serving.manager.wal.records := by
  have hruns : (run Life.step sampleLives ⟨[], 0, 0⟩).isSome = true := by decide +kernel
  obtain ⟨file, hrun⟩ := Option.isSome_iff_exists.mp hruns
  obtain ⟨serving, hserve, -, horderly, -⟩ := orderly_across_restarts hrun
  exact ⟨file, hrun, serving, hserve, horderly⟩

end NovaBase.Transaction
