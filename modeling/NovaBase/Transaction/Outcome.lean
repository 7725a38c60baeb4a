import NovaBase.Wal.Recovery
import NovaBase.Transaction.Locks

/-!
# Reported outcomes

A transaction ends by appending its last record and then synchronizing the log.
When only the synchronization fails, the record stays in the log while the
transaction stays active, and the client may end it once more and in the other
way. Recovery sides with the abort, so a commit is recovered as reported exactly
when no earlier rollback of the transaction got as far as its record.
-/

namespace NovaBase.Transaction

open Lib Lib.FramedLog Wal

/-- How a transaction ends. -/
inductive Ending
  | commit
  | rollback
  deriving DecidableEq, Repr

namespace Ending

def request (id : TransactionId) : Ending → Request
  | .commit => .commit id
  | .rollback => .rollback id

def call (id : TransactionId) : Ending → Call
  | .commit => .commit id
  | .rollback => .abort id

def operation : Ending → Operation
  | .commit => .commit
  | .rollback => .abort

def status : Ending → TransactionStatus
  | .commit => .committed
  | .rollback => .rolledBack

/-- The transactions that a log says have ended this way. -/
def recorded (ending : Ending) (records : List LogRecord) : List TransactionId :=
  records.filterMap fun record =>
    if record.operation = ending.operation then some record.transactionId else none

theorem status_ne_active (ending : Ending) : ending.status ≠ .active := by
  cases ending <;> decide

theorem request_inj {id other : TransactionId} {ending another : Ending}
    (h : ending.request id = another.request other) : ending = another ∧ id = other := by
  cases ending <;> cases another <;> simp_all [request]

theorem mem_recorded {ending : Ending} {records : List LogRecord} {id : TransactionId} :
    id ∈ ending.recorded records ↔
      ∃ record ∈ records, record.operation = ending.operation ∧ record.transactionId = id := by
  simp [recorded]

theorem mem_recorded_concat {ending : Ending} {records : List LogRecord} {record : LogRecord}
    {id : TransactionId} : id ∈ ending.recorded (records ++ [record]) ↔
      id ∈ ending.recorded records ∨
        record.operation = ending.operation ∧ record.transactionId = id := by
  simp only [mem_recorded, List.mem_append, List.mem_singleton, or_and_right, exists_or,
    exists_eq_left]

theorem call_record (ending : Ending) (id : TransactionId) (lsn : Lsn) :
    (ending.call id).record lsn = ⟨lsn, id, ending.operation⟩ := by
  cases ending <;> rfl

end Ending

namespace TransactionManager

/-- The record that a call appends, if it gets that far. -/
def appends (manager : TransactionManager) : Request → Option Call
  | .begin => if manager.nextId.toNat + 1 < 2 ^ 64 then some (.begin manager.nextId) else none
  | .commit id => if manager.statuses.get id = some .active then some (.commit id) else none
  | .rollback id => if manager.statuses.get id = some .active then some (.abort id) else none
  | _ => none

/-- If the call appends a record, all of it is written. -/
def AppendsWhole (manager : TransactionManager) (act : Act) : Prop :=
  ∀ call ∈ manager.appends act.request, (call.run act.io.write manager.wal).1.isOk

instance (manager : TransactionManager) (act : Act) : Decidable (manager.AppendsWhole act) :=
  inferInstanceAs (Decidable (∀ call ∈ manager.appends act.request, _))

theorem handle_ending (manager : TransactionManager) (io : Io) (ending : Ending)
    (id : TransactionId) : manager.handle ⟨io, ending.request id⟩ =
      answer (fun _ => .done) (manager.terminate io ending.call ending.status id) := by
  cases ending <;> rfl

/-- What a call whose append succeeds does to the log, the states and the next id. -/
inductive Effect (manager : TransactionManager) (act : Act) : Prop
  | idle (wal : (manager.handle act).2.wal = manager.wal)
      (statuses : (manager.handle act).2.statuses = manager.statuses)
      (nextId : (manager.handle act).2.nextId = manager.nextId)
      (refused : ∀ ending id, act.request = Ending.request id ending →
        (manager.handle act).1 ≠ .ok .done)
      (nothing : ∀ id, (manager.handle act).1 ≠ .ok (.began id))
  | began (lsn : Lsn) (log : WriteAheadLog) (request : act.request = .begin)
      (room : manager.nextId.toNat + 1 < 2 ^ 64)
      (append : (Call.begin manager.nextId).run act.io.write manager.wal = (.ok lsn, log))
      (reply : (manager.handle act).1 = .ok (.began manager.nextId))
      (wal : (manager.handle act).2.wal = log)
      (statuses : (manager.handle act).2.statuses =
        manager.statuses.insert manager.nextId .active)
      (nextId : (manager.handle act).2.nextId = manager.nextId + 1)
  | unsynced (ending : Ending) (id : TransactionId) (lsn : Lsn) (log : WriteAheadLog)
      (request : act.request = ending.request id) (syncs : act.io.syncs = false)
      (active : manager.statuses.get id = some .active)
      (append : (ending.call id).run act.io.write manager.wal = (.ok lsn, log))
      (reply : (manager.handle act).1 = .error .io)
      (wal : (manager.handle act).2.wal = log)
      (statuses : (manager.handle act).2.statuses = manager.statuses)
      (nextId : (manager.handle act).2.nextId = manager.nextId)
  | ended (ending : Ending) (id : TransactionId) (lsn : Lsn) (log : WriteAheadLog)
      (request : act.request = ending.request id)
      (active : manager.statuses.get id = some .active)
      (append : (ending.call id).run act.io.write manager.wal = (.ok lsn, log))
      (reply : (manager.handle act).1 = .ok .done)
      (wal : (manager.handle act).2.wal = log.flush)
      (statuses : (manager.handle act).2.statuses = manager.statuses.insert id ending.status)
      (nextId : (manager.handle act).2.nextId = manager.nextId)

section Effects

variable {manager : TransactionManager} {act : Act} {id : TransactionId}

theorem effect_ending {io : Io} (ending : Ending)
    (h : manager.AppendsWhole ⟨io, ending.request id⟩) :
    Effect manager ⟨io, ending.request id⟩ := by
  rcases terminate_cases io ending.call ending.status id manager with
    ⟨cause, hcheck, hrun⟩ | ⟨hactive, hcase⟩
  · have hhandle : manager.handle ⟨io, ending.request id⟩ = (.error cause, manager) := by
      rw [handle_ending, hrun]
      rfl
    exact .idle (by rw [hhandle]) (by rw [hhandle]) (by rw [hhandle])
      (by simp [hhandle]) (by simp [hhandle])
  · have happends : manager.appends (ending.request id) = some (ending.call id) := by
      cases ending <;> simp [appends, Ending.request, Ending.call, hactive]
    have hwhole := h (ending.call id) happends
    rcases hcase with ⟨cause, wal, happend, -⟩ | ⟨found, wal, happend, hcase⟩
    · simp [happend, Except.isOk, Except.toBool] at hwhole
    · rcases hcase with ⟨hsyncs, hrun⟩ | ⟨-, hrun⟩
      · refine .unsynced ending id found wal rfl hsyncs hactive happend ?_ ?_ ?_ ?_ <;>
          rw [handle_ending, hrun] <;> rfl
      · refine .ended ending id found wal rfl hactive happend ?_ ?_ ?_ ?_ <;>
          rw [handle_ending, hrun] <;> rfl

/-- A lock request touches neither the log nor the states. -/
theorem effect_acquire (manager : TransactionManager) (io : Io) (id : TransactionId)
    (collection : String) (mode : Mode) : Effect manager ⟨io, mode.request id collection⟩ := by
  have hframe : (manager.handle ⟨io, mode.request id collection⟩).2.wal = manager.wal ∧
      (manager.handle ⟨io, mode.request id collection⟩).2.statuses = manager.statuses ∧
      (manager.handle ⟨io, mode.request id collection⟩).2.nextId = manager.nextId := by
    cases mode with
    | shared =>
        rcases acquireShared_cases id collection manager with ⟨cause, hrun⟩ | ⟨-, -, hrun⟩ <;>
          simp [handle, answer, Mode.request, hrun, setLock]
    | exclusive =>
        rcases acquireExclusive_cases id collection manager with ⟨cause, hrun⟩ | ⟨-, -, -, hrun⟩ <;>
          simp [handle, answer, Mode.request, hrun, setLock]
  refine .idle hframe.1 hframe.2.1 hframe.2.2 (fun ending other hrequest => ?_) (fun other => ?_)
  · cases mode <;> cases ending <;> simp [Mode.request, Ending.request] at hrequest
  · rcases acquire_cases manager io id collection mode with ⟨cause, hreply, -⟩ | ⟨hreply, -⟩ <;>
      simp [hreply]

/-- Every call is idle, begins a transaction, or ends one, perhaps without synchronizing. -/
theorem effect_handle (h : manager.AppendsWhole act) : Effect manager act := by
  obtain ⟨io, request⟩ := act
  cases request with
  | begin =>
      rcases begin_cases io manager with ⟨cause, -, hrun⟩ | ⟨hroom, hcase⟩
      · refine .idle ?_ ?_ ?_ (fun ending id hrequest => ?_) (fun id => ?_) <;>
          simp [handle, answer, hrun]
      · have hwhole := h (.begin manager.nextId) (if_pos hroom)
        rcases hcase with ⟨cause, wal, happend, -⟩ | ⟨found, wal, happend, hrun⟩
        · have hfail : (Call.begin manager.nextId).run io.write manager.wal = (.error cause, wal) :=
            happend
          simp [hfail, Except.isOk, Except.toBool] at hwhole
        · refine .began found wal rfl hroom happend ?_ ?_ ?_ ?_ <;> simp [handle, answer, hrun]
  | acquireShared id collection => exact effect_acquire manager io id collection .shared
  | acquireExclusive id collection => exact effect_acquire manager io id collection .exclusive
  | commit id => exact effect_ending .commit h
  | rollback id => exact effect_ending .rollback h
  | status id =>
      refine .idle rfl rfl rfl (fun ending other hrequest => ?_) (fun other => ?_)
      · cases ending <;> simp [Ending.request] at hrequest
      · simp only [handle, answer]
        cases manager.status id <;> simp

end Effects

/-- The lock table is safe, and the log in memory is the log on file. -/
structure Accounted (manager : TransactionManager) : Prop where
  safe : manager.Safe
  inStep : InStep manager.wal

namespace Accounted

variable {manager : TransactionManager} {act : Act} {id : TransactionId} {ending : Ending}

theorem openFile {file : File} (hsound : file.Sound)
    (hopen : TransactionManager.openFile file = .ok manager) : manager.Accounted := by
  have hsafe := safe_openFile hopen
  obtain ⟨wal, hwal, hopen⟩ := bind_eq_ok.mp hopen
  obtain ⟨nextId, -, hopen⟩ := bind_eq_ok.mp hopen
  obtain rfl := Except.ok.inj hopen
  exact ⟨hsafe, (InStep.of_openFile hsound hwal).1⟩

theorem handle (h : manager.Accounted) (happends : manager.AppendsWhole act) :
    (manager.handle act).2.Accounted := by
  refine ⟨safe_handle h.safe act, ?_⟩
  cases effect_handle happends with
  | idle hwal => exact hwal ▸ h.inStep
  | began lsn log request room append reply hwal => exact hwal ▸ (h.inStep.append append).1
  | unsynced ending id lsn log request syncs active append reply hwal =>
      exact hwal ▸ (h.inStep.append append).1
  | ended ending id lsn log request active append reply hwal =>
      exact hwal ▸ (h.inStep.append append).1.flush

/-- A transaction that ends has its last record appended. -/
theorem recorded_handle (h : manager.Accounted) (happends : manager.AppendsWhole act)
    (hrequest : act.request = ending.request id) (hreply : (manager.handle act).1 = .ok .done) :
    (manager.handle act).2.statuses.get id = some ending.status ∧
    ∀ other, id ∈ Ending.recorded other (manager.handle act).2.wal.records ↔
      id ∈ other.recorded manager.wal.records ∨ other = ending := by
  cases effect_handle happends with
  | idle hwal hstatuses hnext hrefused => exact absurd hreply (hrefused ending id hrequest)
  | began lsn log request =>
      rw [hrequest] at request
      cases ending <;> simp [Ending.request] at request
  | unsynced ending id lsn log request syncs active append hfail => simp [hfail] at hreply
  | ended another writer lsn log request active append reply hwal hstatuses =>
      obtain ⟨rfl, rfl⟩ := Ending.request_inj (hrequest.symm.trans request)
      obtain ⟨-, -, hrecords, -⟩ := h.inStep.append append
      refine ⟨by rw [hstatuses, SortedMap.get_insert, if_pos rfl], fun other => ?_⟩
      have hflush : log.flush.records = log.records := rfl
      rw [hwal, hflush, hrecords, Ending.call_record, Ending.mem_recorded_concat]
      cases ending <;> cases other <;> simp [Ending.operation]

/-- Once a transaction has ended, no other last record of it is appended. -/
theorem recorded_final (h : manager.Accounted) (happends : manager.AppendsWhole act)
    {status : TransactionStatus} (hstatus : manager.statuses.get id = some status)
    (hfinal : status ≠ .active) :
    id ∈ ending.recorded (manager.handle act).2.wal.records ↔
      id ∈ ending.recorded manager.wal.records := by
  have hother : ∀ {other}, manager.statuses.get other = some .active → other ≠ id := by
    rintro other hactive rfl
    rw [hstatus] at hactive
    exact hfinal (Option.some.inj hactive)
  cases effect_handle happends with
  | idle hwal => rw [hwal]
  | began lsn log request room append reply hwal =>
      obtain ⟨-, -, hrecords, -⟩ := h.inStep.append append
      rw [hwal, hrecords, Ending.mem_recorded_concat]
      cases ending <;> simp [Ending.operation, Call.record]
  | unsynced another writer lsn log request syncs active append reply hwal =>
      obtain ⟨-, -, hrecords, -⟩ := h.inStep.append append
      rw [hwal, hrecords, Ending.call_record, Ending.mem_recorded_concat]
      simp [hother active]
  | ended another writer lsn log request active append reply hwal =>
      obtain ⟨-, -, hrecords, -⟩ := h.inStep.append append
      have hflush : log.flush.records = log.records := rfl
      rw [hwal, hflush, hrecords, Ending.call_record, Ending.mem_recorded_concat]
      simp [hother active]

/-- What the whole run keeps. -/
theorem run (h : manager.Accounted) {acts : List Act} {last : TransactionManager}
    (happends : Along step AppendsWhole acts manager)
    (hrun : Lib.run step acts manager = some last) : last.Accounted := by
  have hkeep : ∀ {state act next}, state.Accounted → AppendsWhole state act →
      step state act = some next → next.Accounted := by
    intro state act next hstate hguard hstep
    obtain rfl := Option.some.inj hstep
    exact hstate.handle hguard
  exact run_guarded hkeep h happends hrun

/-- The last records of a transaction that has ended are settled. -/
theorem run_final (h : manager.Accounted) {acts : List Act} {last : TransactionManager}
    (happends : Along step AppendsWhole acts manager)
    (hrun : Lib.run step acts manager = some last) {status : TransactionStatus}
    (hstatus : manager.statuses.get id = some status) (hfinal : status ≠ .active) :
    id ∈ ending.recorded last.wal.records ↔ id ∈ ending.recorded manager.wal.records := by
  let settled (state : TransactionManager) : Prop := state.Accounted ∧
    state.statuses.get id = some status ∧
    (id ∈ ending.recorded state.wal.records ↔ id ∈ ending.recorded manager.wal.records)
  have hkeep : ∀ {state act next}, settled state → AppendsWhole state act →
      step state act = some next → settled next := by
    rintro state act next ⟨hstate, hold, hiff⟩ hguard hstep
    obtain rfl := Option.some.inj hstep
    exact ⟨hstate.handle hguard, final_handle hstate.safe hold hfinal act,
      (hstate.recorded_final hguard hold hfinal).trans hiff⟩
  exact (run_guarded hkeep ⟨h, hstatus, Iff.rfl⟩ happends hrun).2.2

end Accounted

/-- No commit is called for a transaction of which the log already has an abort record. -/
def CommitsUnaborted (manager : TransactionManager) (act : Act) : Prop :=
  ∀ id, act.request = .commit id → id ∉ aborted manager.wal.records

/-- Every commit of the run that has succeeded is recovered as committed, and no rollback that has
succeeded is. -/
def OutcomesRecovered (records : List LogRecord) (acts : List Act) (start : TransactionManager) :
    Prop :=
  ∀ before act after manager id, acts = before ++ act :: after →
    run step before start = some manager → (manager.handle act).1 = .ok .done →
    (act.request = .commit id → id ∈ committed records ∧ id ∉ aborted records) ∧
    (act.request = .rollback id → ¬(id ∈ committed records ∧ id ∉ aborted records))

/-- What recovery makes of a transaction whose end has been reported. -/
theorem recovered_of_reported {start manager last : TransactionManager} (h : start.Accounted)
    {before after : List Act} {act : Act}
    (happends : Along step AppendsWhole (before ++ act :: after) start)
    (hbefore : run step before start = some manager)
    (hafter : run step (act :: after) manager = some last) (ending : Ending) {id : TransactionId}
    (hrequest : act.request = ending.request id) (hreply : (manager.handle act).1 = .ok .done)
    (other : Ending) : id ∈ other.recorded last.wal.records ↔
      id ∈ other.recorded manager.wal.records ∨ other = ending := by
  obtain ⟨hfirst, hact, hrest⟩ := Along.append happends hbefore
  have hmanager : manager.Accounted := h.run hfirst hbefore
  obtain ⟨next, hstep, hlast⟩ := run_cons.mp hafter
  rw [hstep] at hrest
  obtain rfl := Option.some.inj hstep
  obtain ⟨hstatus, hrecorded⟩ := hmanager.recorded_handle hact hrequest hreply
  rw [(hmanager.handle hact).run_final hrest hlast hstatus ending.status_ne_active]
  exact hrecorded other

/-- Take any run in which every append succeeds, from the opening of any log, and the log it
leaves. A transaction whose commit has succeeded is recovered as committed exactly if the log had
no abort record of it when the commit was called; a transaction whose rollback has succeeded is
not replayed. So all outcomes are recovered as reported in a run that commits no transaction of
which the log has an abort record. -/
theorem recovered_iff_commits_unaborted {file : File} (hsound : file.Sound)
    {start : TransactionManager} (hopen : openFile file = .ok start) {acts : List Act}
    {last : TransactionManager} (hrun : run step acts start = some last)
    (happends : Along step AppendsWhole acts start) :
    ∃ records, decodeRecords last.wal.file.bytes true =
        .ok (records, last.wal.file.bytes.length) ∧
      (∀ before act after manager id, acts = before ++ act :: after →
        run step before start = some manager → (manager.handle act).1 = .ok .done →
        (act.request = .commit id → ((id ∈ committed records ∧ id ∉ aborted records) ↔
          id ∉ aborted manager.wal.records)) ∧
        (act.request = .rollback id → ¬(id ∈ committed records ∧ id ∉ aborted records))) ∧
      (Along step CommitsUnaborted acts start → OutcomesRecovered records acts start) := by
  have hstart : start.Accounted := .openFile hsound hopen
  have hlast : last.Accounted := hstart.run happends hrun
  have hdecode : decodeRecords last.wal.file.bytes true =
      .ok (last.wal.records, last.wal.file.bytes.length) :=
    decodeRecords_eq_ok.mpr ⟨_, [], by simp, rfl, hlast.inStep.frames, rfl⟩
  have hsplit : ∀ before act after manager id, acts = before ++ act :: after →
      run step before start = some manager → (manager.handle act).1 = .ok .done →
      (act.request = .commit id → ((id ∈ committed last.wal.records ∧
        id ∉ aborted last.wal.records) ↔ id ∉ aborted manager.wal.records)) ∧
      (act.request = .rollback id →
        ¬(id ∈ committed last.wal.records ∧ id ∉ aborted last.wal.records)) := by
    intro before act after manager id hacts hbefore hreply
    subst hacts
    obtain ⟨middle, hmiddle, hafter⟩ := run_append.mp hrun
    obtain rfl : manager = middle := Option.some.inj (hbefore.symm.trans hmiddle)
    constructor
    · intro hrequest
      have hrecovered := recovered_of_reported hstart happends hbefore hafter
        .commit hrequest hreply
      have hcommitted : id ∈ committed last.wal.records := (hrecovered .commit).mpr (.inr rfl)
      have haborted : id ∈ aborted last.wal.records ↔ id ∈ aborted manager.wal.records :=
        (hrecovered .rollback).trans (or_iff_left (by decide))
      rw [haborted]
      exact and_iff_right hcommitted
    · intro hrequest hreplayed
      have hrecovered := recovered_of_reported hstart happends hbefore hafter
        .rollback hrequest hreply .rollback
      exact hreplayed.2 (hrecovered.mpr (.inr rfl))
  refine ⟨last.wal.records, hdecode, hsplit, fun hguard before act after manager id hacts
    hbefore hreply => ?_⟩
  obtain ⟨hcommit, hrollback⟩ := hsplit before act after manager id hacts hbefore hreply
  refine ⟨fun hrequest => (hcommit hrequest).mpr ?_, hrollback⟩
  subst hacts
  exact (Along.append hguard hbefore).2.1 id hrequest

/-- A client that commits a transaction after its rollback could not be synchronized. -/
def commitAfterRollback : List Act :=
  [⟨.perfect, .begin⟩, ⟨⟨.complete, false⟩, .rollback 1⟩, ⟨.perfect, .commit 1⟩]

theorem commitAfterRollback_recovered_as_aborted :
    ∃ manager last, run step (commitAfterRollback.take 2) fresh = some manager ∧
      Along step AppendsWhole commitAfterRollback fresh ∧
      run step commitAfterRollback fresh = some last ∧
      (manager.handle ⟨.perfect, .commit 1⟩).1 = .ok .done ∧
      ∃ records, decodeRecords last.wal.file.bytes true =
          .ok (records, last.wal.file.bytes.length) ∧
        1 ∈ committed records ∧ 1 ∈ aborted records := by
  refine ⟨_, _, rfl, by decide +kernel, rfl, by decide +kernel, ?_⟩
  refine ⟨[⟨0, 1, .begin⟩, ⟨1, 1, .abort⟩, ⟨2, 1, .commit⟩], ?_, by decide, by decide⟩
  decide +kernel

/-- A transaction committed after its commit could not be synchronized. -/
def commitTwice : List Act :=
  [⟨.perfect, .begin⟩, ⟨⟨.complete, false⟩, .commit 1⟩, ⟨.perfect, .commit 1⟩]

theorem commitTwice_recovered : ∃ last, run step commitTwice fresh = some last ∧
    ∃ records, decodeRecords last.wal.file.bytes true =
        .ok (records, last.wal.file.bytes.length) ∧ 1 ∈ committed records ∧
      1 ∉ aborted records := by
  have hcommit : ((run step (commitTwice.take 2) fresh).map fun manager =>
      ((manager.handle ⟨.perfect, .commit 1⟩).1, aborted manager.wal.records)) =
        some (.ok .done, []) := by decide +kernel
  obtain ⟨manager, hbefore, hstate⟩ := Option.map_eq_some_iff.mp hcommit
  obtain ⟨hreply, haborted⟩ := Prod.mk.inj hstate
  obtain ⟨last, hrun⟩ : ∃ last, run step commitTwice fresh = some last := ⟨_, rfl⟩
  have hfile : (⟨[], 0, 0⟩ : File).Sound := ⟨Nat.zero_le _, le_rfl⟩
  obtain ⟨records, hdecode, hsplit, -⟩ := recovered_iff_commits_unaborted hfile openFile_nil hrun
    (by decide +kernel)
  obtain ⟨hiff, -⟩ := hsplit _ _ [] manager 1 rfl hbefore hreply
  exact ⟨last, hrun, records, hdecode, (hiff rfl).mpr (by simp [haborted])⟩

end TransactionManager

end NovaBase.Transaction
