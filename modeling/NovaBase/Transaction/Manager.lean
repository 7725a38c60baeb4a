import Mathlib.Data.Finset.Basic
import Mathlib.Data.String.Basic
import NovaBase.Lib.SortedMap
import NovaBase.Wal.Log

/-!
# Transactions and locks

The transaction manager hands out ids, keeps the state of every transaction of
the session and a table of collection locks, and writes the beginning and the
end of each transaction to the log. A call holds the manager's mutex from its
start to its end, so the calls of concurrent clients come one after another.
-/

namespace NovaBase.Transaction

open Lib Wal

/-- Observable transaction lifecycle state. -/
inductive TransactionStatus
  | active
  | committed
  | rolledBack
  deriving DecidableEq, Repr

/-- The `Debug` text of a status. -/
def TransactionStatus.debug : TransactionStatus → String
  | .active => "Active"
  | .committed => "Committed"
  | .rolledBack => "RolledBack"

/-- Who has a collection locked. -/
structure LockState where
  readers : Finset TransactionId := ∅
  writer : Option TransactionId := none
  deriving DecidableEq

/-- A strict two-phase lock and transaction coordinator. -/
structure TransactionManager where
  nextId : TransactionId
  statuses : SortedMap TransactionId TransactionStatus
  locks : SortedMap String LockState
  wal : WriteAheadLog

/-- What the operating system does during one call: how a write ends, and whether a
synchronization succeeds. -/
structure Io where
  write : WriteOutcome
  syncs : Bool
  deriving DecidableEq

/-- Nothing fails. -/
def Io.perfect : Io := ⟨.complete, true⟩

/-- The error when there are no identifiers left. -/
def overflow : NovaError := .invalidState "transaction id overflow"

/-- The id after another one. -/
def checkedNext (id : TransactionId) : Result TransactionId :=
  if id.toNat + 1 < 2 ^ 64 then .ok (id + 1) else .error overflow

/-- The largest transaction id of a log, or zero. -/
def maxId (records : List LogRecord) : TransactionId :=
  (records.map LogRecord.transactionId).foldl max 0

/-- A refused lock request. -/
def conflict {α : Type} (collection : String) : Result α :=
  .error (.invalidState [.text "lock conflict on collection ", .debug collection])

/-- A lock after one transaction has given it up. -/
def LockState.release (id : TransactionId) (lock : LockState) : LockState where
  readers := lock.readers.erase id
  writer := if lock.writer = some id then none else lock.writer

/-- Give up the locks of a transaction, and forget the collections that nobody has locked. -/
def releaseLocks (id : TransactionId) (locks : SortedMap String LockState) :
    SortedMap String LockState :=
  locks.retain fun lock =>
    let lock := lock.release id
    if lock.readers.Nonempty ∨ lock.writer.isSome then some lock else none

namespace TransactionManager

/-- Open the log and resume ids above every recorded id. -/
def openFile (file : File) : Result TransactionManager := do
  let wal ← WriteAheadLog.openFile file
  let nextId ← checkedNext (maxId wal.records)
  return { nextId := nextId, statuses := .empty, locks := .empty, wal := wal }

/-- The manager of a log that does not exist yet. -/
def fresh : TransactionManager := ⟨1, .empty, .empty, .fresh⟩

theorem openFile_nil : openFile ⟨[], 0, 0⟩ = .ok fresh := rfl

/-- Refuse a transaction that is unknown or has ended. -/
def ensureActive (id : TransactionId) (manager : TransactionManager) : Result Unit :=
  match manager.statuses.get id with
  | some .active => .ok ()
  | some status => .error (.invalidState s!"transaction {id} is {status.debug}")
  | none => .error (.notFound s!"transaction {id}")

/-- Begin a transaction. The id is used up even when its begin record cannot be written. -/
def begin (io : Io) (manager : TransactionManager) : Result TransactionId × TransactionManager :=
  let id := manager.nextId
  match checkedNext id with
  | .error cause => (.error cause, manager)
  | .ok nextId =>
      let manager := { manager with nextId := nextId }
      match manager.wal.begin io.write id with
      | (.error cause, wal) => (.error cause, { manager with wal := wal })
      | (.ok _, wal) =>
          (.ok id, { manager with wal := wal, statuses := manager.statuses.insert id .active })

/-- The lock of a collection, which is made when there is none yet. -/
def lockOf (collection : String) (manager : TransactionManager) : LockState :=
  (manager.locks.get collection).getD {}

def setLock (collection : String) (lock : LockState) (manager : TransactionManager) :
    TransactionManager :=
  { manager with locks := manager.locks.insert collection lock }

/-- Acquire or re-enter a shared collection lock. -/
def acquireShared (id : TransactionId) (collection : String) (manager : TransactionManager) :
    Result Unit × TransactionManager :=
  match manager.ensureActive id with
  | .error cause => (.error cause, manager)
  | .ok _ =>
      let lock := manager.lockOf collection
      let manager := manager.setLock collection lock
      if ∃ writer ∈ lock.writer, writer ≠ id then (conflict collection, manager)
      else
        (.ok (), manager.setLock collection { lock with readers := insert id lock.readers })

/-- Acquire or upgrade to an exclusive collection lock. -/
def acquireExclusive (id : TransactionId) (collection : String) (manager : TransactionManager) :
    Result Unit × TransactionManager :=
  match manager.ensureActive id with
  | .error cause => (.error cause, manager)
  | .ok _ =>
      let lock := manager.lockOf collection
      let manager := manager.setLock collection lock
      if (∃ reader ∈ lock.readers, reader ≠ id) ∨ ∃ writer ∈ lock.writer, writer ≠ id then
        (conflict collection, manager)
      else
        (.ok (), manager.setLock collection
          { readers := lock.readers.erase id, writer := some id })

/-- End a transaction: append its last record, synchronize the log, and only then record the
outcome and release every held lock. -/
def terminate (io : Io) (call : TransactionId → Call) (outcome : TransactionStatus)
    (id : TransactionId) (manager : TransactionManager) : Result Unit × TransactionManager :=
  match manager.ensureActive id with
  | .error cause => (.error cause, manager)
  | .ok _ =>
      match (call id).run io.write manager.wal with
      | (.error cause, wal) => (.error cause, { manager with wal := wal })
      | (.ok _, wal) =>
          match wal.tryFlush io.syncs with
          | (.error cause, wal) => (.error cause, { manager with wal := wal })
          | (.ok _, wal) =>
              (.ok (), { manager with
                wal := wal
                statuses := manager.statuses.insert id outcome
                locks := releaseLocks id manager.locks })

/-- Commit durably, then release every held lock. -/
def commit (io : Io) : TransactionId → TransactionManager → Result Unit × TransactionManager :=
  terminate io .commit .committed

/-- Roll back durably, then release every held lock. -/
def rollback (io : Io) : TransactionId → TransactionManager → Result Unit × TransactionManager :=
  terminate io .abort .rolledBack

/-- A known transaction's state. -/
def status (id : TransactionId) (manager : TransactionManager) : Result TransactionStatus :=
  match manager.statuses.get id with
  | some status => .ok status
  | none => .error (.notFound s!"transaction {id}")

end TransactionManager

/-- A call of a client. -/
inductive Request
  | begin
  | acquireShared (id : TransactionId) (collection : String)
  | acquireExclusive (id : TransactionId) (collection : String)
  | commit (id : TransactionId)
  | rollback (id : TransactionId)
  | status (id : TransactionId)
  deriving DecidableEq

/-- What a successful call returns. -/
inductive Reply
  | began (id : TransactionId)
  | done
  | status (status : TransactionStatus)
  deriving DecidableEq

/-- A call, together with what the operating system does meanwhile. -/
structure Act where
  io : Io
  request : Request
  deriving DecidableEq

namespace TransactionManager

/-- A result as the reply to a call. -/
def answer {α : Type} (reply : α → Reply) (outcome : Result α × TransactionManager) :
    Result Reply × TransactionManager :=
  (reply <$> outcome.1, outcome.2)

/-- Make a call. -/
def handle (act : Act) (manager : TransactionManager) : Result Reply × TransactionManager :=
  match act.request with
  | .begin => answer .began (manager.begin act.io)
  | .acquireShared id collection => answer (fun _ => .done) (manager.acquireShared id collection)
  | .acquireExclusive id collection =>
      answer (fun _ => .done) (manager.acquireExclusive id collection)
  | .commit id => answer (fun _ => .done) (manager.commit act.io id)
  | .rollback id => answer (fun _ => .done) (manager.rollback act.io id)
  | .status id => answer .status (manager.status id, manager)

/-- The manager after a call, whatever it returned. -/
def step (manager : TransactionManager) (act : Act) : Option TransactionManager :=
  some (manager.handle act).2

section Calls

variable {manager : TransactionManager} {id : TransactionId} {collection : String} {io : Io}

theorem checkedNext_eq_ok {next : TransactionId} :
    checkedNext id = .ok next ↔ id.toNat + 1 < 2 ^ 64 ∧ next = id + 1 := by
  unfold checkedNext
  split <;> simp_all [eq_comm]

theorem ensureActive_eq_ok {u : Unit} :
    manager.ensureActive id = .ok u ↔ manager.statuses.get id = some .active := by
  unfold ensureActive
  split <;> simp_all

/-- What beginning a transaction can do. -/
theorem begin_cases (io : Io) (manager : TransactionManager) :
    (∃ cause, checkedNext manager.nextId = .error cause ∧
      manager.begin io = (.error cause, manager)) ∨
    manager.nextId.toNat + 1 < 2 ^ 64 ∧
      ((∃ cause wal, manager.wal.begin io.write manager.nextId = (.error cause, wal) ∧
        manager.begin io =
          (.error cause, { manager with nextId := manager.nextId + 1, wal := wal })) ∨
      ∃ lsn wal, manager.wal.begin io.write manager.nextId = (.ok lsn, wal) ∧
        manager.begin io = (.ok manager.nextId, { manager with
          nextId := manager.nextId + 1
          statuses := manager.statuses.insert manager.nextId .active
          wal := wal })) := by
  simp only [begin]
  cases hnext : checkedNext manager.nextId with
  | error cause => exact .inl ⟨cause, rfl, rfl⟩
  | ok nextId =>
      obtain ⟨hroom, rfl⟩ := checkedNext_eq_ok.mp hnext
      refine .inr ⟨hroom, ?_⟩
      cases hwal : manager.wal.begin io.write manager.nextId with
      | mk result wal =>
          cases result with
          | error cause => exact .inl ⟨cause, wal, rfl, rfl⟩
          | ok lsn => exact .inr ⟨lsn, wal, rfl, rfl⟩

/-- A refused lock request has found an entry, so that it leaves no new one behind. -/
theorem setLock_lockOf (h : manager.lockOf collection ≠ {}) :
    manager.setLock collection (manager.lockOf collection) = manager := by
  cases hget : manager.locks.get collection with
  | none => simp [lockOf, hget] at h
  | some lock =>
      have hsame : manager.locks.insert collection lock = manager.locks :=
        SortedMap.insert_of_get hget
      simp [setLock, lockOf, hget, hsame]

theorem setLock_setLock (first second : LockState) :
    (manager.setLock collection first).setLock collection second =
      manager.setLock collection second := by
  simp [setLock, SortedMap.insert_insert]

/-- A shared lock is refused without effect, or the transaction becomes a reader. -/
theorem acquireShared_cases (id : TransactionId) (collection : String)
    (manager : TransactionManager) :
    (∃ cause, manager.acquireShared id collection = (.error cause, manager)) ∨
    manager.statuses.get id = some .active ∧
      (∀ writer, (manager.lockOf collection).writer = some writer → writer = id) ∧
      manager.acquireShared id collection = (.ok (), manager.setLock collection
        { manager.lockOf collection with
          readers := insert id (manager.lockOf collection).readers }) := by
  simp only [acquireShared]
  cases hactive : manager.ensureActive id with
  | error cause => exact .inl ⟨cause, rfl⟩
  | ok u =>
      dsimp only
      split
      case isTrue hforeign =>
        obtain ⟨writer, hwriter, -⟩ := hforeign
        have hlock : manager.lockOf collection ≠ {} := by
          intro hempty
          simp [hempty] at hwriter
        exact .inl ⟨_, by rw [setLock_lockOf hlock]; rfl⟩
      case isFalse hown =>
        refine .inr ⟨ensureActive_eq_ok.mp hactive, fun writer hwriter => ?_, ?_⟩
        · by_contra hne
          exact hown ⟨writer, hwriter, hne⟩
        · rw [setLock_setLock]

/-- An exclusive lock is refused without effect, or the transaction becomes the writer, where no
other one was a reader or the writer. -/
theorem acquireExclusive_cases (id : TransactionId) (collection : String)
    (manager : TransactionManager) :
    (∃ cause, manager.acquireExclusive id collection = (.error cause, manager)) ∨
    manager.statuses.get id = some .active ∧
      (∀ reader ∈ (manager.lockOf collection).readers, reader = id) ∧
      (∀ writer, (manager.lockOf collection).writer = some writer → writer = id) ∧
      manager.acquireExclusive id collection = (.ok (), manager.setLock collection
        { readers := (manager.lockOf collection).readers.erase id, writer := some id }) := by
  simp only [acquireExclusive]
  cases hactive : manager.ensureActive id with
  | error cause => exact .inl ⟨cause, rfl⟩
  | ok u =>
      dsimp only
      split
      case isTrue hforeign =>
        have hlock : manager.lockOf collection ≠ {} := by
          intro hempty
          simp [hempty] at hforeign
        exact .inl ⟨_, by rw [setLock_lockOf hlock]; rfl⟩
      case isFalse hown =>
        rw [not_or] at hown
        refine .inr ⟨ensureActive_eq_ok.mp hactive, fun reader hreader => ?_,
          fun writer hwriter => ?_, ?_⟩
        · by_contra hne
          exact hown.1 ⟨reader, hreader, hne⟩
        · by_contra hne
          exact hown.2 ⟨writer, hwriter, hne⟩
        · rw [setLock_setLock]

/-- What ending a transaction can do. -/
theorem terminate_cases (io : Io) (call : TransactionId → Call) (outcome : TransactionStatus)
    (id : TransactionId) (manager : TransactionManager) :
    (∃ cause, manager.ensureActive id = .error cause ∧
      manager.terminate io call outcome id = (.error cause, manager)) ∨
    manager.statuses.get id = some .active ∧
      ((∃ cause wal, (call id).run io.write manager.wal = (.error cause, wal) ∧
        manager.terminate io call outcome id = (.error cause, { manager with wal := wal })) ∨
      ∃ lsn wal, (call id).run io.write manager.wal = (.ok lsn, wal) ∧
        (io.syncs = false ∧
          manager.terminate io call outcome id = (.error .io, { manager with wal := wal }) ∨
        io.syncs = true ∧
          manager.terminate io call outcome id = (.ok (), { manager with
            wal := wal.flush
            statuses := manager.statuses.insert id outcome
            locks := releaseLocks id manager.locks }))) := by
  simp only [terminate]
  cases hactive : manager.ensureActive id with
  | error cause => exact .inl ⟨cause, rfl, rfl⟩
  | ok u =>
      refine .inr ⟨ensureActive_eq_ok.mp hactive, ?_⟩
      cases hwal : (call id).run io.write manager.wal with
      | mk result wal =>
          cases result with
          | error cause => exact .inl ⟨cause, wal, rfl, rfl⟩
          | ok lsn =>
              refine .inr ⟨lsn, wal, rfl, ?_⟩
              cases hsyncs : io.syncs with
              | false => exact .inl ⟨rfl, by simp [WriteAheadLog.tryFlush]⟩
              | true => exact .inr ⟨rfl, by simp [WriteAheadLog.tryFlush]⟩

end Calls

end TransactionManager

end NovaBase.Transaction
