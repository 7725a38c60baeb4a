import NovaBase.Lib.Run
import NovaBase.Transaction.Manager

/-!
# The lock table

`Safe` is the invariant of the lock table: a writer is alone, only active
transactions hold locks, and no entry is empty. Every call keeps it, whatever
the log does meanwhile. A lock once granted stays until the commit or the
rollback of its transaction succeeds, and then all locks of the transaction
are gone for good.
-/

namespace NovaBase.Transaction

open Lib Wal

/-- How a collection is locked. -/
inductive Mode
  | shared
  | exclusive
  deriving DecidableEq, Repr

/-- The call that asks for a lock. -/
def Mode.request (id : TransactionId) (collection : String) : Mode → Request
  | .shared => .acquireShared id collection
  | .exclusive => .acquireExclusive id collection

namespace TransactionManager

/-- The transaction has the collection locked, in the given mode or a stronger one. -/
def Holds (id : TransactionId) (collection : String) (mode : Mode)
    (manager : TransactionManager) : Prop :=
  (manager.lockOf collection).writer = some id ∨
    mode = .shared ∧ id ∈ (manager.lockOf collection).readers

/-- The call is the commit or the rollback of the transaction, and succeeds. -/
def Ends (id : TransactionId) (manager : TransactionManager) (act : Act) : Prop :=
  (act.request = .commit id ∨ act.request = .rollback id) ∧ (manager.handle act).1 = .ok .done

/-- The lock table and the states of the transactions fit together. -/
structure Safe (manager : TransactionManager) : Prop where
  fresh : ∀ id status, manager.statuses.get id = some status → id < manager.nextId
  active : ∀ id collection mode, manager.Holds id collection mode →
    manager.statuses.get id = some .active
  alone : ∀ id collection, (manager.lockOf collection).writer = some id →
    (manager.lockOf collection).readers ⊆ {id}
  occupied : ∀ collection lock, manager.locks.get collection = some lock →
    lock.readers.Nonempty ∨ lock.writer.isSome

section Table

variable {manager : TransactionManager} {id other : TransactionId} {collection : String}
  {mode : Mode} {lock : LockState}

theorem lockOf_setLock (manager : TransactionManager) (collection : String) (lock : LockState)
    (other : String) : (manager.setLock collection lock).lockOf other =
      if collection = other then lock else manager.lockOf other := by
  simp only [lockOf, setLock, SortedMap.get_insert]
  split <;> rfl

theorem eq_empty_of_unoccupied (h : ¬(lock.readers.Nonempty ∨ lock.writer.isSome)) :
    lock = {} := by
  obtain ⟨readers, writer⟩ := lock
  simpa [Finset.not_nonempty_iff_eq_empty] using h

/-- Releasing acts on every collection alike, whether its entry stays or not. -/
theorem lockOf_releaseLocks (manager : TransactionManager) (id : TransactionId)
    (statuses : SortedMap TransactionId TransactionStatus) (wal : WriteAheadLog)
    (collection : String) :
    lockOf collection { manager with
        wal := wal, statuses := statuses, locks := releaseLocks id manager.locks } =
      (manager.lockOf collection).release id := by
  simp only [lockOf, releaseLocks, SortedMap.get_retain]
  cases manager.locks.get collection with
  | none => rfl
  | some lock =>
      by_cases h : (lock.release id).readers.Nonempty ∨ (lock.release id).writer.isSome
      · simp [h]
      · simp [eq_empty_of_unoccupied h]

/-- Releasing takes the locks of one transaction. -/
theorem holds_release {statuses : SortedMap TransactionId TransactionStatus}
    {wal : WriteAheadLog} :
    Holds other collection mode { manager with
        wal := wal, statuses := statuses, locks := releaseLocks id manager.locks } ↔
      other ≠ id ∧ manager.Holds other collection mode := by
  simp only [Holds, lockOf_releaseLocks, LockState.release, Finset.mem_erase]
  by_cases hid : (manager.lockOf collection).writer = some id
  · rw [if_pos hid, hid]
    constructor
    · rintro (hnone | ⟨hmode, hne, hreader⟩)
      · simp at hnone
      · exact ⟨hne, .inr ⟨hmode, hreader⟩⟩
    · rintro ⟨hne, hsome | ⟨hmode, hreader⟩⟩
      · exact absurd (Option.some.inj hsome).symm hne
      · exact .inr ⟨hmode, hne, hreader⟩
  · rw [if_neg hid]
    constructor
    · rintro (hwriter | ⟨hmode, hne, hreader⟩)
      · exact ⟨fun h => hid (h ▸ hwriter), .inl hwriter⟩
      · exact ⟨hne, .inr ⟨hmode, hreader⟩⟩
    · rintro ⟨hne, hwriter | ⟨hmode, hreader⟩⟩
      · exact .inl hwriter
      · exact .inr ⟨hmode, hne, hreader⟩

end Table

namespace Safe

variable {manager : TransactionManager} {id : TransactionId} {collection : String}

/-- The log does not matter. -/
theorem log (h : manager.Safe) (wal : WriteAheadLog) : Safe { manager with wal := wal } :=
  ⟨h.fresh, h.active, h.alone, h.occupied⟩

/-- An id is used up. -/
theorem skip (h : manager.Safe) (hroom : manager.nextId.toNat + 1 < 2 ^ 64)
    (wal : WriteAheadLog) : Safe { manager with nextId := manager.nextId + 1, wal := wal } := by
  refine ⟨fun id status hstatus => ?_, h.active, h.alone, h.occupied⟩
  have hlt := UInt64.lt_iff_toNat_lt.mp (h.fresh id status hstatus)
  apply UInt64.lt_iff_toNat_lt.mpr
  simp only [UInt64.toNat_add, UInt64.toNat_one]
  omega

/-- A new id becomes active. -/
theorem begin (h : manager.Safe) (hroom : manager.nextId.toNat + 1 < 2 ^ 64)
    (wal : WriteAheadLog) : Safe { manager with
      nextId := manager.nextId + 1
      statuses := manager.statuses.insert manager.nextId .active
      wal := wal } := by
  refine ⟨fun id status hstatus => ?_, fun id collection mode hholds => ?_, h.alone, h.occupied⟩
  · rw [SortedMap.get_insert] at hstatus
    split at hstatus
    · rename_i heq
      apply UInt64.lt_iff_toNat_lt.mpr
      simp only [← heq, UInt64.toNat_add, UInt64.toNat_one]
      omega
    · exact (h.skip hroom wal).fresh id status hstatus
  · have hactive := h.active id collection mode hholds
    simp only [SortedMap.get_insert]
    split
    · rfl
    · exact hactive

/-- A lock changes hands among active transactions. -/
theorem setLock (h : manager.Safe) {lock : LockState}
    (hreaders : ∀ reader ∈ lock.readers, manager.statuses.get reader = some .active)
    (hwriter : ∀ writer, lock.writer = some writer →
      manager.statuses.get writer = some .active ∧ lock.readers ⊆ {writer})
    (hoccupied : lock.readers.Nonempty ∨ lock.writer.isSome) :
    (manager.setLock collection lock).Safe where
  fresh := h.fresh
  active := by
    intro id other mode hholds
    rw [Holds, lockOf_setLock] at hholds
    split at hholds
    · rcases hholds with hid | ⟨-, hid⟩
      · exact (hwriter id hid).1
      · exact hreaders id hid
    · exact h.active id other mode hholds
  alone := by
    intro id other hid
    rw [lockOf_setLock] at hid ⊢
    split at hid
    · rename_i heq
      rw [if_pos heq]
      exact (hwriter id hid).2
    · rename_i hne
      rw [if_neg hne]
      exact h.alone id other hid
  occupied := by
    intro other found hfound
    simp only [TransactionManager.setLock, SortedMap.get_insert] at hfound
    split at hfound
    · exact Option.some.inj hfound ▸ hoccupied
    · exact h.occupied other found hfound

theorem reader_active (h : manager.Safe) {reader : TransactionId}
    (hreader : reader ∈ (manager.lockOf collection).readers) :
    manager.statuses.get reader = some .active :=
  h.active reader collection .shared (.inr ⟨rfl, hreader⟩)

theorem acquireShared (h : manager.Safe) (hactive : manager.statuses.get id = some .active)
    (hown : ∀ writer, (manager.lockOf collection).writer = some writer → writer = id) :
    (manager.setLock collection { manager.lockOf collection with
      readers := insert id (manager.lockOf collection).readers }).Safe := by
  refine h.setLock (fun reader hreader => ?_) (fun writer hwriter => ?_)
    (.inl ⟨id, Finset.mem_insert_self ..⟩)
  · rcases Finset.mem_insert.mp hreader with rfl | hreader
    · exact hactive
    · exact h.reader_active hreader
  · obtain rfl := hown writer hwriter
    refine ⟨hactive, Finset.insert_subset (Finset.mem_singleton_self _) ?_⟩
    exact h.alone writer collection hwriter

theorem acquireExclusive (h : manager.Safe) (hactive : manager.statuses.get id = some .active)
    (hown : ∀ reader ∈ (manager.lockOf collection).readers, reader = id) :
    (manager.setLock collection
      { readers := (manager.lockOf collection).readers.erase id, writer := some id }).Safe := by
  refine h.setLock (fun reader hreader => ?_) (fun writer hwriter => ?_) (.inr rfl)
  · exact h.reader_active (Finset.mem_of_mem_erase hreader)
  · obtain rfl := Option.some.inj hwriter
    refine ⟨hactive, fun reader hreader => ?_⟩
    exact Finset.mem_singleton.mpr (hown reader (Finset.mem_of_mem_erase hreader))

/-- A transaction ends and gives up its locks. -/
theorem release (h : manager.Safe) (hactive : manager.statuses.get id = some .active)
    (outcome : TransactionStatus) (wal : WriteAheadLog) : Safe { manager with
      wal := wal
      statuses := manager.statuses.insert id outcome
      locks := releaseLocks id manager.locks } where
  fresh := by
    intro other status hstatus
    rw [SortedMap.get_insert] at hstatus
    split at hstatus
    · rename_i heq
      exact heq ▸ h.fresh id .active hactive
    · exact h.fresh other status hstatus
  active := by
    intro other collection mode hholds
    obtain ⟨hne, hholds⟩ := holds_release.mp hholds
    rw [SortedMap.get_insert, if_neg (Ne.symm hne)]
    exact h.active other collection mode hholds
  alone := by
    intro other collection hwriter
    rw [lockOf_releaseLocks] at hwriter ⊢
    simp only [LockState.release] at hwriter ⊢
    split at hwriter
    · simp at hwriter
    · exact (Finset.erase_subset ..).trans (h.alone other collection hwriter)
  occupied := by
    intro collection lock hlock
    simp only [releaseLocks, SortedMap.get_retain, Option.bind_eq_some_iff,
      Option.ite_none_right_eq_some, Option.some.injEq] at hlock
    obtain ⟨old, -, hoccupied, rfl⟩ := hlock
    exact hoccupied

end Safe

section Steps

variable {manager : TransactionManager} {id : TransactionId} {collection : String} {mode : Mode}

theorem safe_terminate (h : manager.Safe) (io : Io) (call : TransactionId → Call)
    (outcome : TransactionStatus) (id : TransactionId) :
    (manager.terminate io call outcome id).2.Safe := by
  rcases terminate_cases io call outcome id manager with
    ⟨cause, -, hrun⟩ | ⟨hactive, ⟨cause, wal, -, hrun⟩ | ⟨lsn, wal, -, ⟨-, hrun⟩ | ⟨-, hrun⟩⟩⟩
  · exact hrun ▸ h
  · exact hrun ▸ h.log wal
  · exact hrun ▸ h.log wal
  · exact hrun ▸ h.release hactive outcome wal.flush

/-- Every call keeps the lock table safe. -/
theorem safe_handle (h : manager.Safe) (act : Act) : (manager.handle act).2.Safe := by
  obtain ⟨io, request⟩ := act
  cases request with
  | begin =>
      rcases begin_cases io manager with
        ⟨cause, -, hrun⟩ | ⟨hroom, ⟨cause, wal, -, hrun⟩ | ⟨lsn, wal, -, hrun⟩⟩
      · simpa only [handle, answer, hrun] using h
      · simpa only [handle, answer, hrun] using h.skip hroom wal
      · simpa only [handle, answer, hrun] using h.begin hroom wal
  | acquireShared id collection =>
      rcases acquireShared_cases id collection manager with
        ⟨cause, hrun⟩ | ⟨hactive, hown, hrun⟩
      · simpa only [handle, answer, hrun] using h
      · simpa only [handle, answer, hrun] using h.acquireShared hactive hown
  | acquireExclusive id collection =>
      rcases acquireExclusive_cases id collection manager with
        ⟨cause, hrun⟩ | ⟨hactive, hown, -, hrun⟩
      · simpa only [handle, answer, hrun] using h
      · simpa only [handle, answer, hrun] using h.acquireExclusive hactive hown
  | commit id => exact safe_terminate h io .commit .committed id
  | rollback id => exact safe_terminate h io .abort .rolledBack id
  | status id => exact h

theorem safe_openFile {file : File} (hopen : openFile file = .ok manager) : manager.Safe := by
  obtain ⟨wal, -, hopen⟩ := bind_eq_ok.mp hopen
  obtain ⟨nextId, -, hopen⟩ := bind_eq_ok.mp hopen
  obtain rfl := Except.ok.inj hopen
  refine ⟨by simp, fun id collection mode hholds => ?_, by simp [lockOf], by simp⟩
  simp [Holds, lockOf] at hholds

/-- Ending a transaction takes no lock of another one, and none at all when it fails. -/
theorem holds_terminate (hholds : manager.Holds id collection mode) {io : Io}
    {call : TransactionId → Call} {outcome : TransactionStatus} {other : TransactionId}
    (h : other = id → (manager.terminate io call outcome other).1 ≠ .ok ()) :
    (manager.terminate io call outcome other).2.Holds id collection mode := by
  rcases terminate_cases io call outcome other manager with
    ⟨cause, -, hrun⟩ | ⟨-, ⟨cause, wal, -, hrun⟩ | ⟨lsn, wal, -, ⟨-, hrun⟩ | ⟨-, hrun⟩⟩⟩
  · exact hrun ▸ hholds
  · exact hrun ▸ hholds
  · exact hrun ▸ hholds
  · have hne : id ≠ other := fun heq => h heq.symm (by rw [hrun])
    rw [hrun]
    exact holds_release.mpr ⟨hne, hholds⟩

/-- A granted lock stays until its transaction ends. -/
theorem holds_handle (hholds : manager.Holds id collection mode) {act : Act}
    (h : ¬Ends id manager act) : (manager.handle act).2.Holds id collection mode := by
  obtain ⟨io, request⟩ := act
  cases request with
  | begin =>
      rcases begin_cases io manager with
        ⟨cause, -, hrun⟩ | ⟨-, ⟨cause, wal, -, hrun⟩ | ⟨lsn, wal, -, hrun⟩⟩
      all_goals
        simp only [handle, answer, hrun]
        exact hholds
  | acquireShared reader other =>
      rcases acquireShared_cases reader other manager with ⟨cause, hrun⟩ | ⟨-, -, hrun⟩
      · simpa only [handle, answer, hrun] using hholds
      · simp only [handle, answer, hrun, Holds, lockOf_setLock]
        split
        · rename_i heq
          subst heq
          exact hholds.imp_right fun hread => ⟨hread.1, Finset.mem_insert_of_mem hread.2⟩
        · exact hholds
  | acquireExclusive writer other =>
      rcases acquireExclusive_cases writer other manager with
        ⟨cause, hrun⟩ | ⟨-, hreaders, hwriter, hrun⟩
      · simpa only [handle, answer, hrun] using hholds
      · simp only [handle, answer, hrun, Holds, lockOf_setLock]
        split
        · rename_i heq
          subst heq
          rcases hholds with hid | ⟨-, hid⟩
          · exact .inl (congrArg some (hwriter id hid).symm)
          · exact .inl (congrArg some (hreaders id hid).symm)
        · exact hholds
  | commit other =>
      refine holds_terminate hholds fun heq hok => h ⟨.inl (by rw [heq]), ?_⟩
      simp only [handle, answer, commit, hok, map_ok]
  | rollback other =>
      refine holds_terminate hholds fun heq hok => h ⟨.inr (by rw [heq]), ?_⟩
      simp only [handle, answer, rollback, hok, map_ok]
  | status other => exact hholds

theorem final_terminate {status : TransactionStatus}
    (hstatus : manager.statuses.get id = some status)
    (hfinal : status ≠ .active) (io : Io) (call : TransactionId → Call)
    (outcome : TransactionStatus) (other : TransactionId) :
    (manager.terminate io call outcome other).2.statuses.get id = some status := by
  rcases terminate_cases io call outcome other manager with
    ⟨cause, -, hrun⟩ | ⟨hactive, ⟨cause, wal, -, hrun⟩ | ⟨lsn, wal, -, ⟨-, hrun⟩ | ⟨-, hrun⟩⟩⟩
  · exact hrun ▸ hstatus
  · exact hrun ▸ hstatus
  · exact hrun ▸ hstatus
  · have hne : other ≠ id := by
      rintro rfl
      rw [hstatus] at hactive
      exact hfinal (Option.some.inj hactive)
    simp only [hrun, SortedMap.get_insert, if_neg hne]
    exact hstatus

/-- The state of a transaction that has ended never changes. -/
theorem final_handle (hsafe : manager.Safe) {status : TransactionStatus}
    (hstatus : manager.statuses.get id = some status) (hfinal : status ≠ .active) (act : Act) :
    (manager.handle act).2.statuses.get id = some status := by
  obtain ⟨io, request⟩ := act
  cases request with
  | begin =>
      have hne : manager.nextId ≠ id := (hsafe.fresh id status hstatus).ne'
      rcases begin_cases io manager with
        ⟨cause, -, hrun⟩ | ⟨-, ⟨cause, wal, -, hrun⟩ | ⟨lsn, wal, -, hrun⟩⟩
      · simpa only [handle, answer, hrun] using hstatus
      · simpa only [handle, answer, hrun] using hstatus
      · simpa only [handle, answer, hrun, SortedMap.get_insert, if_neg hne] using hstatus
  | acquireShared reader other =>
      rcases acquireShared_cases reader other manager with ⟨cause, hrun⟩ | ⟨-, -, hrun⟩
      all_goals
        simp only [handle, answer, hrun]
        exact hstatus
  | acquireExclusive writer other =>
      rcases acquireExclusive_cases writer other manager with ⟨cause, hrun⟩ | ⟨-, -, -, hrun⟩
      all_goals
        simp only [handle, answer, hrun]
        exact hstatus
  | commit other => exact final_terminate hstatus hfinal io .commit .committed other
  | rollback other => exact final_terminate hstatus hfinal io .abort .rolledBack other
  | status other => exact hstatus

end Steps

/-- A transaction that ends was active, and has its outcome recorded. -/
theorem status_of_ends {manager : TransactionManager} {id : TransactionId} {act : Act}
    (h : Ends id manager act) :
    manager.statuses.get id = some .active ∧
      ∃ status, status ≠ .active ∧ (manager.handle act).2.statuses.get id = some status := by
  obtain ⟨io, request⟩ := act
  have hterminate : ∀ call outcome,
      (manager.terminate io call outcome id).1 = .ok () →
      manager.statuses.get id = some .active ∧
        (manager.terminate io call outcome id).2.statuses.get id = some outcome := by
    intro call outcome hok
    rcases terminate_cases io call outcome id manager with
      ⟨cause, -, hrun⟩ | ⟨hactive, ⟨cause, wal, -, hrun⟩ | ⟨lsn, wal, -, ⟨-, hrun⟩ | ⟨-, hrun⟩⟩⟩
    · simp [hrun] at hok
    · simp [hrun] at hok
    · simp [hrun] at hok
    · exact ⟨hactive, by simp [hrun]⟩
  have hok : ∀ {result : Result Unit}, (fun _ => Reply.done) <$> result = .ok .done →
      result = .ok () := by
    intro result hresult
    cases result with
    | error cause => simp at hresult
    | ok u => rfl
  obtain ⟨rfl | rfl, hreply⟩ := h
  · obtain ⟨hactive, hstatus⟩ := hterminate .commit .committed (hok hreply)
    exact ⟨hactive, .committed, by decide, hstatus⟩
  · obtain ⟨hactive, hstatus⟩ := hterminate .abort .rolledBack (hok hreply)
    exact ⟨hactive, .rolledBack, by decide, hstatus⟩

/-- A transaction that has ended holds no lock. -/
theorem Safe.not_holds {manager : TransactionManager} (h : manager.Safe) {id : TransactionId}
    {status : TransactionStatus} (hstatus : manager.statuses.get id = some status)
    (hfinal : status ≠ .active) (collection : String) (mode : Mode) :
    ¬manager.Holds id collection mode := by
  intro hholds
  rw [h.active id collection mode hholds] at hstatus
  exact hfinal (Option.some.inj hstatus).symm

theorem safe_run {manager last : TransactionManager} (h : manager.Safe) {acts : List Act}
    (hrun : run step acts manager = some last) : last.Safe := by
  refine run_invariant (fun hsafe hstep => ?_) h hrun
  obtain rfl := Option.some.inj hstep
  exact safe_handle hsafe _

/-- Locks survive every run in which their transaction does not end. -/
theorem holds_run {manager last : TransactionManager} {id : TransactionId} {collection : String}
    {mode : Mode} (hholds : manager.Holds id collection mode) {acts : List Act}
    (hguard : Along step (fun manager act => ¬Ends id manager act) acts manager)
    (hrun : run step acts manager = some last) : last.Holds id collection mode := by
  refine run_guarded (fun hholds hguard hstep => ?_) hholds hguard hrun
  obtain rfl := Option.some.inj hstep
  exact holds_handle hholds hguard

/-- Outcomes survive every run. -/
theorem final_run {manager last : TransactionManager} (hsafe : manager.Safe) {id : TransactionId}
    {status : TransactionStatus} (hstatus : manager.statuses.get id = some status)
    (hfinal : status ≠ .active) {acts : List Act} (hrun : run step acts manager = some last) :
    last.statuses.get id = some status := by
  have hkeep : ∀ {state act next}, state.Safe ∧ state.statuses.get id = some status →
      step state act = some next → next.Safe ∧ next.statuses.get id = some status := by
    intro state act next hstate hstep
    obtain rfl := Option.some.inj hstep
    exact ⟨safe_handle hstate.1 act, final_handle hstate.1 hstate.2 hfinal act⟩
  exact (run_invariant hkeep ⟨hsafe, hstatus⟩ hrun).2

/-- A lock request is refused without effect, or granted. -/
theorem acquire_cases (manager : TransactionManager) (io : Io) (id : TransactionId)
    (collection : String) (mode : Mode) :
    (∃ cause, (manager.handle ⟨io, mode.request id collection⟩).1 = .error cause ∧
      (manager.handle ⟨io, mode.request id collection⟩).2.locks = manager.locks ∧
      (manager.handle ⟨io, mode.request id collection⟩).2.statuses = manager.statuses) ∨
    (manager.handle ⟨io, mode.request id collection⟩).1 = .ok .done ∧
      (manager.handle ⟨io, mode.request id collection⟩).2.Holds id collection mode := by
  cases mode with
  | shared =>
      rcases acquireShared_cases id collection manager with ⟨cause, hrun⟩ | ⟨-, -, hrun⟩
      · exact .inl ⟨cause, by simp [handle, answer, Mode.request, hrun]⟩
      · refine .inr ⟨by simp [handle, answer, Mode.request, hrun], ?_⟩
        simp only [handle, answer, Mode.request, hrun, Holds, lockOf_setLock, if_true]
        exact .inr ⟨trivial, Finset.mem_insert_self ..⟩
  | exclusive =>
      rcases acquireExclusive_cases id collection manager with ⟨cause, hrun⟩ | ⟨-, -, -, hrun⟩
      · exact .inl ⟨cause, by simp [handle, answer, Mode.request, hrun]⟩
      · refine .inr ⟨by simp [handle, answer, Mode.request, hrun], ?_⟩
        simp only [handle, answer, Mode.request, hrun, Holds, lockOf_setLock, if_true]
        exact .inl trivial

/-- In every state that calls of any clients can lead to, whatever happens to the log: a writer
is alone, lock holders are active, and no entry is empty; from there on a lock is only lost when
its transaction ends, which has none afterwards, and outcomes never change; and a refused lock
request changes nothing. -/
theorem lock_table_safety {file : File} {start : TransactionManager}
    (hopen : openFile file = .ok start) {acts : List Act} {manager : TransactionManager}
    (hrun : run step acts start = some manager) :
    (∀ collection lock, manager.locks.get collection = some lock →
      (∀ id, lock.writer = some id → lock.readers ⊆ {id}) ∧
      (∀ id, lock.writer = some id ∨ id ∈ lock.readers →
        manager.statuses.get id = some .active) ∧
      (lock.readers.Nonempty ∨ lock.writer.isSome)) ∧
    (∀ more last id, run step more manager = some last →
      (Along step (fun manager act => ¬Ends id manager act) more manager →
        ∀ collection mode, manager.Holds id collection mode → last.Holds id collection mode) ∧
      (∀ status, status ≠ .active → manager.statuses.get id = some status →
        last.statuses.get id = some status)) ∧
    (∀ act more last id, Ends id manager act → run step (act :: more) manager = some last →
      ∀ collection mode, ¬last.Holds id collection mode) ∧
    ∀ io id collection mode, ∀ act, act = ⟨io, Mode.request id collection mode⟩ →
      (∃ cause, (manager.handle act).1 = .error cause ∧
        (manager.handle act).2.locks = manager.locks ∧
        (manager.handle act).2.statuses = manager.statuses) ∨
      (manager.handle act).1 = .ok .done ∧
        (manager.handle act).2.Holds id collection mode := by
  have hsafe : manager.Safe := safe_run (safe_openFile hopen) hrun
  refine ⟨fun collection lock hlock => ?_, fun more last id hmore => ⟨?_, ?_⟩, ?_, ?_⟩
  · have hfound : manager.lockOf collection = lock := by simp [lockOf, hlock]
    subst hfound
    refine ⟨fun id hwriter => hsafe.alone id collection hwriter, fun id hid => ?_,
      hsafe.occupied collection _ hlock⟩
    exact hsafe.active id collection .shared (hid.imp_right fun hreader => ⟨rfl, hreader⟩)
  · exact fun hguard collection mode hholds => holds_run hholds hguard hmore
  · exact fun status hfinal hstatus => final_run hsafe hstatus hfinal hmore
  · intro act more last id hends hmore collection mode
    obtain ⟨next, hstep, hrest⟩ := run_cons.mp hmore
    obtain rfl := Option.some.inj hstep
    obtain ⟨-, status, hfinal, hstatus⟩ := status_of_ends hends
    have hnext := safe_handle hsafe act
    exact (safe_run hnext hrest).not_holds (final_run hnext hstatus hfinal hrest) hfinal
      collection mode
  · rintro io id collection mode act rfl
    exact acquire_cases manager io id collection mode

/-- Two clients read a collection, and one of them writes it when the other has rolled back. -/
def sampleActs : List Act :=
  [⟨.perfect, .begin⟩, ⟨.perfect, .begin⟩, ⟨.perfect, .acquireShared 1 "students"⟩,
    ⟨.perfect, .acquireShared 2 "students"⟩, ⟨.perfect, .acquireExclusive 1 "students"⟩,
    ⟨.perfect, .rollback 2⟩, ⟨.perfect, .acquireExclusive 1 "students"⟩]

theorem lock_table_of_two_clients : ∃ manager, run step sampleActs fresh = some manager ∧
    ∃ lock, manager.locks.get "students" = some lock ∧ lock.writer = some 1 ∧
      lock.readers ⊆ {1} := by
  have hlocks : (run step sampleActs fresh).bind (fun manager => manager.locks.get "students") =
      some ⟨∅, some 1⟩ := by decide +kernel
  obtain ⟨manager, hrun, hlock⟩ := Option.bind_eq_some_iff.mp hlocks
  obtain ⟨htable, -⟩ := lock_table_safety openFile_nil hrun
  exact ⟨manager, hrun, _, hlock, rfl, (htable "students" _ hlock).1 1 rfl⟩

end TransactionManager

end NovaBase.Transaction
