import NovaBase.Lib.Schedule
import NovaBase.Transaction.Outcome

/-!
# Strict two-phase locking

Clients call the transaction manager and, between calls, read and write
collections. They keep the discipline: an access needs a lock that its
transaction was granted, an exclusive one for a write, and a transaction does
nothing after its commit or rollback has succeeded. Every history of disciplined
clients is rigorous, hence serializable in the order of the commits.
-/

namespace NovaBase.Transaction

open Lib Lib.Schedule Wal

/-- What happens among the clients. -/
inductive Action
  | call (act : Act)
  | access (access : Access TransactionId String)
  deriving DecidableEq

/-- A lock that a call was granted. -/
structure Grant where
  id : TransactionId
  collection : String
  mode : Mode
  deriving DecidableEq

/-- The manager, the locks that clients were granted, and what they and their commits and rollbacks
have done so far. -/
structure Clients where
  manager : TransactionManager
  granted : List Grant
  history : List (Event TransactionId String)

/-- The lock that a successful call grants. -/
def grants : Request → List Grant
  | .acquireShared id collection => [⟨id, collection, .shared⟩]
  | .acquireExclusive id collection => [⟨id, collection, .exclusive⟩]
  | _ => []

/-- The end that a successful call is. -/
def ends : Request → List (Event TransactionId String)
  | .commit id => [.finish id true]
  | .rollback id => [.finish id false]
  | _ => []

namespace Clients

/-- The owner of an access has not ended, and was granted a lock that allows the access. -/
def Allowed (clients : Clients) (access : Access TransactionId String) : Prop :=
  access.owner ∉ finished clients.history ∧
    ∃ grant ∈ clients.granted, grant.id = access.owner ∧ grant.collection = access.item ∧
      (access.writes → grant.mode = .exclusive)

instance (clients : Clients) (access : Access TransactionId String) :
    Decidable (clients.Allowed access) :=
  inferInstanceAs (Decidable (_ ∧ ∃ grant ∈ clients.granted, _))

/-- One call or one disciplined access. -/
def step (clients : Clients) : Action → Option Clients
  | .call act =>
      match clients.manager.handle act with
      | (.error _, manager) => some { clients with manager := manager }
      | (.ok _, manager) => some {
          manager := manager
          granted := clients.granted ++ grants act.request
          history := clients.history ++ ends act.request }
  | .access access =>
      if clients.Allowed access then
        some { clients with history := clients.history ++ [.access access] }
      else none

/-- A manager that has just been opened, and nothing done. -/
def start (manager : TransactionManager) : Clients := ⟨manager, [], []⟩

/-- Locks granted are held until their transaction ends, accesses were allowed, and the history is
rigorous. -/
structure Disciplined (clients : Clients) : Prop where
  safe : clients.manager.Safe
  held : ∀ grant ∈ clients.granted, grant.id ∉ finished clients.history →
    clients.manager.Holds grant.id grant.collection grant.mode
  final : ∀ id ∈ finished clients.history, ∃ status, status ≠ .active ∧
    clients.manager.statuses.get id = some status
  allowed : ∀ access ∈ accesses clients.history, ∃ grant ∈ clients.granted,
    grant.id = access.owner ∧ grant.collection = access.item ∧
      (access.writes → grant.mode = .exclusive)
  rigorous : Rigorous clients.history

end Clients

open TransactionManager

/-- Who holds a collection exclusively holds it alone. -/
theorem TransactionManager.Safe.exclusive_alone {manager : TransactionManager}
    (h : manager.Safe) {id other : TransactionId} {collection : String} {mode : Mode}
    (hexclusive : manager.Holds id collection .exclusive)
    (hother : manager.Holds other collection mode) : other = id := by
  have hwriter : (manager.lockOf collection).writer = some id :=
    hexclusive.resolve_right fun hreader => absurd hreader.1 (by decide)
  rcases hother with hwriter' | ⟨-, hreader⟩
  · exact Option.some.inj (hwriter'.symm.trans hwriter)
  · exact Finset.mem_singleton.mp (h.alone id collection hwriter hreader)

/-- Of two locks held on one collection by different transactions neither is exclusive. -/
theorem TransactionManager.Safe.compatible {manager : TransactionManager} (h : manager.Safe)
    {a b : Access TransactionId String} (hconflict : Conflict a b) {modeA modeB : Mode}
    (ha : manager.Holds a.owner a.item modeA) (hb : manager.Holds b.owner b.item modeB)
    (hwritesA : a.writes → modeA = .exclusive) (hwritesB : b.writes → modeB = .exclusive) :
    False := by
  obtain ⟨hne, hitem, hwrites⟩ := hconflict
  rw [hitem] at ha
  rcases hwrites with hwrites | hwrites
  · exact hne (h.exclusive_alone (hwritesA hwrites ▸ ha) hb).symm
  · exact hne (h.exclusive_alone (hwritesB hwrites ▸ hb) ha)

namespace Clients.Disciplined

variable {clients next : Clients}

theorem start {manager : TransactionManager} (h : manager.Safe) :
    (Clients.start manager).Disciplined :=
  ⟨h, by simp [Clients.start], by simp [Clients.start, finished], by simp [Clients.start, accesses],
    rigorous_nil⟩

theorem access (h : clients.Disciplined) {access : Access TransactionId String}
    (hallowed : clients.Allowed access) :
    Disciplined { clients with history := clients.history ++ [.access access] } := by
  obtain ⟨hopen, hgrant⟩ := hallowed
  have hfinished : finished (clients.history ++ [.access access]) = finished clients.history := by
    rw [finished_append]
    exact List.append_nil _
  refine ⟨h.safe, by rw [hfinished]; exact h.held, by rw [hfinished]; exact h.final, ?_,
    h.rigorous.concat ⟨hopen, fun earlier hearlier hconflict => ?_⟩⟩
  · intro found hfound
    rw [accesses_append] at hfound
    rcases List.mem_append.mp hfound with hold | hnew
    · exact h.allowed found hold
    · obtain rfl : found = access := by simpa [accesses] using hnew
      exact hgrant
  · by_contra hearlierOpen
    obtain ⟨mine, hmine, hmineId, hmineItem, hmineMode⟩ := hgrant
    obtain ⟨other, hother, hotherId, hotherItem, hotherMode⟩ := h.allowed earlier hearlier
    have hmineHeld := h.held mine hmine (hmineId ▸ hopen)
    have hotherHeld := h.held other hother (hotherId ▸ hearlierOpen)
    rw [hmineId, hmineItem] at hmineHeld
    rw [hotherId, hotherItem] at hotherHeld
    exact h.safe.compatible hconflict hotherHeld hmineHeld hotherMode hmineMode

/-- The ends of a successful call are those of its transaction. -/
theorem mem_ends {request : Request} {event : Event TransactionId String}
    (h : event ∈ ends request) : ∃ id committed, event = .finish id committed ∧
      (request = .commit id ∨ request = .rollback id) := by
  cases request with
  | commit id => exact ⟨id, true, by simpa [ends] using h, .inl rfl⟩
  | rollback id => exact ⟨id, false, by simpa [ends] using h, .inr rfl⟩
  | _ => simp [ends] at h

theorem mem_grants {request : Request} {grant : Grant} (h : grant ∈ grants request) :
    request = grant.mode.request grant.id grant.collection := by
  cases request with
  | acquireShared id collection =>
      obtain rfl : grant = ⟨id, collection, .shared⟩ := by simpa [grants] using h
      rfl
  | acquireExclusive id collection =>
      obtain rfl : grant = ⟨id, collection, .exclusive⟩ := by simpa [grants] using h
      rfl
  | _ => simp [grants] at h

/-- A call that ends no transaction leaves the clients' history alone. -/
theorem held_call (h : clients.Disciplined) {act : Act} {grant : Grant}
    (hgrant : grant ∈ clients.granted) (hopen : grant.id ∉ finished clients.history)
    (hends : ¬Ends grant.id clients.manager act) :
    (clients.manager.handle act).2.Holds grant.id grant.collection grant.mode :=
  holds_handle (h.held grant hgrant hopen) hends

theorem final_call (h : clients.Disciplined) (act : Act) {id : TransactionId}
    (hid : id ∈ finished clients.history) : ∃ status, status ≠ .active ∧
      (clients.manager.handle act).2.statuses.get id = some status := by
  obtain ⟨status, hfinal, hstatus⟩ := h.final id hid
  exact ⟨status, hfinal, final_handle h.safe hstatus hfinal act⟩

/-- A call that fails leaves the clients as they were. -/
theorem refused (h : clients.Disciplined) {act : Act} {cause : NovaError}
    {manager : TransactionManager} (hrun : clients.manager.handle act = (.error cause, manager)) :
    Disciplined { clients with manager := manager } := by
  obtain ⟨hfail, rfl⟩ := Prod.ext_iff.mp hrun
  refine ⟨safe_handle h.safe act, fun grant hgrant hopen => h.held_call hgrant hopen ?_,
    fun id hid => h.final_call act hid, h.allowed, h.rigorous⟩
  exact fun hends => absurd (hfail.symm.trans hends.2) (by simp)

/-- A commit or rollback that returns ends its transaction. -/
theorem ends_of_ok {manager : TransactionManager} {act : Act} {id : TransactionId} {reply : Reply}
    (hrequest : act.request = .commit id ∨ act.request = .rollback id)
    (hok : (manager.handle act).1 = .ok reply) : Ends id manager act := by
  have hdone : ∀ {result : Result Unit}, (fun _ => Reply.done) <$> result = .ok reply →
      (fun _ => Reply.done) <$> result = .ok .done := by
    intro result hresult
    cases result with
    | error cause => simp at hresult
    | ok u => rfl
  refine ⟨hrequest, ?_⟩
  obtain ⟨io, request⟩ := act
  obtain rfl | rfl : request = .commit id ∨ request = .rollback id := hrequest
  · exact hdone hok
  · exact hdone hok

/-- A call that succeeds adds what it was granted, or the end of its transaction. -/
theorem granted (h : clients.Disciplined) {act : Act} {reply : Reply}
    {manager : TransactionManager} (hrun : clients.manager.handle act = (.ok reply, manager)) :
    Disciplined {
      manager := manager
      granted := clients.granted ++ grants act.request
      history := clients.history ++ ends act.request } := by
  obtain ⟨hok, rfl⟩ := Prod.ext_iff.mp hrun
  have hopen : ∀ {id}, id ∉ finished (clients.history ++ ends act.request) →
      id ∉ finished clients.history ∧ ¬Ends id clients.manager act := by
    intro id hid
    rw [finished_append, List.mem_append, not_or] at hid
    refine ⟨hid.1, fun hends => hid.2 ?_⟩
    rcases hends.1 with hrequest | hrequest <;> simp [hrequest, ends, finished]
  have haccesses : accesses (ends act.request) = [] := by
    refine List.eq_nil_iff_forall_not_mem.mpr fun access haccess => ?_
    obtain ⟨event, hevent, hsome⟩ := List.mem_filterMap.mp haccess
    obtain ⟨id, committed, rfl, -⟩ := mem_ends hevent
    simp at hsome
  refine ⟨safe_handle h.safe act, fun grant hgrant hid => ?_, fun id hid => ?_, ?_, ?_⟩
  · obtain ⟨hbefore, hends⟩ := hopen hid
    rcases List.mem_append.mp hgrant with hold | hnew
    · exact h.held_call hold hbefore hends
    · obtain ⟨io, request⟩ := act
      obtain rfl : request = _ := mem_grants hnew
      rcases acquire_cases clients.manager io grant.id grant.collection grant.mode with
        ⟨cause, hfail, -⟩ | ⟨-, hholds⟩
      · exact absurd (hfail.symm.trans hok) (by simp)
      · exact hholds
  · rw [finished_append] at hid
    rcases List.mem_append.mp hid with hold | hnew
    · exact h.final_call act hold
    · obtain ⟨committed, hevent⟩ := mem_finished.mp hnew
      obtain ⟨other, outcome, heq, hrequest⟩ := mem_ends hevent
      cases heq
      exact (status_of_ends (ends_of_ok hrequest hok)).2
  · intro access haccess
    rw [accesses_append, haccesses, List.append_nil] at haccess
    obtain ⟨grant, hgrant, hfits⟩ := h.allowed access haccess
    exact ⟨grant, List.mem_append_left _ hgrant, hfits⟩
  · rcases hlist : ends act.request with _ | ⟨event, rest⟩
    · simpa using h.rigorous
    · obtain ⟨id, committed, rfl, hrequest⟩ := mem_ends (hlist ▸ List.mem_cons_self)
      have hrest : rest = [] := by
        rcases hrequest with hrequest | hrequest <;> rw [hrequest] at hlist <;>
          exact (List.cons.inj hlist).2.symm
      rw [hrest]
      refine h.rigorous.concat fun hfinished => ?_
      obtain ⟨status, hfinal, hstatus⟩ := h.final id hfinished
      rw [(status_of_ends (ends_of_ok hrequest hok)).1] at hstatus
      exact hfinal (Option.some.inj hstatus).symm

theorem step {action : Action} (h : clients.Disciplined)
    (hstep : clients.step action = some next) : next.Disciplined := by
  cases action with
  | call act =>
      cases hrun : clients.manager.handle act with
      | mk result manager =>
          cases result with
          | error cause =>
              obtain rfl := by simpa [Clients.step, hrun] using hstep
              exact h.refused hrun
          | ok reply =>
              obtain rfl := by simpa [Clients.step, hrun] using hstep
              exact h.granted hrun
  | access access =>
      simp only [Clients.step, Option.ite_none_right_eq_some, Option.some.injEq] at hstep
      obtain ⟨hallowed, rfl⟩ := hstep
      exact h.access hallowed

end Clients.Disciplined

/-- Take any interleaving of calls and disciplined accesses, whatever happens to the log. The
conflicts of the committed transactions form no cycle; they follow the order in which the commits
returned, and the committed accesses are equivalent to the serial execution in this order: swaps
of independent neighbours lead from one to the other, and both leave the same items and have shown
the same to every transaction, whatever the accesses compute. And between a write and a later
access of another transaction to the same collection the writer has ended. -/
theorem strict_two_phase_locking_serializes {file : File} {manager : TransactionManager}
    (hopen : openFile file = .ok manager) {actions : List Action} {clients : Clients}
    (hrun : run Clients.step actions (.start manager) = some clients) :
    (∀ id, ¬Relation.TransGen (Edge clients.history) id id) ∧
    (∀ first second, Edge clients.history first second →
      [first, second].Sublist (commits clients.history)) ∧
    Equivalent (committedAccesses clients.history) (serial clients.history) ∧
    (∀ (Λ V : Type) (meaning : Access TransactionId String → Λ → V → Λ × V)
      (state : State TransactionId String Λ V),
      (committedAccesses clients.history).foldl (perform meaning) state =
        (serial clients.history).foldl (perform meaning) state) ∧
    ∀ before between after write other,
      clients.history = before ++ .access write :: (between ++ .access other :: after) →
      write.writes → other.item = write.item → other.owner ≠ write.owner →
      ∃ committed, .finish write.owner committed ∈ between := by
  have hdisciplined : clients.Disciplined :=
    run_invariant Clients.Disciplined.step (.start (safe_openFile hopen)) hrun
  have hrigorous := hdisciplined.rigorous
  refine ⟨hrigorous.acyclic, fun first second hedge => hrigorous.commits_order hedge,
    hrigorous.equivalent_serial, fun Λ V meaning state => ?_, ?_⟩
  · exact hrigorous.equivalent_serial.perform_eq meaning state
  · intro before between after write other heq hwrites hitem hne
    exact mem_finished.mp
      (hrigorous.finished_between heq ⟨Ne.symm hne, hitem.symm, .inl hwrites⟩)

/-- Two transactions that commit in the other order than they began. -/
def sampleActions : List Action :=
  [.call ⟨.perfect, .begin⟩, .call ⟨.perfect, .begin⟩,
    .call ⟨.perfect, .acquireShared 1 "students"⟩, .access ⟨1, "students", false⟩,
    .call ⟨.perfect, .acquireExclusive 2 "grades"⟩, .access ⟨2, "grades", true⟩,
    .call ⟨.perfect, .commit 2⟩, .call ⟨.perfect, .acquireShared 1 "grades"⟩,
    .access ⟨1, "grades", false⟩, .call ⟨.perfect, .commit 1⟩]

theorem serialized_against_begin_order : ∃ clients,
    run Clients.step sampleActions (.start fresh) = some clients ∧
      commits clients.history = [2, 1] ∧
      Equivalent (committedAccesses clients.history) (serial clients.history) := by
  have hcommits : (run Clients.step sampleActions (.start fresh)).map
      (fun clients => commits clients.history) = some [2, 1] := by decide +kernel
  obtain ⟨clients, hrun, hcommits⟩ := Option.map_eq_some_iff.mp hcommits
  exact ⟨clients, hrun, hcommits,
    (strict_two_phase_locking_serializes openFile_nil hrun).2.2.1⟩

end NovaBase.Transaction
