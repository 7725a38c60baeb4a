import NovaBase.Executor.Frame
import NovaBase.Server.Connection

/-!
# Roles bound effects

The permission of a request is decided from its command alone, and its effects
come from what the executor does. A command that needs only the permission to
read changes nothing, and one that needs no permission to manage changes neither
which collections nor which indexes there are.
-/

namespace NovaBase.Auth.AuthService

/-- The role of the enabled user that a token belongs to. -/
def roleOf (token : String) (service : AuthService) : Option Role :=
  ((service.sessions.get token).bind fun username =>
    (service.users.get username).filter UserRecord.enabled).map UserRecord.role

theorem authorize_eq_ok {token : String} {permission : Permission} {service : AuthService}
    {principal : Principal} (h : service.authorize token permission = .ok principal) :
    ∃ role, service.roleOf token = some role ∧ role.allows permission = true := by
  rw [authorize] at h
  split at h
  · cases h
  · rename_i username hsession
    split at h
    · cases h
    · rename_i user huser
      obtain ⟨⟨⟩, hallows, -⟩ := bind_eq_ok.mp h
      refine ⟨user.role, ?_, require_eq_ok.mp hallows⟩
      rw [roleOf, hsession, Option.bind_some, huser, Option.map_some]

end NovaBase.Auth.AuthService

namespace NovaBase.Server

open Lib Auth Executor NovaQl

/-- A request that goes through has the token of a user whose role allows its command. -/
theorem authorize_eq_ok {service : AuthService} {token : Option String} {command : Command}
    (h : authorize (some service) token command = .ok ()) :
    ∃ bearer role, token = some bearer ∧ service.roleOf bearer = some role ∧
      role.allows (requiredPermission command) = true := by
  cases token with
  | none => cases h
  | some bearer =>
      simp only [authorize] at h
      cases hauthorize : service.authorize bearer (requiredPermission command) with
      | ok principal =>
          obtain ⟨role, hrole, hallows⟩ := AuthService.authorize_eq_ok hauthorize
          exact ⟨bearer, role, rfl, hrole, hallows⟩
      | error cause =>
          simp only [hauthorize] at h
          cases cause <;> cases h

section Queries

variable {β ν : Type} [ExecutionBackend β] {part : β → ν} {query : Query}

theorem execute_keeps_of_read (h : ReadsKeep part)
    (hquery : requiredPermission query.command = .read) :
    (execute query).Keeps fun run : Run β => part run.backend := by
  cases hcommand : query.command with
  | get collection => exact h.execute_get hcommand
  | _ =>
      rw [hcommand] at hquery
      cases hquery

theorem execute_keeps_of_write (h : WritesKeep part)
    (hquery : requiredPermission query.command ≠ .manage) :
    (execute query).Keeps fun run : Run β => part run.backend := by
  cases hcommand : query.command with
  | get collection => exact h.execute_get hcommand
  | insert collection document => exact h.execute_insert hcommand
  | update collection => exact h.execute_update hcommand
  | delete collection => exact h.execute_delete hcommand
  | _ =>
      rw [hcommand] at hquery
      exact absurd rfl hquery

end Queries

/-- An incoming connection, and the authentication service as it is when the request is checked. -/
structure Connection where
  auth : AuthService
  stream : Bytes

/-- The role behind the token of the request, if there is one, is among those allowed. -/
def Connection.Bounded (maximum : Nat) (allowed : Role → Prop) (connection : Connection) : Prop :=
  ∀ request rest token role, readRequest maximum connection.stream = .ok (request, rest) →
    request.authToken = some token → connection.auth.roleOf token = some role → allowed role

section Connections

variable {β : Type} [ExecutionBackend β] (parse : String → Except Message Query) (maximum : Nat)

/-- Handle connections in the order in which they get the backend. -/
def handleAll (connections : List Connection) (shared : Shared β) : Shared β :=
  connections.foldl (fun shared connection =>
    (handleConnection parse maximum (some connection.auth) connection.stream shared).2) shared

variable {ν : Type} (part : β → ν) {allowed : Role → Prop} {connection : Connection}

theorem runQuery_keeps {query : Query}
    (h : (execute query).Keeps fun run : Run β => part run.backend) (shared : Shared β) :
    part (runQuery query shared).2.run.backend = part shared.run.backend := by
  have hkeeps := h shared.run
  rw [runQuery]
  split
  · rfl
  · split <;> simp_all

/-- A connection keeps what all commands keep that the roles behind its token allow. -/
theorem handleConnection_keeps (hbounded : connection.Bounded maximum allowed)
    (hkeeps : ∀ query : Query, (∃ role, allowed role ∧
        role.allows (requiredPermission query.command) = true) →
      (execute query).Keeps fun run : Run β => part run.backend) (shared : Shared β) :
    part (handleConnection parse maximum (some connection.auth) connection.stream
      shared).2.run.backend = part shared.run.backend := by
  rw [handleConnection]
  split
  · rfl
  · rename_i request rest hrequest
    rw [handleRequest]
    split
    · rfl
    · rename_i query hparse
      split
      · rfl
      · rename_i hauthorize
        obtain ⟨bearer, role, htoken, hrole, hallows⟩ := authorize_eq_ok hauthorize
        have hallowed : allowed role := hbounded request rest bearer role hrequest htoken hrole
        exact runQuery_keeps part (hkeeps query ⟨role, hallowed, hallows⟩) shared

theorem handleAll_keeps {connections : List Connection}
    (hbounded : ∀ connection ∈ connections, connection.Bounded maximum allowed)
    (hkeeps : ∀ query : Query, (∃ role, allowed role ∧
        role.allows (requiredPermission query.command) = true) →
      (execute query).Keeps fun run : Run β => part run.backend) (shared : Shared β) :
    part (handleAll parse maximum connections shared).run.backend = part shared.run.backend := by
  induction connections generalizing shared with
  | nil => rfl
  | cons connection rest ih =>
      obtain ⟨hfirst, hrest⟩ := List.forall_mem_cons.mp hbounded
      rw [handleAll, List.foldl_cons]
      rw [← handleConnection_keeps parse maximum part hfirst hkeeps shared]
      exact ih hrest _

end Connections

section Roles

variable {command : Command}

theorem permission_of_readOnly
    (h : ∃ role : Role, role = .readOnly ∧ role.allows (requiredPermission command) = true) :
    requiredPermission command = .read := by
  obtain ⟨_, rfl, hallows⟩ := h
  cases hpermission : requiredPermission command with
  | read => rfl
  | _ =>
      rw [hpermission] at hallows
      cases hallows

theorem permission_of_not_admin
    (h : ∃ role : Role, role ≠ .admin ∧ role.allows (requiredPermission command) = true) :
    requiredPermission command ≠ .manage := by
  obtain ⟨role, hrole, hallows⟩ := h
  intro hmanage
  rw [hmanage] at hallows
  cases role with
  | admin => exact hrole rfl
  | _ => cases hallows

end Roles

/-- Readers change nothing and writers change no schema, over any connections and whatever a query
is parsed to; a command that changes the backend needs a permission to match. -/
theorem roles_bound_effects [CharacterTables] (parse : String → Except Message Query)
    (maximum : Nat) :
    (∀ connections (shared : Shared (IndexedBackend MemoryBackend)),
      (∀ connection ∈ connections, connection.Bounded maximum (· = .readOnly)) →
        (handleAll parse maximum connections shared).run.backend = shared.run.backend) ∧
    (∀ connections (shared : Shared (IndexedBackend MemoryBackend)),
      (∀ connection ∈ connections, connection.Bounded maximum (· ≠ .admin)) →
        (handleAll parse maximum connections shared).run.backend.schema =
          shared.run.backend.schema) ∧
    ∀ query (run : Run (IndexedBackend MemoryBackend)),
      ((execute query run).2.backend ≠ run.backend →
        requiredPermission query.command = .write ∨
          requiredPermission query.command = .manage) ∧
      ((execute query run).2.backend.schema ≠ run.backend.schema →
        requiredPermission query.command = .manage) := by
  have hreads : ∀ query : Query, requiredPermission query.command = .read →
      (execute query).Keeps fun run : Run (IndexedBackend MemoryBackend) => run.backend :=
    fun query => execute_keeps_of_read (IndexedBackend.readsKeep fun backend => backend)
  have hwrites : ∀ query : Query, requiredPermission query.command ≠ .manage →
      (execute query).Keeps fun run : Run (IndexedBackend MemoryBackend) => run.backend.schema :=
    fun query => execute_keeps_of_write IndexedBackend.writesKeep_schema
  refine ⟨?_, ?_, ?_⟩
  · intro connections shared hbounded
    exact handleAll_keeps parse maximum (fun backend => backend) hbounded
      (fun query hrole => hreads query (permission_of_readOnly hrole)) shared
  · intro connections shared hbounded
    exact handleAll_keeps parse maximum IndexedBackend.schema hbounded
      (fun query hrole => hwrites query (permission_of_not_admin hrole)) shared
  · intro query run
    constructor
    · intro hchanged
      cases hpermission : requiredPermission query.command with
      | read => exact absurd (hreads query hpermission run) hchanged
      | write => exact .inl rfl
      | manage => exact .inr rfl
    · intro hchanged
      by_contra hpermission
      exact hchanged (hwrites query hpermission run)

/-- One user, who may read, and who has logged in. -/
def readerService : AuthService where
  users := SortedMap.empty.insert "ada" ⟨"hash", .readOnly, true⟩
  sessions := SortedMap.empty.insert "token" "ada"
  dummyHash := "hash"

/-- A request of this user. -/
def readerConnection (query : String) : Connection :=
  ⟨readerService, (encodeRequest ⟨1, some "token", query⟩).toOption.getD []⟩

/-- A text is taken for a query of the documents of `c`, or else for a query that drops them. -/
def getOrDrop (text : String) : Except Message Query :=
  .ok ⟨false, if text = "c.get\x7b\x7d" then .get "c" else .dropCollection "c", [], ⟨0, 0⟩⟩

/-- A collection `c` with a document. -/
def storedDocument : Shared (IndexedBackend MemoryBackend) where
  run := ⟨⟨⟨SortedMap.empty.insert "c" (SortedMap.empty.insert (.filled 1) ⟨.filled 1, []⟩)⟩,
    ⟨.empty, .empty⟩⟩, fun _ => .ok (.filled 2), 0⟩
  poisoned := false

theorem bounded_readerConnection (query : String) :
    (readerConnection query).Bounded 1024 (· = .readOnly) := by
  intro request rest token role _ _ hrole
  rw [readerConnection, AuthService.roleOf] at hrole
  simp only [readerService, SortedMap.get_insert] at hrole
  by_cases htoken : "token" = token
  · rw [if_pos htoken] at hrole
    exact (Option.some.inj hrole).symm
  · simp [htoken] at hrole

/-- The user gets the documents, and may not drop them. -/
theorem roles_bound_effects_reader : let _ := CharacterTables.ascii
    (handleConnection getOrDrop 1024 (some readerService)
      (readerConnection "c.get\x7b\x7d").stream storedDocument).1 =
        some (1, .ok (.documents [⟨.filled 1, []⟩])) ∧
    (∃ message, (handleConnection getOrDrop 1024 (some readerService)
      (readerConnection "drop collection c").stream storedDocument).1 =
        some (1, .error (.authorization, message))) ∧
    (handleAll getOrDrop 1024
      [readerConnection "c.get\x7b\x7d", readerConnection "drop collection c"]
        storedDocument).run.backend = storedDocument.run.backend := by
  intro _
  have hget : readRequest 1024 (readerConnection "c.get\x7b\x7d").stream =
      .ok (⟨1, some "token", "c.get\x7b\x7d"⟩, []) := by decide +kernel
  have hdrop : readRequest 1024 (readerConnection "drop collection c").stream =
      .ok (⟨1, some "token", "drop collection c"⟩, []) := by decide +kernel
  refine ⟨?_, ?_, ?_⟩
  · rw [handleConnection, hget]
    rfl
  · rw [handleConnection, hdrop]
    exact ⟨_, rfl⟩
  · apply (roles_bound_effects getOrDrop 1024).1
    exact List.forall_mem_cons.mpr ⟨bounded_readerConnection _,
      List.forall_mem_singleton.mpr (bounded_readerConnection _)⟩

end NovaBase.Server
