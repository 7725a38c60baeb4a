import NovaBase.Auth.Service
import NovaBase.Executor.Execute
import NovaBase.Server.Protocol

/-!
# One connection

A connection carries one request. The server parses the query, asks for the
permission that its command needs and runs it on the backend that all
connections share. A worker that panics while it holds the backend poisons it
for all others.
-/

namespace NovaBase.Server

open Lib Auth Executor NovaQl

/-- The permission that a command needs. -/
def requiredPermission : Command → Permission
  | .get _ => .read
  | .insert _ _ => .write
  | .update _ => .write
  | .delete _ => .write
  | .createCollection _ => .manage
  | .dropCollection _ => .manage
  | .createIndex _ _ _ => .manage
  | .dropIndex _ => .manage

/-- The answer to a request that is not carried out. -/
abbrev Refusal := ErrorCode × Message

/-- Whether the bearer of the token may run the command. -/
def authorize (auth : Option AuthService) (token : Option String) (command : Command) :
    Except Refusal Unit :=
  match auth with
  | none => .ok ()
  | some service =>
      match token with
      | none => .error (.authentication, "authentication token required")
      | some token =>
          match service.authorize token (requiredPermission command) with
          | .ok _ => .ok ()
          | .error (.permissionDenied message) =>
              .error (.authorization, NovaError.display (.permissionDenied message))
          | .error (.auth message) => .error (.authentication, NovaError.display (.auth message))
          | .error other => .error (.internal, other.display)

/-- The backend behind its mutex. -/
structure Shared (β : Type) where
  run : Run β
  poisoned : Bool

/-- What a response says, before its result is printed. -/
abbrev Outcome := Except Refusal ExecutionResult

section Requests

variable {β : Type} [ExecutionBackend β] (parse : String → Except Message Query)

/-- Run a query on the shared backend. A worker that panics gives no answer. -/
def runQuery (query : Query) (shared : Shared β) : Option Outcome × Shared β :=
  if shared.poisoned then (some (.error (.internal, "server backend mutex poisoned")), shared)
  else
    match execute query shared.run with
    | (.ok result, run) => (some (.ok result), ⟨run, false⟩)
    | (.error (.error cause), run) => (some (.error (.execution, cause.display)), ⟨run, false⟩)
    | (.error .panic, run) => (none, ⟨run, true⟩)

/-- Answer a request with its id. -/
def handleRequest (auth : Option AuthService) (request : Request) (shared : Shared β) :
    Option (UInt64 × Outcome) × Shared β :=
  match parse request.query with
  | .error message => (some (request.requestId, .error (.parse, message)), shared)
  | .ok query =>
      match authorize auth request.authToken query.command with
      | .error refusal => (some (request.requestId, .error refusal), shared)
      | .ok () =>
          let (outcome, shared) := runQuery query shared
          (outcome.map (Prod.mk request.requestId), shared)

/-- Read and answer the request of a connection. -/
def handleConnection (maximum : Nat) (auth : Option AuthService) (stream : Bytes)
    (shared : Shared β) : Option (UInt64 × Outcome) × Shared β :=
  match readRequest maximum stream with
  | .error cause => (some (0, .error (.protocol, cause.display)), shared)
  | .ok (request, _) => handleRequest parse auth request shared

end Requests

end NovaBase.Server
