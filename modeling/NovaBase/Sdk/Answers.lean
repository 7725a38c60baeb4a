import NovaBase.Sdk.Session
import NovaBase.Server.Wire

/-!
# What a response can say

A request or a response is cut short by a connection that fails, and never becomes another one.
So the server runs the statement of a connection's own request or none, and a client takes
the answer to its own request or learns nothing.
-/

namespace NovaBase.Sdk

open Lib Auth Executor NovaQl Nbf Server

section Frames

variable {bytes rest : Bytes} {maximum count : Nat}

/-- A request that is read from the first bytes of another is that request. -/
theorem readRequest_take {request found : Request} (hencode : encodeRequest request = .ok bytes)
    (hread : readRequest maximum (bytes.take count) = .ok (found, rest)) : found = request := by
  obtain ⟨consumed, hconsumed, hfound⟩ := readRequest_eq_ok hread
  have hbytes : bytes = consumed ++ (rest ++ bytes.drop count) := by
    rw [← List.append_assoc, ← hconsumed, List.take_append_drop]
  have hwhole := readRequest_encodeRequest hencode (Nat.le_add_left bytes.length headerSize) []
  have hpart := @readRequest_encodeRequest found consumed bytes.length hfound
    (by rw [hbytes, List.length_append]; omega) (rest ++ bytes.drop count)
  rw [← hbytes] at hpart
  rw [List.append_nil] at hwhole
  exact (Prod.mk.inj (Except.ok.inj (hpart.symm.trans hwhole))).1

end Frames

/-- The errors by which the server or the client says that a statement is not run. -/
def Refuses : NovaError → Prop
  | .auth _ | .permissionDenied _ | .invalidState _ | .internal _ => True
  | _ => False

section Unread

theorem silent_require {condition : Prop} [Decidable condition] {cause : NovaError}
    (h : ¬ Refuses cause) : FailsOnly (fun cause => ¬ Refuses cause) (require condition cause) := by
  intro found hfound
  rw [failsOnly_require condition cause found hfound]
  exact h

theorem silent_encodeRequest (request : Request) :
    FailsOnly (fun cause => ¬ Refuses cause) (encodeRequest request) := by
  refine FailsOnly.bind ?_ fun token _ => ?_
  · cases request.authToken with
    | none => exact failsOnly_ok _
    | some token => exact FailsOnly.bind (silent_require not_false) fun _ _ => failsOnly_ok _
  · exact FailsOnly.bind (silent_require not_false) fun _ _ => failsOnly_ok _

end Unread

section Answers

variable {β : Type} [ExecutionBackend β] {server : NovaServer} {auth : Option AuthService}
  {request : Request} {shared : Shared β}

/-- A statement that the server has run for a connection, with its result. -/
structure Execution where
  connection : Nat
  auth : Option AuthService
  statement : Query
  result : Except Failure ExecutionResult

/-- The statement is that of the request, and the bearer of its token may run it. -/
structure Execution.Answers (server : NovaServer) (request : Request) (execution : Execution) :
    Prop where
  parsed : server.parse request.query = .ok execution.statement
  authorized : authorize execution.auth request.authToken execution.statement.command = .ok ()

/-- What the server answers when a statement has been run. -/
def answerOf (requestId : UInt64) : Except Failure ExecutionResult → Option (UInt64 × Outcome)
  | .ok result => some (requestId, .ok result)
  | .error (.error cause) => some (requestId, .error (.execution, cause.display))
  | .error .panic => none

/-- A request is refused and nothing changes, or its statement is run. -/
def Handled (server : NovaServer) (connection : Nat) (request : Request) (shared : Shared β)
    (handled : Option (UInt64 × Outcome) × Shared β) : Prop :=
  (∃ requestId refusal, handled = (some (requestId, .error refusal), shared)) ∨
    ∃ execution : Execution, execution.connection = connection ∧
      execution.Answers server request ∧
      Executor.execute execution.statement shared.run = (execution.result, handled.2.run) ∧
      handled.1 = answerOf request.requestId execution.result

theorem handled_handleRequest (connection : Nat) (auth : Option AuthService) (request : Request)
    (shared : Shared β) :
    Handled server connection request shared (handleRequest server.parse auth request shared) := by
  cases hparse : server.parse request.query with
  | error message => exact .inl ⟨_, _, by rw [handleRequest, hparse]⟩
  | ok statement =>
      cases hauthorize : authorize auth request.authToken statement.command with
      | error refusal =>
          exact .inl ⟨request.requestId, refusal,
            by simp only [handleRequest, hparse, hauthorize]⟩
      | ok _ =>
          have hhandle : handleRequest server.parse auth request shared =
              ((runQuery statement shared).1.map (Prod.mk request.requestId),
                (runQuery statement shared).2) := by
            simp only [handleRequest, hparse, hauthorize]
          rw [hhandle]
          by_cases hpoisoned : shared.poisoned = true
          · left
            rw [runQuery, if_pos hpoisoned]
            exact ⟨_, (.internal, "server backend mutex poisoned"), rfl⟩
          · right
            rw [runQuery, if_neg hpoisoned]
            rcases hresult : Executor.execute statement shared.run with ⟨result, run⟩
            refine ⟨⟨connection, auth, statement, result⟩, rfl, ⟨hparse, hauthorize⟩, ?_⟩
            cases result with
            | ok value => exact ⟨hresult, rfl⟩
            | error failure =>
                cases failure with
                | error cause => exact ⟨hresult, rfl⟩
                | panic => exact ⟨hresult, rfl⟩

/-- What is sent over a connection is its request, or nothing. -/
def Link.Sends {ι : Type} (link : Link ι) : Prop :=
  link.sent = [] ∨ encodeRequest link.request = .ok link.sent

theorem Link.Sends.eq_request {ι : Type} {link : Link ι} (h : link.Sends) {maximum count : Nat}
    {found : Request} {rest : Bytes}
    (hread : readRequest maximum (link.sent.take count) = .ok (found, rest)) :
    found = link.request := by
  rcases h with hsent | hencode
  · rw [hsent, List.take_nil] at hread
    cases hread
  · exact readRequest_take hencode hread

theorem Link.Sends.handled {ι : Type} {link : Link ι} (h : link.Sends) (server : NovaServer)
    (connection count : Nat) (auth : Option AuthService) (shared : Shared β) :
    Handled server connection link.request shared
      (handleConnection server.parse server.maximum auth (link.sent.take count) shared) := by
  cases hread : readRequest server.maximum (link.sent.take count) with
  | error cause => exact .inl ⟨0, _, by rw [handleConnection, hread]⟩
  | ok found =>
      obtain ⟨found, rest⟩ := found
      have hhandle :
          handleConnection server.parse server.maximum auth (link.sent.take count) shared =
            handleRequest server.parse auth link.request shared := by
        rw [handleConnection, hread, h.eq_request hread]
      rw [hhandle]
      exact handled_handleRequest connection auth link.request shared

end Answers

end NovaBase.Sdk
