import NovaBase.Executor.Statements
import NovaBase.Server.Connection

/-!
# Clients of the server

A client numbers its requests and sends each over a connection of its own. Any number of
clients share a server, which handles connections in any order. A connection can fail at any
byte in either direction, and a client that gave up does not stop the server from handling
its request later.
-/

namespace NovaBase.Sdk

open Lib Auth Executor NovaQl Nbf Server

/-- How values are printed for a response. -/
structure Printer where
  /-- The `Debug` text of a string. -/
  debug : String → String
  result : ExecutionResult → String

/-- The text of a message. -/
def Printer.message (printer : Printer) (message : Message) : String :=
  message.foldl (fun text fragment =>
    match fragment with
    | .text value => text ++ value
    | .debug value => text ++ printer.debug value) ""

/-- The outcome of a request with its texts. -/
def Printer.outcome (printer : Printer) (outcome : Outcome) : Except (ErrorCode × String) String :=
  match outcome with
  | .ok result => .ok (printer.result result)
  | .error (code, message) => .error (code, printer.message message)

section Serving

/-- A server, less its backend and the sessions of its users. -/
structure NovaServer where
  parse : String → Except Message Query
  maximum : Nat
  printer : Printer

variable {β : Type} [ExecutionBackend β]

/-- The bytes of a response. There are none if the worker panicked or the text is too long. -/
def NovaServer.respond (server : NovaServer) : Option (UInt64 × Outcome) → Bytes
  | none => []
  | some (requestId, outcome) =>
      match writeResponse ⟨requestId, server.printer.outcome outcome⟩ [] with
      | .ok bytes => bytes
      | .error _ => []

/-- The answer to a connection beyond the limit. -/
def NovaServer.rejectBusy (server : NovaServer) (stream : Bytes) : UInt64 × Outcome :=
  let requestId :=
    match readRequest server.maximum stream with
    | .ok (request, _) => request.requestId
    | .error _ => 0
  (requestId, .error (.busy, "server connection limit reached"))

end Serving

/-- The largest payload of a response, unless another limit is set. -/
def defaultMaxResponse : Nat := 16 * 1024 * 1024

/-- What `execute` returns. -/
structure ClientResponse where
  requestId : UInt64
  payload : String

/-- A client, less the address of its server. The timeout is in nanoseconds. -/
structure Client where
  token : Option String
  timeout : Nat
  maximumResponseBytes : Nat
  nextRequestId : UInt64

/-- The error of the client for an error code of the server. -/
def mapServerError (code : ErrorCode) (message : String) : NovaError :=
  match code with
  | .authentication => .auth message
  | .authorization => .permissionDenied message
  | .protocol => .corruption message
  | .parse => .invalidArgument message
  | .execution => .invalidArgument message
  | .busy => .invalidState message
  | .internal => .internal message

namespace Client

/-- A client with safe default limits. -/
def connect : Client := ⟨none, 5000000000, defaultMaxResponse, 1⟩

def setToken (token : String) (client : Client) : Client := { client with token := some token }

def clearToken (client : Client) : Client := { client with token := none }

/-- Sets positive socket and response-size limits. -/
def setLimits (timeout maximumResponseBytes : Nat) : Action NovaError Client Unit := fun client =>
  if timeout = 0 ∨ maximumResponseBytes = 0 then
    (.error (.invalidArgument "client timeout and response limit must be positive"), client)
  else (.ok (), { client with timeout, maximumResponseBytes })

/-- The last request id is never taken: the one after it would overflow. -/
def takeRequestId : Action NovaError Client UInt64 := fun client =>
  if client.nextRequestId.toNat + 1 < 2 ^ 64 then
    (.ok client.nextRequestId, { client with nextRequestId := client.nextRequestId + 1 })
  else (.error (.invalidState "client request id overflow"), client)

/-- What the outcome in a response says to the caller. -/
def deliver (requestId : UInt64) : Except (ErrorCode × String) String → Result ClientResponse
  | .ok payload => .ok ⟨requestId, payload⟩
  | .error (code, message) => .error (mapServerError code message)

/-- What the bytes of a response say about a request. -/
def receive (client : Client) (requestId : UInt64) (reader : Bytes) : Result ClientResponse := do
  let (response, _) ← readResponse client.maximumResponseBytes reader
  require (response.requestId = requestId) (NovaError.corruption
    s!"response id {response.requestId} does not match request id {requestId}")
  deliver requestId response.outcome

end Client

section Calls

variable {ι β : Type}

/-- A connection to the server, with what the client sends over it. -/
structure Link (ι : Type) where
  client : ι
  request : Request
  sent : Bytes

/-- A call of `execute` that has returned, with its connection if the server was reached. -/
structure Call (ι : Type) where
  client : ι
  request : Request
  connection : Option Nat
  result : Result ClientResponse

/-- Clients and their server. A connection that the server has handled has a response, and a
client whose call has not returned is waiting for one. -/
structure System (ι β : Type) where
  clients : ι → Client
  waiting : ι → Option Nat
  connections : List (Link ι)
  responses : Nat → Option Bytes
  shared : Shared β
  returned : List (Call ι)

/-- What happens to the clients and their server. -/
inductive System.Event (ι : Type)
  | setToken (client : ι) (token : String)
  | clearToken (client : ι)
  | setLimits (client : ι) (timeout maximumResponseBytes : Nat)
  /-- `execute` is called, and its connection is refused or not. -/
  | call (client : ι) (query : String) (reached : Bool)
  /-- The server handles a connection of which it gets so many bytes. -/
  | handle (connection count : Nat) (auth : Option AuthService)
  | rejectBusy (connection count : Nat)
  /-- `execute` returns, with so many bytes of the response, or none after a timeout. -/
  | receive (client : ι) (count : Nat)

namespace System

/-- New clients of a server. -/
def start (shared : Shared β) : System ι β :=
  ⟨fun _ => Client.connect, fun _ => none, [], fun _ => none, shared, []⟩

section Steps

variable [DecidableEq ι]

def addReturned (call : Call ι) (system : System ι β) : System ι β :=
  { system with returned := system.returned ++ [call] }

def addConnection (connection : Link ι) (system : System ι β) : System ι β :=
  { system with connections := system.connections ++ [connection] }

def setClient (client : ι) (state : Client) (system : System ι β) : System ι β :=
  { system with clients := Function.update system.clients client state }

def setWaiting (client : ι) (connection : Option Nat) (system : System ι β) : System ι β :=
  { system with waiting := Function.update system.waiting client connection }

/-- A client is changed while none of its calls is under way. -/
def adjust (client : ι) (change : Client → Client) (system : System ι β) : Option (System ι β) :=
  match system.waiting client with
  | some _ => none
  | none => some (system.setClient client (change (system.clients client)))

/-- `execute` takes a request id and sends the request over a new connection. A request that cannot
be encoded closes it, and nothing is sent. -/
def send (client : ι) (query : String) (reached : Bool) (system : System ι β) : System ι β :=
  let state := system.clients client
  match state.takeRequestId with
  | (.error cause, _) =>
      let request := Request.mk state.nextRequestId state.token query
      system.addReturned ⟨client, request, none, .error cause⟩
  | (.ok requestId, next) =>
      let request := Request.mk requestId state.token query
      let system := system.setClient client next
      if reached then
        match encodeRequest request with
        | .error cause =>
            (system.addConnection ⟨client, request, []⟩).addReturned
              ⟨client, request, some system.connections.length, .error cause⟩
        | .ok sent =>
            (system.addConnection ⟨client, request, sent⟩).setWaiting client
              (some system.connections.length)
      else system.addReturned ⟨client, request, none, .error .io⟩

/-- `execute` is called. -/
def call (client : ι) (query : String) (reached : Bool) (system : System ι β) :
    Option (System ι β) :=
  match system.waiting client with
  | some _ => none
  | none => some (system.send client query reached)

/-- `execute` reads the response and returns. -/
def receive (client : ι) (count : Nat) (system : System ι β) : Option (System ι β) :=
  match system.waiting client with
  | none => none
  | some connection =>
      match system.connections[connection]? with
      | none => none
      | some link =>
          let reader := ((system.responses connection).getD []).take count
          let result := (system.clients client).receive link.request.requestId reader
          some ((system.setWaiting client none).addReturned
            ⟨client, link.request, some connection, result⟩)

/-- The system where a connection has its response. -/
def respond (connection : Nat) (bytes : Bytes) (shared : Shared β) (system : System ι β) :
    System ι β :=
  { system with responses := Function.update system.responses connection (some bytes), shared }

/-- A worker handles a connection that has no response yet. -/
def handle [ExecutionBackend β] (server : NovaServer) (connection count : Nat)
    (auth : Option AuthService) (system : System ι β) : Option (System ι β) :=
  match system.connections[connection]?, system.responses connection with
  | some link, none =>
      let handled := handleConnection server.parse server.maximum auth (link.sent.take count)
        system.shared
      some (system.respond connection (server.respond handled.1) handled.2)
  | _, _ => none

/-- The server turns a connection away that has no response yet. -/
def rejectBusy (server : NovaServer) (connection count : Nat) (system : System ι β) :
    Option (System ι β) :=
  match system.connections[connection]?, system.responses connection with
  | some link, none =>
      some (system.respond connection
        (server.respond (some (server.rejectBusy (link.sent.take count)))) system.shared)
  | _, _ => none

/-- The system after an event, if it is possible. -/
def step [ExecutionBackend β] (server : NovaServer) (system : System ι β) :
    Event ι → Option (System ι β)
  | .setToken client token => system.adjust client (Client.setToken token)
  | .clearToken client => system.adjust client Client.clearToken
  | .setLimits client timeout maximum =>
      system.adjust client fun state => (state.setLimits timeout maximum).2
  | .call client query reached => system.call client query reached
  | .handle connection count auth => system.handle server connection count auth
  | .rejectBusy connection count => system.rejectBusy server connection count
  | .receive client count => system.receive client count

/-- The system after the events that are possible when they come. -/
def after [ExecutionBackend β] (server : NovaServer) (system : System ι β)
    (events : List (Event ι)) : System ι β :=
  events.foldl (fun system event => (system.step server event).getD system) system

end Steps

end System

end Calls

end NovaBase.Sdk
