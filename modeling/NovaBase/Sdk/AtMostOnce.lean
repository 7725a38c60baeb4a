import NovaBase.Sdk.Answers

/-!
# Statements run at most once

The statements that the server has run explain the responses that it has written, and these
explain what calls have returned. Every event keeps this: a connection gets its response when its
statement is run, and no other statement is run for it afterwards.
-/

namespace NovaBase.Sdk

open Lib Auth Executor NovaQl Nbf Server

section Runs

variable {ι β : Type} [ExecutionBackend β] {server : NovaServer} {first : Run β}
  {system : System ι β} {runs : List Execution}

/-- Statements run one after the other. -/
inductive Executed (first : Run β) : List Execution → Run β → Prop
  | nil : Executed first [] first
  | snoc {runs : List Execution} {before after : Run β} {execution : Execution}
      (previous : Executed first runs before)
      (runs_statement : Executor.execute execution.statement before = (execution.result, after)) :
      Executed first (runs ++ [execution]) after

/-- A call that has returned has the request of its connection. It says nothing, or what it says
is read from the response. -/
structure Call.Received (connections : List (Link ι)) (responses : Nat → Option Bytes)
    (call : Call ι) : Prop where
  own : ∀ connection, call.connection = some connection →
    ∃ link, connections[connection]? = some link ∧ link.client = call.client ∧
      link.request = call.request
  result : (∃ cause, call.result = .error cause ∧ (call.connection = none ∨ ¬ Refuses cause)) ∨
    ∃ connection bytes client count, call.connection = some connection ∧
      responses connection = some bytes ∧
      call.result = Client.receive client call.request.requestId (bytes.take count)

theorem Call.received_none (connections : List (Link ι)) (responses : Nat → Option Bytes)
    {client : ι} {request : Request} {cause : NovaError} :
    (Call.mk client request none (.error cause)).Received connections responses where
  own := fun _ h => nomatch h
  result := .inl ⟨cause, rfl, .inl rfl⟩

/-- What a call has received stays received when there are more connections and responses. -/
theorem Call.Received.mono {old new : List (Link ι)} {before after : Nat → Option Bytes}
    {call : Call ι} (h : call.Received old before)
    (hlinks : ∀ {connection : Nat} {link : Link ι}, old[connection]? = some link →
      new[connection]? = some link)
    (hresponses : ∀ {connection : Nat} {bytes : Bytes}, before connection = some bytes →
      after connection = some bytes) : call.Received new after := by
  constructor
  · intro connection hconnection
    obtain ⟨link, hlink, hown⟩ := h.own connection hconnection
    exact ⟨link, hlinks hlink, hown⟩
  · rcases h.result with hsilent | ⟨connection, bytes, client, count, hconnection, hbytes, hresult⟩
    · exact .inl hsilent
    · exact .inr ⟨connection, bytes, client, count, hconnection, hresponses hbytes, hresult⟩

/-- A response leaves the responses of other connections as they are. -/
theorem System.responses_respond {ι β : Type} {system : System ι β} {connection : Nat}
    {bytes : Bytes} {shared : Shared β} (hunanswered : system.responses connection = none)
    {other : Nat} {old : Bytes} (hold : system.responses other = some old) :
    (system.respond connection bytes shared).responses other = some old := by
  have hne : other ≠ connection := by
    rintro rfl
    rw [hunanswered] at hold
    cases hold
  exact (Function.update_of_ne hne _ _).trans hold

/-- The statements that have been run explain the state of the system. -/
structure System.Explained (server : NovaServer) (first : Run β) (system : System ι β)
    (runs : List Execution) : Prop where
  executed : Executed first runs system.shared.run
  once : (runs.map Execution.connection).Nodup
  answers : ∀ execution ∈ runs, ∃ link, system.connections[execution.connection]? = some link ∧
    execution.Answers server link.request ∧ system.responses execution.connection =
      some (server.respond (answerOf link.request.requestId execution.result))
  refused : ∀ connection bytes, system.responses connection = some bytes →
    (∀ execution ∈ runs, execution.connection ≠ connection) →
      ∃ requestId refusal, bytes = server.respond (some (requestId, .error refusal))
  sends : ∀ link ∈ system.connections, link.Sends
  waits : ∀ client connection, system.waiting client = some connection →
    ∃ link, system.connections[connection]? = some link ∧ link.client = client
  received : ∀ call ∈ system.returned, call.Received system.connections system.responses
  numbered : ∀ link ∈ system.connections,
    link.request.requestId < (system.clients link.client).nextRequestId
  increasing : system.connections.Pairwise fun earlier later =>
    earlier.client = later.client → earlier.request.requestId < later.request.requestId

namespace System.Explained

theorem start (server : NovaServer) (shared : Shared β) :
    (System.start shared : System ι β).Explained server shared.run [] where
  executed := .nil
  once := List.nodup_nil
  answers := by simp
  refused := by simp [System.start]
  sends := by simp [System.start]
  waits := by simp [System.start]
  received := by simp [System.start]
  numbered := by simp [System.start]
  increasing := List.Pairwise.nil

theorem addReturned (h : system.Explained server first runs) {call : Call ι}
    (hcall : call.Received system.connections system.responses) :
    (system.addReturned call).Explained server first runs := by
  refine { h with received := ?_ }
  intro found hfound
  rcases List.mem_append.mp hfound with hold | hnew
  · exact h.received found hold
  · rw [List.mem_singleton.mp hnew]
    exact hcall

/-- A connection that the system gains leaves the others as they are. -/
theorem addConnection (h : system.Explained server first runs) {link : Link ι}
    (hsends : link.Sends)
    (hnumbered : link.request.requestId < (system.clients link.client).nextRequestId)
    (hlater : ∀ earlier ∈ system.connections, earlier.client = link.client →
      earlier.request.requestId < link.request.requestId) :
    (system.addConnection link).Explained server first runs := by
  have hkept : ∀ {connection : Nat} {found : Link ι},
      system.connections[connection]? = some found →
        (system.connections ++ [link])[connection]? = some found := by
    intro connection found hfound
    rw [List.getElem?_append_left (List.getElem?_eq_some_iff.mp hfound).1]
    exact hfound
  refine { h with
    answers := ?_
    sends := ?_
    waits := ?_
    received := ?_
    numbered := ?_
    increasing := ?_ }
  · intro execution hexecution
    obtain ⟨found, hfound, hanswers⟩ := h.answers execution hexecution
    exact ⟨found, hkept hfound, hanswers⟩
  · intro found hfound
    rcases List.mem_append.mp hfound with hold | hnew
    · exact h.sends found hold
    · rw [List.mem_singleton.mp hnew]
      exact hsends
  · intro client connection hwaiting
    obtain ⟨found, hfound, hclient⟩ := h.waits client connection hwaiting
    exact ⟨found, hkept hfound, hclient⟩
  · intro call hcall
    exact (h.received call hcall).mono hkept id
  · intro found hfound
    rcases List.mem_append.mp hfound with hold | hnew
    · exact h.numbered found hold
    · rw [List.mem_singleton.mp hnew]
      exact hnumbered
  · apply List.pairwise_append.mpr
    refine ⟨h.increasing, List.pairwise_singleton _ _, ?_⟩
    intro earlier hearlier later hnew hclient
    rw [List.mem_singleton.mp hnew] at hclient ⊢
    exact hlater earlier hearlier hclient

section Responding

variable {connection : Nat} {link : Link ι}

/-- A refusal is no statement. -/
theorem respond_refused (h : system.Explained server first runs)
    (hunanswered : system.responses connection = none) (requestId : UInt64) (refusal : Refusal) :
    (system.respond connection (server.respond (some (requestId, .error refusal)))
      system.shared).Explained server first runs := by
  refine { h with answers := ?_, refused := ?_, received := ?_ }
  · intro execution hexecution
    obtain ⟨found, hfound, hanswers, hresponse⟩ := h.answers execution hexecution
    exact ⟨found, hfound, hanswers, responses_respond hunanswered hresponse⟩
  · intro other bytes hbytes hother
    by_cases hsame : other = connection
    · subst hsame
      have hnew : some _ = some bytes := (Function.update_self other _ _).symm.trans hbytes
      exact ⟨requestId, refusal, (Option.some.inj hnew).symm⟩
    · exact h.refused other bytes ((Function.update_of_ne hsame _ _).symm.trans hbytes) hother
  · intro call hcall
    exact (h.received call hcall).mono id (responses_respond hunanswered)

/-- The statement of a connection is run when the connection gets its response. -/
theorem respond_run (h : system.Explained server first runs)
    (hlink : system.connections[connection]? = some link)
    (hunanswered : system.responses connection = none) {execution : Execution}
    {shared : Shared β} (hconnection : execution.connection = connection)
    (hanswers : execution.Answers server link.request)
    (hrun : Executor.execute execution.statement system.shared.run =
      (execution.result, shared.run)) :
    (system.respond connection (server.respond (answerOf link.request.requestId execution.result))
      shared).Explained server first (runs ++ [execution]) := by
  have hfresh : ∀ earlier ∈ runs, earlier.connection ≠ connection := by
    rintro earlier hearlier rfl
    obtain ⟨found, hfound, hearlierAnswers, hresponse⟩ := h.answers earlier hearlier
    rw [hunanswered] at hresponse
    cases hresponse
  refine { h with
    executed := .snoc h.executed hrun
    once := ?_
    answers := ?_
    refused := ?_
    received := ?_ }
  · rw [List.map_append, List.map_singleton]
    apply List.Nodup.append h.once (List.nodup_singleton _)
    apply List.disjoint_singleton.mpr
    intro hmem
    obtain ⟨earlier, hearlier, heq⟩ := List.mem_map.mp hmem
    exact hfresh earlier hearlier (heq.trans hconnection)
  · intro found hfound
    rcases List.mem_append.mp hfound with hold | hnew
    · obtain ⟨opened, hopened, hfoundAnswers, hresponse⟩ := h.answers found hold
      exact ⟨opened, hopened, hfoundAnswers, responses_respond hunanswered hresponse⟩
    · rw [List.mem_singleton.mp hnew]
      subst hconnection
      exact ⟨link, hlink, hanswers, Function.update_self _ _ _⟩
  · intro other bytes hbytes hother
    have hsame : other ≠ connection := by
      rintro rfl
      exact hother execution (List.mem_append_right _ (List.mem_singleton_self _)) hconnection
    apply h.refused other bytes ((Function.update_of_ne hsame _ _).symm.trans hbytes)
    exact fun earlier hearlier => hother earlier (List.mem_append_left _ hearlier)
  · intro call hcall
    exact (h.received call hcall).mono id (responses_respond hunanswered)

end Responding

theorem handle (h : system.Explained server first runs) {connection count : Nat}
    {auth : Option AuthService} {next : System ι β}
    (hstep : system.handle server connection count auth = some next) :
    ∃ more, next.Explained server first (runs ++ more) := by
  unfold System.handle at hstep
  split at hstep
  · rename_i link hlink hunanswered
    dsimp only at hstep
    obtain rfl := Option.some.inj hstep
    have hsends := h.sends link (List.mem_of_getElem? hlink)
    rcases hsends.handled server connection count auth system.shared with
      ⟨requestId, refusal, hhandled⟩ | ⟨execution, hconnection, hanswers, hrun, hanswer⟩
    · rw [hhandled]
      exact ⟨[], runs.append_nil.symm ▸ h.respond_refused hunanswered requestId refusal⟩
    · rw [hanswer]
      exact ⟨[execution], h.respond_run hlink hunanswered hconnection hanswers hrun⟩
  · cases hstep

theorem rejectBusy (h : system.Explained server first runs) {connection count : Nat}
    {next : System ι β} (hstep : system.rejectBusy server connection count = some next) :
    next.Explained server first runs := by
  unfold System.rejectBusy at hstep
  split at hstep
  · rename_i link hlink hunanswered
    obtain rfl := Option.some.inj hstep
    exact h.respond_refused hunanswered _ _
  · cases hstep

variable [DecidableEq ι]

theorem setClient (h : system.Explained server first runs) {client : ι} {state : Client}
    (hnext : (system.clients client).nextRequestId ≤ state.nextRequestId) :
    (system.setClient client state).Explained server first runs := by
  refine { h with numbered := ?_ }
  intro link hlink
  have hold := h.numbered link hlink
  by_cases hclient : link.client = client
  · rw [hclient] at hold ⊢
    calc
      link.request.requestId < (system.clients client).nextRequestId := hold
      _ ≤ state.nextRequestId := hnext
      _ = ((system.setClient client state).clients client).nextRequestId :=
        congrArg Client.nextRequestId (Function.update_self client state system.clients).symm
  · have hkept : (system.setClient client state).clients link.client = system.clients link.client :=
      Function.update_of_ne hclient _ _
    rwa [hkept]

theorem setWaiting (h : system.Explained server first runs) {client : ι} {waiting : Option Nat}
    (hwaiting : ∀ connection, waiting = some connection →
      ∃ link, system.connections[connection]? = some link ∧ link.client = client) :
    (system.setWaiting client waiting).Explained server first runs := by
  refine { h with waits := ?_ }
  intro other connection hconnection
  by_cases hother : other = client
  · rw [hother] at hconnection ⊢
    exact hwaiting connection ((Function.update_self client _ _).symm.trans hconnection)
  · exact h.waits other connection ((Function.update_of_ne hother _ _).symm.trans hconnection)

theorem adjust (h : system.Explained server first runs) {client : ι} {change : Client → Client}
    {next : System ι β} (hstep : system.adjust client change = some next)
    (hchange : ∀ state, (change state).nextRequestId = state.nextRequestId) :
    next.Explained server first runs := by
  unfold System.adjust at hstep
  split at hstep
  · cases hstep
  · obtain rfl := Option.some.inj hstep
    exact h.setClient (le_of_eq (hchange _).symm)

/-- A call opens a connection with a request of its own, or returns without one. -/
theorem send (h : system.Explained server first runs) (client : ι) (query : String)
    (reached : Bool) : (system.send client query reached).Explained server first runs := by
  unfold System.send
  dsimp only
  by_cases hroom : (system.clients client).nextRequestId.toNat + 1 < 2 ^ 64
  · rw [Client.takeRequestId, if_pos hroom]
    have hgrows : (system.clients client).nextRequestId <
        (system.clients client).nextRequestId + 1 := by
      rw [UInt64.lt_iff_toNat_lt, UInt64.toNat_add, UInt64.toNat_one, Nat.mod_eq_of_lt hroom]
      exact Nat.lt_succ_self _
    set state : Client := { system.clients client with
      nextRequestId := (system.clients client).nextRequestId + 1 }
    have hset : (system.setClient client state).Explained server first runs :=
      h.setClient hgrows.le
    have hnumbered : (system.clients client).nextRequestId <
        ((system.setClient client state).clients client).nextRequestId := by
      calc
        (system.clients client).nextRequestId < state.nextRequestId := hgrows
        _ = ((system.setClient client state).clients client).nextRequestId :=
          congrArg Client.nextRequestId (Function.update_self client state system.clients).symm
    have hlater : ∀ earlier ∈ system.connections, earlier.client = client →
        earlier.request.requestId < (system.clients client).nextRequestId := by
      rintro earlier hearlier rfl
      exact h.numbered earlier hearlier
    set request : Request :=
      ⟨(system.clients client).nextRequestId, (system.clients client).token, query⟩
    have hadd : ∀ sent, (Link.mk client request sent).Sends →
        ((system.setClient client state).addConnection ⟨client, request, sent⟩).Explained server
          first runs :=
      fun sent hsends => hset.addConnection hsends hnumbered hlater
    have hopened : ∀ link : Link ι,
        (system.connections ++ [link])[system.connections.length]? = some link :=
      fun link => List.getElem?_concat_length
    dsimp only
    split
    · split
      · rename_i cause hencode
        apply (hadd [] (.inl rfl)).addReturned
        refine ⟨?_, .inl ⟨cause, rfl, .inr (silent_encodeRequest _ cause hencode)⟩⟩
        intro connection hconnection
        cases hconnection
        exact ⟨_, hopened _, rfl, rfl⟩
      · rename_i sent hencode
        apply (hadd sent (.inr hencode)).setWaiting
        intro connection hconnection
        cases hconnection
        exact ⟨_, hopened _, rfl⟩
    · exact hset.addReturned (Call.received_none _ _)
  · rw [Client.takeRequestId, if_neg hroom]
    exact h.addReturned (Call.received_none _ _)

/-- A client whose call returns takes what it says from the response, or says nothing. -/
theorem receive (h : system.Explained server first runs) {client : ι} {count : Nat}
    {next : System ι β} (hstep : system.receive client count = some next) :
    next.Explained server first runs := by
  unfold System.receive at hstep
  split at hstep
  · cases hstep
  · rename_i connection hwaiting
    obtain ⟨link, hlink, hclient⟩ := h.waits client connection hwaiting
    rw [hlink] at hstep
    obtain rfl := Option.some.inj hstep
    have hidle : (system.setWaiting client none).Explained server first runs :=
      h.setWaiting fun _ hnone => nomatch hnone
    apply hidle.addReturned
    constructor
    · intro other hother
      cases hother
      exact ⟨link, hlink, hclient, rfl⟩
    · cases hresponse : system.responses connection with
      | none => exact .inl ⟨.io, by rw [Option.getD_none, List.take_nil]; rfl, .inr not_false⟩
      | some bytes => exact .inr ⟨connection, bytes, _, count, rfl, hresponse, rfl⟩

theorem call (h : system.Explained server first runs) {client : ι} {query : String}
    {reached : Bool} {next : System ι β} (hstep : system.call client query reached = some next) :
    next.Explained server first runs := by
  unfold System.call at hstep
  split at hstep
  · cases hstep
  · obtain rfl := Option.some.inj hstep
    exact h.send client query reached

theorem step (h : system.Explained server first runs) {event : Event ι} {next : System ι β}
    (hstep : system.step server event = some next) :
    ∃ more, next.Explained server first (runs ++ more) := by
  have hsame : next.Explained server first runs →
      ∃ more, next.Explained server first (runs ++ more) :=
    fun hnext => ⟨[], runs.append_nil.symm ▸ hnext⟩
  cases event with
  | setToken client token =>
      have hadjust : system.adjust client (Client.setToken token) = some next := hstep
      exact hsame (h.adjust hadjust fun _ => rfl)
  | clearToken client =>
      have hadjust : system.adjust client Client.clearToken = some next := hstep
      exact hsame (h.adjust hadjust fun _ => rfl)
  | setLimits client timeout maximum =>
      have hadjust : system.adjust client (fun state => (state.setLimits timeout maximum).2) =
          some next := hstep
      refine hsame (h.adjust hadjust fun state => ?_)
      unfold Client.setLimits
      split <;> rfl
  | call client query reached => exact hsame (h.call hstep)
  | handle connection count auth => exact h.handle hstep
  | rejectBusy connection count => exact hsame (h.rejectBusy hstep)
  | receive client count => exact hsame (h.receive hstep)

theorem after (h : system.Explained server first runs) (events : List (Event ι)) :
    ∃ more, (system.after server events).Explained server first (runs ++ more) := by
  induction events generalizing system runs with
  | nil => exact ⟨[], runs.append_nil.symm ▸ h⟩
  | cons event events ih =>
      cases hstep : system.step server event with
      | none =>
          have hsame : system.after server (event :: events) = system.after server events := by
            rw [System.after, List.foldl_cons, hstep]
            rfl
          rw [hsame]
          exact ih h
      | some next =>
          have hnext : system.after server (event :: events) = next.after server events := by
            rw [System.after, List.foldl_cons, hstep]
            rfl
          obtain ⟨more, hmore⟩ := h.step hstep
          obtain ⟨rest, hrest⟩ := ih hmore
          rw [hnext]
          exact ⟨more ++ rest, List.append_assoc runs more rest ▸ hrest⟩

end System.Explained

namespace System.Explained

variable {call : Call ι} {execution : Execution}

end System.Explained

variable [DecidableEq ι]

end Runs

end NovaBase.Sdk
