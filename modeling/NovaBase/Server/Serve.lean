import NovaBase.Core.Error
import NovaBase.Lib.Run

/-!
# The accept loop

`serve` accepts connections until shutdown and then joins its workers in the
order in which it spawned them. What the loop meets from outside comes as
events: what the listener accepts, how the rejection of a busy connection ends,
the ends of workers and the shutdown signal. The loop's own steps are events as
well, so that a run is any order of the two.
-/

namespace NovaBase.Server

open Lib

/-- How a worker ends. -/
inductive Completion
  | returned (result : Result Unit)
  | panicked

/-- What the listener answers. -/
inductive Accepted
  | stream
  | wouldBlock
  | failed (cause : NovaError)

/-- Where `serve` is. While it joins and when it returns, it has joined so many workers. -/
inductive Phase
  | checking
  | accepting
  | rejecting
  | joining (joined : Nat)
  | returned (result : Result Unit) (joined : Nat)

/-- A running server. A worker that has not ended has no completion. -/
structure Serve where
  maxConnections : Nat
  shutdown : Bool
  active : Nat
  workers : List (Option Completion)
  phase : Phase

/-- What happens while the server runs, in the order in which it is seen. -/
inductive Event
  | shutdown
  | completed (worker : Nat) (completion : Completion)
  | check
  | accept (accepted : Accepted)
  | rejected (outcome : Result Unit)
  | join

/-- The error of `serve` when a worker panicked. -/
def workerPanicked : NovaError := .internal "server worker panicked"

namespace Serve

/-- `serve` as it starts. -/
def start (maxConnections : Nat) : Serve := ⟨maxConnections, false, 0, [], .checking⟩

/-- The connection is served on a thread of its own. -/
def spawn (server : Serve) : Serve :=
  { server with
    active := server.active + 1
    workers := server.workers ++ [none]
    phase := .checking }

/-- A worker ends. One that panics does not come to the line that decrements the count. -/
def complete (server : Serve) (worker : Nat) (completion : Completion) : Serve :=
  { server with
    active := match completion with
      | .returned _ => server.active - 1
      | .panicked => server.active
    workers := server.workers.set worker (some completion) }

/-- The loop goes on, or `serve` returns the error. -/
def goesOn (server : Serve) : Result Unit → Serve
  | .ok () => { server with phase := .checking }
  | .error cause => { server with phase := .returned (.error cause) 0 }

/-- The next worker is joined, which waits for its end, unless all are. -/
def join (server : Serve) (joined : Nat) : Option Serve :=
  match server.workers[joined]? with
  | none => some { server with phase := .returned (.ok ()) joined }
  | some none => none
  | some (some .panicked) =>
      some { server with phase := .returned (.error workerPanicked) (joined + 1) }
  | some (some (.returned (.error cause))) =>
      some { server with phase := .returned (.error cause) (joined + 1) }
  | some (some (.returned (.ok ()))) => some { server with phase := .joining (joined + 1) }

/-- The server after an event, if it is possible. Nothing follows the return of `serve`. -/
def step (server : Serve) (event : Event) : Option Serve :=
  match server.phase, event with
  | .returned _ _, _ => none
  | _, .shutdown => some { server with shutdown := true }
  | _, .completed worker completion =>
      match server.workers[worker]? with
      | some none => some (server.complete worker completion)
      | _ => none
  | .checking, .check =>
      some { server with phase := if server.shutdown then .joining 0 else .accepting }
  | .accepting, .accept .stream =>
      if server.maxConnections ≤ server.active then some { server with phase := .rejecting }
      else some server.spawn
  | .accepting, .accept .wouldBlock => some { server with phase := .checking }
  | .accepting, .accept (.failed cause) => some (server.goesOn (.error cause))
  | .rejecting, .rejected outcome => some (server.goesOn outcome)
  | .joining joined, .join => server.join joined
  | _, _ => none

/-- Joins follow shutdown and end with the last worker. -/
def Ordered (server : Serve) : Prop :=
  ∀ joined, server.phase = .joining joined →
    server.shutdown = true ∧ joined ≤ server.workers.length

end Serve

/-- The loop still accepts connections. -/
def Phase.Accepts : Phase → Prop
  | .checking | .accepting | .rejecting => True
  | .joining _ | .returned _ _ => False

/-- What is documented of `serve`, for a server that has met the events. -/
structure Graceful (events : List Event) (server : Serve) : Prop where
  /-- It fails because `accept` failed or because the worker joined last panicked. -/
  errors : ∀ cause joined, server.phase = .returned (.error cause) joined →
    events.getLast? = some (.accept (.failed cause)) ∨
      cause = workerPanicked ∧
        ∃ worker, joined = worker + 1 ∧ server.workers[worker]? = some (some .panicked)
  /-- It accepts until shutdown unless `accept` fails. -/
  accepts : server.shutdown = false →
    server.phase.Accepts ∨ ∃ cause, events.getLast? = some (.accept (.failed cause))
  /-- When it returns after shutdown, all workers are joined. -/
  joins : ∀ result joined, server.phase = .returned result joined → server.shutdown = true →
    joined = server.workers.length

/-- The end of the worker that comes next leaves no later worker without its join. -/
def Serve.Joinable (server : Serve) (joined : Nat) : Prop :=
  match server.workers[joined]? with
  | some (some (.returned result)) => result = .ok ()
  | some (some .panicked) => joined + 1 = server.workers.length
  | _ => True

/-- No rejection fails, no worker ends with an error, only the last worker panics, and `accept`
does not fail between the shutdown signal and the check that sees it, unless there is no worker. -/
def Careful (server : Serve) : Event → Prop
  | .rejected outcome => outcome = .ok ()
  | .accept (.failed _) => server.shutdown = true → server.workers = []
  | .join => ∀ joined, server.phase = .joining joined → server.Joinable joined
  | _ => True

/-- `serve` has not returned. -/
def Serve.Running (server : Serve) : Prop := ∀ result joined, server.phase ≠ .returned result joined

namespace Serve

variable {server next : Serve} {event : Event} {events : List Event}

theorem step_cases (hstep : server.step event = some next) :
    server.Running ∧ (
    (event = .shutdown ∧ next = { server with shutdown := true }) ∨
    (∃ worker completion, event = .completed worker completion ∧
      next = server.complete worker completion) ∨
    (event = .check ∧
      next = { server with phase := if server.shutdown then .joining 0 else .accepting }) ∨
    (event = .accept .stream ∧
      (next = { server with phase := .rejecting } ∨ next = server.spawn)) ∨
    (event = .accept .wouldBlock ∧ next = { server with phase := .checking }) ∨
    (∃ cause, event = .accept (.failed cause) ∧ next = server.goesOn (.error cause)) ∨
    (∃ outcome, event = .rejected outcome ∧ next = server.goesOn outcome) ∨
    ∃ joined, event = .join ∧ server.phase = .joining joined ∧ server.join joined = some next) := by
  unfold step at hstep
  unfold Running
  split at hstep
  all_goals grind

theorem join_cases {joined : Nat} (hjoin : server.join joined = some next) :
    (server.workers[joined]? = none ∧ next = { server with phase := .returned (.ok ()) joined }) ∨
    (server.workers[joined]? = some (some .panicked) ∧
      next = { server with phase := .returned (.error workerPanicked) (joined + 1) }) ∨
    (∃ cause, server.workers[joined]? = some (some (.returned (.error cause))) ∧
      next = { server with phase := .returned (.error cause) (joined + 1) }) ∨
    (server.workers[joined]? = some (some (.returned (.ok ()))) ∧
      next = { server with phase := .joining (joined + 1) }) := by
  unfold join at hjoin
  split at hjoin
  all_goals grind

theorem ordered_start (maxConnections : Nat) : (start maxConnections).Ordered := by
  intro joined hphase
  simp [start] at hphase

/-- A step keeps the order. -/
theorem Ordered.step (hordered : server.Ordered) (hstep : server.step event = some next) :
    next.Ordered := by
  obtain ⟨-, hcases⟩ := step_cases hstep
  intro joined hphase
  rcases hcases with ⟨-, rfl⟩ | ⟨worker, completion, -, rfl⟩ | ⟨-, rfl⟩ | ⟨-, rfl | rfl⟩ |
    ⟨-, rfl⟩ | ⟨cause, -, rfl⟩ | ⟨outcome, -, rfl⟩ | ⟨before, -, hjoining, hjoin⟩
  · exact ⟨rfl, (hordered joined hphase).2⟩
  · have hbefore := hordered joined hphase
    simpa [complete] using hbefore
  · simp only at hphase
    split at hphase
    · rename_i hshutdown
      obtain rfl := Phase.joining.inj hphase
      exact ⟨hshutdown, Nat.zero_le _⟩
    · simp at hphase
  · simp at hphase
  · simp [spawn] at hphase
  · simp at hphase
  · simp [goesOn] at hphase
  · cases outcome <;> simp [goesOn] at hphase
  · rcases join_cases hjoin with ⟨-, rfl⟩ | ⟨-, rfl⟩ | ⟨cause, -, rfl⟩ | ⟨hworker, rfl⟩
    · simp at hphase
    · simp at hphase
    · simp at hphase
    · obtain rfl := Phase.joining.inj hphase
      exact ⟨(hordered before hjoining).1, (List.getElem?_eq_some_iff.mp hworker).1⟩

theorem Running.graceful (hrunning : server.Running) (hordered : server.Ordered) :
    Graceful events server := by
  constructor
  · intro cause joined hphase
    exact absurd hphase (hrunning _ _)
  · intro hopen
    left
    cases hphase : server.phase with
    | checking => exact trivial
    | accepting => exact trivial
    | rejecting => exact trivial
    | joining joined =>
        rw [(hordered joined hphase).1] at hopen
        exact absurd hopen (by decide)
    | returned result joined => exact absurd hphase (hrunning _ _)
  · intro result joined hphase
    exact absurd hphase (hrunning _ _)

/-- The error of an accepted connection is reported at once, and no worker may be left then. -/
theorem Running.graceful_failed {cause : NovaError} :
    Graceful (events ++ [.accept (.failed cause)]) (server.goesOn (.error cause)) ↔
      Careful server (.accept (.failed cause)) := by
  constructor
  · intro hgraceful hshutdown
    exact List.eq_nil_of_length_eq_zero (hgraceful.joins _ 0 rfl hshutdown).symm
  · intro hcareful
    refine ⟨fun found joined hphase => ?_, fun _ => ?_, fun result joined hphase hshutdown => ?_⟩
    · obtain ⟨hfound, -⟩ := Phase.returned.inj hphase
      left
      rw [List.getLast?_concat, Except.error.inj hfound]
    · right
      exact ⟨cause, List.getLast?_concat⟩
    · obtain ⟨-, rfl⟩ := Phase.returned.inj hphase
      have hnone : server.workers = [] := hcareful hshutdown
      simp [goesOn, hnone]

/-- A worker may be joined when it has ended well, or when it is the last and has panicked. -/
theorem Ordered.graceful_join {joined : Nat} (hordered : server.Ordered) (hnext : next.Ordered)
    (hjoining : server.phase = .joining joined) (hjoin : server.join joined = some next) :
    Graceful (events ++ [.join]) next ↔ server.Joinable joined := by
  obtain ⟨hshutdown, hbound⟩ := hordered joined hjoining
  rcases join_cases hjoin with ⟨hworker, rfl⟩ | ⟨hworker, rfl⟩ | ⟨cause, hworker, rfl⟩ |
    ⟨hworker, rfl⟩
  · rw [Joinable, hworker]
    refine iff_of_true ⟨?_, ?_, ?_⟩ trivial
    · intro cause found hphase
      simp at hphase
    · intro hopen
      exact absurd (hopen.symm.trans hshutdown) (by decide)
    · intro result found hphase _
      obtain ⟨-, rfl⟩ := Phase.returned.inj hphase
      exact Nat.le_antisymm hbound (List.getElem?_eq_none_iff.mp hworker)
  · rw [Joinable, hworker]
    constructor
    · intro hgraceful
      exact hgraceful.joins _ _ rfl hshutdown
    · intro hlast
      refine ⟨?_, ?_, ?_⟩
      · intro cause found hphase
        obtain ⟨hcause, rfl⟩ := Phase.returned.inj hphase
        exact .inr ⟨(Except.error.inj hcause).symm, joined, rfl, hworker⟩
      · intro hopen
        exact absurd (hopen.symm.trans hshutdown) (by decide)
      · intro result found hphase _
        obtain ⟨-, rfl⟩ := Phase.returned.inj hphase
        exact hlast
  · rw [Joinable, hworker]
    refine iff_of_false (fun hgraceful => ?_) (fun hcareful => by cases hcareful)
    rcases hgraceful.errors cause (joined + 1) rfl with hlast | ⟨-, worker, hnumber, hpanicked⟩
    · simp at hlast
    · obtain rfl := Nat.succ.inj hnumber
      rw [hworker] at hpanicked
      cases hpanicked
  · rw [Joinable, hworker]
    exact iff_of_true (Running.graceful (fun result joined => by simp) hnext) rfl

/-- A step keeps to the documentation exactly when it is a careful one. -/
theorem Ordered.graceful_step (hordered : server.Ordered) (hstep : server.step event = some next) :
    Graceful (events ++ [event]) next ↔ Careful server event := by
  have hnext : next.Ordered := hordered.step hstep
  obtain ⟨hrunning, hcases⟩ := step_cases hstep
  rcases hcases with ⟨rfl, rfl⟩ | ⟨worker, completion, rfl, rfl⟩ | ⟨rfl, rfl⟩ | ⟨rfl, rfl | rfl⟩ |
    ⟨rfl, rfl⟩ | ⟨cause, rfl, rfl⟩ | ⟨outcome, rfl, rfl⟩ | ⟨joined, rfl, hjoining, hjoin⟩
  · exact iff_of_true (Running.graceful hrunning hnext) trivial
  · exact iff_of_true (Running.graceful hrunning hnext) trivial
  · refine iff_of_true (Running.graceful (fun result joined => ?_) hnext) trivial
    simp only
    split <;> simp
  · exact iff_of_true (Running.graceful (fun result joined => by simp) hnext) trivial
  · exact iff_of_true (Running.graceful (fun result joined => by simp [spawn]) hnext) trivial
  · exact iff_of_true (Running.graceful (fun result joined => by simp) hnext) trivial
  · exact Running.graceful_failed
  · cases outcome with
    | ok value =>
        exact iff_of_true (Running.graceful (fun result joined => by simp [goesOn]) hnext) rfl
    | error cause =>
        refine iff_of_false (fun hgraceful => ?_) (fun hcareful => by cases hcareful)
        rcases hgraceful.errors cause 0 rfl with hlast | ⟨-, worker, hworker, -⟩
        · simp at hlast
        · simp at hworker
  · have hcareful : Careful server .join ↔ server.Joinable joined := by
      constructor
      · intro h
        exact h joined hjoining
      · intro h found hfound
        rw [hjoining] at hfound
        exact Phase.joining.inj hfound ▸ h
    rw [hcareful]
    exact hordered.graceful_join hnext hjoining hjoin

end Serve
open Serve

/-- Shutdown is graceful and connections are isolated exactly as long as every step is careful. -/
theorem serve_graceful_iff (maxConnections : Nat) (events : List Event) (last : Serve)
    (hrun : run step events (start maxConnections) = some last) :
    (∀ before after server, events = before ++ after →
        run step before (start maxConnections) = some server → Graceful before server) ↔
      Along step Careful events (start maxConnections) := by
  have hordered : ∀ before server, run step before (start maxConnections) = some server →
      server.Ordered := by
    intro before server hbefore
    exact run_invariant Ordered.step (ordered_start maxConnections) hbefore
  rw [along_iff hrun]
  constructor
  · rintro hgraceful before event after middle rfl hmiddle
    obtain ⟨found, hfound, hrest⟩ := run_append.mp hrun
    obtain rfl : middle = found := Option.some.inj (hmiddle.symm.trans hfound)
    obtain ⟨next, hnext, -⟩ := run_cons.mp hrest
    apply ((hordered before middle hmiddle).graceful_step hnext).mp
    apply hgraceful (before ++ [event]) after next
    · rw [List.append_assoc, List.singleton_append]
    · exact run_append.mpr ⟨middle, hmiddle, run_cons.mpr ⟨next, hnext, rfl⟩⟩
  · rintro hcareful before after server rfl hserver
    rcases List.eq_nil_or_concat before with rfl | ⟨earlier, event, rfl⟩
    · obtain rfl : start maxConnections = server := by simpa using hserver
      exact Running.graceful (fun result joined => by simp [start]) (ordered_start maxConnections)
    · rw [List.concat_eq_append] at hserver hcareful ⊢
      obtain ⟨middle, hmiddle, hrest⟩ := run_append.mp hserver
      obtain ⟨next, hnext, hlast⟩ := run_cons.mp hrest
      obtain rfl : next = server := by simpa using hlast
      apply ((hordered earlier middle hmiddle).graceful_step hnext).mpr
      apply hcareful earlier event after middle _ hmiddle
      rw [List.append_assoc, List.singleton_append]

/-- A connection over the limit whose client has gone. -/
def busyDisconnect : List Event :=
  [.check, .accept .stream, .check, .accept .stream, .rejected (.error .io)]

/-- One client's failed connection ends the server, before any shutdown. -/
theorem busy_disconnect_ends_serve :
    ¬ ∀ maxConnections events server, run step events (start maxConnections) = some server →
      Graceful events server := by
  intro hgraceful
  have herrors := (hgraceful 1 busyDisconnect
    ⟨1, false, 1, [none], .returned (.error .io) 0⟩ rfl).errors .io 0 rfl
  rcases herrors with hlast | ⟨hcause, -⟩
  · cases hlast
  · cases hcause

/-- A worker ends well, and the shutdown waits for it. -/
def quietShutdown : List Event :=
  [.check, .accept .stream, .completed 0 (.returned (.ok ())), .shutdown, .check, .join, .join]

theorem serve_graceful_iff_quietShutdown :
    Graceful quietShutdown ⟨1, true, 0, [some (.returned (.ok ()))], .returned (.ok ()) 1⟩ := by
  have hcareful : Along step Careful quietShutdown (start 1) := by
    refine ⟨trivial, trivial, trivial, trivial, trivial, ?_, ?_, trivial⟩
    · intro joined hphase
      obtain rfl := Phase.joining.inj hphase
      exact rfl
    · intro joined hphase
      obtain rfl := Phase.joining.inj hphase
      exact trivial
  exact (serve_graceful_iff 1 quietShutdown _ rfl).mpr hcareful quietShutdown [] _ rfl rfl

end NovaBase.Server
