import NovaBase.Executor.Execute

/-!
# The reads of a query

A traced backend notes the calls by which the executor reads documents, and is
otherwise the backend that it traces. A query that succeeds has made the one read
of its plan, or none if it selects no documents or is only explained.
-/

namespace NovaBase.Executor

open Lib NovaQl Index

/-- A call by which the executor reads documents. -/
inductive Read
  | scan (collection : String)
  | scanIndex (collection index : String) (key : IndexKey)
  deriving DecidableEq

/-- A backend and the calls that have read from it. -/
structure Traced (β : Type) where
  inner : β
  reads : List Read

namespace Traced

variable {β α : Type}

/-- Act on the store without noting anything. -/
def onInner : Action Failure β α → Action Failure (Traced β) α :=
  Action.zoom inner fun traced inner => { traced with inner }

/-- Note a read. -/
def note (read : Read) : Action Failure (Traced β) Unit :=
  Action.modify fun traced => { traced with reads := traced.reads ++ [read] }

instance executionBackend [ExecutionBackend β] : ExecutionBackend (Traced β) where
  scan collection := do
    note (.scan collection)
    onInner (ExecutionBackend.scan collection)
  insert collection document := onInner (ExecutionBackend.insert collection document)
  replace collection document := onInner (ExecutionBackend.replace collection document)
  delete collection id := onInner (ExecutionBackend.delete collection id)
  createCollection name := onInner (ExecutionBackend.createCollection name)
  dropCollection name := onInner (ExecutionBackend.dropCollection name)
  createIndex name collection field := onInner (ExecutionBackend.createIndex name collection field)
  dropIndex name := onInner (ExecutionBackend.dropIndex name)
  indexDefinitions traced := ExecutionBackend.indexDefinitions traced.inner
  scanIndex collection index key := do
    note (.scanIndex collection index key)
    onInner (ExecutionBackend.scanIndex collection index key)

theorem projects_onInner (x : Action Failure β α) : (onInner x).Projects inner x :=
  fun _ => ⟨rfl, rfl⟩

theorem projects_note (read : Read) (x : Action Failure β α) :
    (do note read; onInner x : Action Failure (Traced β) α).Projects inner x :=
  fun _ => ⟨rfl, rfl⟩

theorem keeps_onInner (x : Action Failure β α) : (onInner x).Keeps reads := fun _ => rfl

end Traced

namespace Run

variable {β α : Type}

/-- A run before which nothing has been read. -/
def traced (run : Run β) : Run (Traced β) := ⟨⟨run.backend, []⟩, run.ids, run.examined⟩

/-- The same run without the notes. -/
def untraced (run : Run (Traced β)) : Run β := ⟨run.backend.inner, run.ids, run.examined⟩

/-- What has been noted so far. -/
def reads (run : Run (Traced β)) : List Read := run.backend.reads

theorem projects_onBackend {x : Action Failure (Traced β) α} {y : Action Failure β α}
    (h : x.Projects Traced.inner y) : (onBackend x).Projects untraced (onBackend y) := by
  intro run
  obtain ⟨hresult, hbackend⟩ := h run.backend
  exact ⟨hresult, congrArg (fun backend => Run.mk backend run.ids run.examined) hbackend⟩

theorem projects_onIds (x : Action Failure IdSource α) :
    (onIds x : Action Failure (Run (Traced β)) α).Projects untraced (onIds x) :=
  fun _ => ⟨rfl, rfl⟩

end Run

section Projection

variable {β : Type} [ExecutionBackend β]

theorem projects_accessDocuments (plan : QueryPlan) (collection : String) :
    (accessDocuments plan collection).Projects Run.untraced
      (accessDocuments plan collection : Action Failure (Run β) _) := by
  apply Action.Projects.bind
  · apply Run.projects_onBackend
    cases plan.access with
    | command => exact Action.Projects.ofExcept _
    | collectionScan _ => exact Traced.projects_note (.scan collection) _
    | indexScan _ index key => exact Traced.projects_note (.scanIndex collection index key) _
  · exact fun documents _ => ⟨rfl, rfl⟩

theorem projects_selectDocuments (query : Query) (plan : QueryPlan) (kind : CommandKind)
    (collection : String) :
    (selectDocuments query plan kind collection).Projects Run.untraced
      (selectDocuments query plan kind collection : Action Failure (Run β) _) := by
  apply (Action.Projects.ofExcept _).bind
  intro _
  apply (projects_accessDocuments plan collection).bind
  exact fun _ => Run.projects_onIds _

theorem projects_executeCommand (query : Query) (plan : QueryPlan) (command : Command) :
    (executeCommand query plan command).Projects Run.untraced
      (executeCommand query plan command : Action Failure (Run β) _) := by
  have hcall : ∀ {α : Type} {x : Action Failure (Traced β) α} {y : Action Failure β α}
      {result : α → ExecutionResult}, x.Projects Traced.inner y →
      (do let value ← Run.onBackend x; return result value).Projects Run.untraced
        (do let value ← Run.onBackend y; return result value) :=
    fun h => (Run.projects_onBackend h).bind fun _ => Action.Projects.pure _
  cases command with
  | get collection =>
      apply (projects_selectDocuments query plan .get collection).bind
      exact fun documents => Action.Projects.pure _
  | insert collection document =>
      apply (Run.projects_onIds _).bind
      exact fun inserted => hcall (Traced.projects_onInner _)
  | update collection =>
      apply (projects_selectDocuments query plan .update collection).bind
      intro documents
      apply Action.Projects.bind
      · apply Action.Projects.forM
        exact fun document => Run.projects_onBackend (Traced.projects_onInner _)
      · exact fun _ => Action.Projects.pure _
  | delete collection =>
      apply (projects_selectDocuments query plan .delete collection).bind
      intro documents
      apply Action.Projects.bind
      · apply Action.Projects.forM
        exact fun document => Run.projects_onBackend (Traced.projects_onInner _)
      · exact fun _ => Action.Projects.pure _
  | createCollection name => exact hcall (Traced.projects_onInner _)
  | dropCollection name => exact hcall (Traced.projects_onInner _)
  | createIndex name collection fields =>
      rcases fields with _ | ⟨field, _ | ⟨second, rest⟩⟩
      · exact Action.Projects.ofExcept _
      · exact hcall (Traced.projects_onInner _)
      · exact Action.Projects.ofExcept _
  | dropIndex name => exact hcall (Traced.projects_onInner _)

/-- Tracing changes nothing else. -/
theorem projects_execute (query : Query) :
    (execute query).Projects Run.untraced (execute query : Action Failure (Run β) _) := by
  intro run
  rw [execute, execute, executePlanned, executePlanned]
  split
  · exact ⟨rfl, rfl⟩
  · exact projects_executeCommand query _ query.command { run with examined := 0 }

end Projection

section Reads

variable {β α : Type}

/-- The read that an access path stands for. -/
def accessReads (collection : String) : AccessPath → List Read
  | .command => []
  | .collectionScan _ => [.scan collection]
  | .indexScan _ index key => [.scanIndex collection index key]

/-- The reads of a command that succeeds. -/
def commandReads (command : Command) (plan : QueryPlan) : List Read :=
  match selectedCollection command with
  | none => []
  | some collection => accessReads collection plan.access

theorem Run.keeps_reads_onBackend {x : Action Failure (Traced β) α} (h : x.Keeps Traced.reads) :
    (Run.onBackend x).Keeps Run.reads :=
  h.zoom fun _ _ hsame => hsame

theorem Run.keeps_reads_onIds (x : Action Failure IdSource α) :
    (Run.onIds x : Action Failure (Run (Traced β)) α).Keeps Run.reads :=
  fun _ => rfl

theorem keeps_reads_call {x : Action Failure β α} {result : α → ExecutionResult} :
    (do let value ← Run.onBackend (Traced.onInner x); return result value).Keeps Run.reads :=
  (Run.keeps_reads_onBackend (Traced.keeps_onInner x)).bind fun _ => Action.Keeps.pure _

variable [ExecutionBackend β] {run last : Run (Traced β)} {plan : QueryPlan}

theorem reads_accessDocuments {collection : String} {documents : List Document}
    (h : accessDocuments plan collection run = (.ok documents, last)) :
    last.reads = run.reads ++ accessReads collection plan.access := by
  obtain ⟨found, middle, hcall, hrest⟩ := Action.bind_eq_ok.mp h
  obtain ⟨-, rfl⟩ := Prod.mk.inj hrest
  cases haccess : plan.access with
  | command =>
      simp only [haccess] at hcall
      cases hcall
  | collectionScan _ =>
      simp only [haccess] at hcall
      exact congrArg (fun ended => Run.reads ended.2) hcall.symm
  | indexScan _ index key =>
      simp only [haccess] at hcall
      exact congrArg (fun ended => Run.reads ended.2) hcall.symm

theorem reads_selectDocuments {query : Query} {kind : CommandKind} {collection : String}
    {documents : List Document}
    (h : selectDocuments query plan kind collection run = (.ok documents, last)) :
    last.reads = run.reads ++ accessReads collection plan.access := by
  obtain ⟨_, middle, hvalid, hrest⟩ := Action.bind_eq_ok.mp h
  obtain ⟨-, rfl⟩ := Prod.mk.inj hvalid
  obtain ⟨found, read, haccess, hpipeline⟩ := Action.bind_eq_ok.mp hrest
  have hkeeps := Run.keeps_reads_onIds (β := β) (runPipeline found query.stages) read
  rw [hpipeline] at hkeeps
  rw [hkeeps, reads_accessDocuments haccess]

/-- A command that selects no documents reads none. -/
theorem keeps_reads_executeCommand {query : Query} {command : Command}
    (h : selectedCollection command = none) :
    (executeCommand query plan command).Keeps (Run.reads : Run (Traced β) → List Read) := by
  cases command with
  | get collection => cases h
  | update collection => cases h
  | delete collection => cases h
  | insert collection document =>
      apply (Run.keeps_reads_onIds _).bind
      exact fun inserted => keeps_reads_call
  | createCollection name => exact keeps_reads_call
  | dropCollection name => exact keeps_reads_call
  | createIndex name collection fields =>
      rcases fields with _ | ⟨field, _ | ⟨second, rest⟩⟩
      · exact Action.Keeps.ofExcept _
      · exact keeps_reads_call
      · exact Action.Keeps.ofExcept _
  | dropIndex name => exact keeps_reads_call

/-- What is done with the documents that are selected reads no others. -/
theorem reads_after_selectDocuments {query : Query} {kind : CommandKind} {collection : String}
    {next : List Document → Action Failure (Run (Traced β)) α} {a : α}
    (hnext : ∀ documents, (next documents).Keeps Run.reads)
    (h : (selectDocuments query plan kind collection >>= next) run = (.ok a, last)) :
    last.reads = run.reads ++ accessReads collection plan.access := by
  obtain ⟨documents, middle, hselect, hrest⟩ := Action.bind_eq_ok.mp h
  have hkeeps := hnext documents middle
  rw [hrest] at hkeeps
  rw [hkeeps, reads_selectDocuments hselect]

theorem reads_executeCommand {query : Query} {command : Command} {result : ExecutionResult}
    (h : executeCommand query plan command run = (.ok result, last)) :
    last.reads = run.reads ++ commandReads command plan := by
  have hmutate : ∀ {call : Document → Action Failure β Unit} {documents : List Document}
      {result : ExecutionResult},
      (do documents.forM fun document => Run.onBackend (Traced.onInner (call document))
          return result : Action Failure (Run (Traced β)) ExecutionResult).Keeps Run.reads := by
    intro call documents result
    apply Action.Keeps.bind
    · apply Action.Keeps.forM
      exact fun document => Run.keeps_reads_onBackend (Traced.keeps_onInner _)
    · exact fun _ => Action.Keeps.pure _
  cases hselected : selectedCollection command with
  | none =>
      have hkeeps : ((executeCommand query plan command) run).2.reads = run.reads :=
        keeps_reads_executeCommand hselected run
      rw [h] at hkeeps
      rw [hkeeps, commandReads, hselected, List.append_nil]
  | some collection =>
      rw [commandReads, hselected]
      cases command with
      | get name =>
          cases hselected
          exact reads_after_selectDocuments (fun _ => Action.Keeps.pure _) h
      | update name =>
          cases hselected
          exact reads_after_selectDocuments (fun _ => hmutate) h
      | delete name =>
          cases hselected
          exact reads_after_selectDocuments (fun _ => hmutate) h
      | _ => cases hselected

omit plan in
/-- A query that succeeds has read what its plan says, unless it is only explained. -/
theorem reads_execute {query : Query} {start : Run β} {result : ExecutionResult}
    (h : execute query start.traced = (.ok result, last)) :
    last.reads = if query.explain = true then []
      else commandReads query.command
        (Executor.plan query (ExecutionBackend.indexDefinitions start.backend)) := by
  rw [execute, executePlanned] at h
  split at h
  next hexplain =>
    obtain ⟨-, rfl⟩ := Prod.mk.inj h
    rw [if_pos hexplain]
    rfl
  next hexplain =>
    rw [if_neg hexplain]
    exact reads_executeCommand h

end Reads

end NovaBase.Executor
