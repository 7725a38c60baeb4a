import NovaBase.Executor.Backend
import NovaBase.Executor.Pipeline
import NovaBase.Executor.Plan

/-!
# The executor

A query is planned for the indexes there are and then run on a backend. Updates
and deletions first run the whole pipeline and then change the documents that it
leaves, one by one.
-/

namespace NovaBase.Executor

open Lib NovaQl Index

/-- Result of executing one query. -/
inductive ExecutionResult
  | documents (documents : List Document)
  | inserted (id : NovaId)
  | updated (count : Nat)
  | deleted (count : Nat)
  | collectionCreated (name : String)
  | collectionDropped (name : String)
  | indexCreated (name : String)
  | indexDropped (name : String)
  | explained (plan : QueryPlan)

/-- A backend, the identifiers to come, and how many documents the last query has read. -/
structure Run (β : Type) where
  backend : β
  ids : IdSource
  examined : Nat

namespace Run

variable {β α : Type}

/-- Act on the backend only. -/
def onBackend : Action Failure β α → Action Failure (Run β) α :=
  Action.zoom backend fun run backend => { run with backend }

/-- Draw identifiers only. -/
def onIds : Action Failure IdSource α → Action Failure (Run β) α :=
  Action.zoom ids fun run ids => { run with ids }

end Run

variable {β : Type} [ExecutionBackend β]

/-- The documents that the plan selects. -/
def accessDocuments (plan : QueryPlan) (collection : String) :
    Action Failure (Run β) (List Document) := do
  let documents ← Run.onBackend <| match plan.access with
    | .indexScan _ index key => ExecutionBackend.scanIndex collection index key
    | .collectionScan _ => ExecutionBackend.scan collection
    | .command => Action.ofExcept
        (.error (.error (.internal "data command received command-only plan")))
  Action.modify fun run => { run with examined := documents.length }
  return documents

/-- The documents that are left of those selected. -/
def selectDocuments (query : Query) (plan : QueryPlan) (kind : CommandKind)
    (collection : String) : Action Failure (Run β) (List Document) := do
  Action.ofExcept (validateStages query.stages kind).lift
  let documents ← accessDocuments plan collection
  Run.onIds (runPipeline documents query.stages)

/-- A new document with the fields of an object. -/
def newDocument (document : Expression) : Action Failure IdSource Document := do
  let fields ← Action.ofExcept <| match document with
    | .object _ _ =>
        match evaluate (.new (.filled 0)) document with
        | .ok (.object fields) => .ok fields
        | .ok _ => .error (.error (invalid "insert requires an object expression"))
        | .error cause => .error (.error cause)
    | _ => .error (.error (invalid "insert requires an object expression"))
  let id ← generate
  intoNovaFields (.new id) fields

/-- Run a command under its plan. An insertion evaluates its document before anything is stored, and
the changes of an update are all computed before the first document is replaced. -/
def executeCommand (query : Query) (plan : QueryPlan) :
    Command → Action Failure (Run β) ExecutionResult
  | .get collection => do
      let documents ← selectDocuments query plan .get collection
      return .documents documents
  | .insert collection document => do
      let inserted ← Run.onIds (newDocument document)
      let id ← Run.onBackend (ExecutionBackend.insert collection inserted)
      return .inserted id
  | .update collection => do
      let documents ← selectDocuments query plan .update collection
      documents.forM fun document =>
        Run.onBackend (ExecutionBackend.replace collection document)
      return .updated documents.length
  | .delete collection => do
      let documents ← selectDocuments query plan .delete collection
      documents.forM fun document =>
        Run.onBackend (ExecutionBackend.delete collection document.id)
      return .deleted documents.length
  | .createCollection name => do
      Run.onBackend (ExecutionBackend.createCollection name)
      return .collectionCreated name
  | .dropCollection name => do
      Run.onBackend (ExecutionBackend.dropCollection name)
      return .collectionDropped name
  | .createIndex name collection [field] => do
      Run.onBackend (ExecutionBackend.createIndex name collection field.segments)
      return .indexCreated name
  | .createIndex _ _ _ => Action.ofExcept (.error (.error
      (.unsupported "composite index keys are not defined in index format v1")))
  | .dropIndex name => do
      Run.onBackend (ExecutionBackend.dropIndex name)
      return .indexDropped name

/-- A query that is to be explained gives its plan, and does nothing else. -/
def executePlanned (query : Query) (plan : QueryPlan) : Action Failure (Run β) ExecutionResult :=
  if query.explain then return .explained plan else executeCommand query plan query.command

/-- Execute a parsed query. -/
def execute (query : Query) : Action Failure (Run β) ExecutionResult := fun run =>
  executePlanned query (plan query (ExecutionBackend.indexDefinitions run.backend))
    { run with examined := 0 }

end NovaBase.Executor
