import NovaBase.Core.Path
import NovaBase.Executor.Execute
import NovaBase.Intelligence.Analysis

/-!
# Execution telemetry

An execution leaves one event behind, whether it succeeds or not. The event tells
the shape of the query, the paths of its predicate and what its plan reads, but no
literal of it.
-/

namespace NovaBase.Executor

open Lib NovaQl Index Intelligence

/-- How many documents a result stands for. -/
def resultCount : ExecutionResult → Nat
  | .documents documents => documents.length
  | .inserted _ => 1
  | .updated count => count
  | .deleted count => count
  | _ => 0

section Shape

/-- A command without its literals. -/
def commandShape : Command → String
  | .get collection => s!"get:{collection}"
  | .insert collection _ => s!"insert:{collection}"
  | .update collection => s!"update:{collection}"
  | .delete collection => s!"delete:{collection}"
  | .createCollection _ => "create_collection"
  | .dropCollection _ => "drop_collection"
  | .createIndex _ _ _ => "create_index"
  | .dropIndex _ => "drop_index"

/-- A stage without its literals. -/
def stageShape : Stage → String
  | .filter _ => "filter"
  | .project _ => "project"
  | .sort _ => "sort"
  | .limit _ => "limit"
  | .skip _ => "skip"
  | .set _ => "set"

/-- The shape of a query: its command and its stages. -/
def fingerprint (query : Query) : String :=
  query.stages.foldl (fun value stage => (value ++ "|") ++ stageShape stage)
    (commandShape query.command)

/-- The collection that a command is about. -/
def commandCollection : Command → Option String
  | .get collection => some collection
  | .insert collection _ => some collection
  | .update collection => some collection
  | .delete collection => some collection
  | .createIndex _ collection _ => some collection
  | _ => none

end Shape

section Paths

mutual

/-- The paths of an expression, from left to right. -/
def collectPaths : Expression → List String
  | .literal _ _ => []
  | .path path _ => [joinDots path.segments]
  | .array values _ => collectPathsOfValues values
  | .object fields _ => collectPathsOfFields fields
  | .unary _ operand _ => collectPaths operand
  | .binary left _ right _ => collectPaths left ++ collectPaths right

/-- The paths in the values of an array. -/
def collectPathsOfValues : List Expression → List String
  | [] => []
  | value :: rest => collectPaths value ++ collectPathsOfValues rest

/-- The paths in the values of an object. -/
def collectPathsOfFields : List (ObjectFieldOf Expression) → List String
  | [] => []
  | ⟨_, value, _⟩ :: rest => collectPaths value ++ collectPathsOfFields rest

end

/-- The path of a comparison with a literal that an index may have as a key. -/
def indexablePathLiteral (path literal : Expression) : Option String :=
  match path, literal with
  | .path path _, .literal (.integer _) _ => some (joinDots path.segments)
  | .path path _, .literal (.float _) _ => some (joinDots path.segments)
  | .path path _, .literal (.string _) _ => some (joinDots path.segments)
  | _, _ => none

/-- The paths of the equalities that an expression implies, from left to right. -/
def collectIndexCandidates : Expression → List String
  | .binary left .and right _ => collectIndexCandidates left ++ collectIndexCandidates right
  | .binary left .equal right _ =>
      ((indexablePathLiteral left right).or (indexablePathLiteral right left)).toList
  | _ => []

/-- The predicates of the filters. -/
def predicates (stages : List Stage) : List Expression :=
  stages.filterMap fun
    | .filter predicate => some predicate
    | _ => none

/-- The paths that the filters of a pipeline read, each once. -/
def predicatePaths (stages : List Stage) : List String :=
  distinct ((predicates stages).flatMap collectPaths)

/-- The paths of the equalities in the filters of a pipeline that an index could answer, each once.
-/
def indexCandidatePaths (stages : List Stage) : List String :=
  distinct ((predicates stages).flatMap collectIndexCandidates)

end Paths

section Events

/-- How a plan reads documents, as an event reports it. -/
def telemetryAccess : AccessPath → TelemetryAccess
  | .command => .command
  | .collectionScan _ => .collectionScan
  | .indexScan _ index _ => .indexScan index

/-- The event of a query, which holds names, paths and counts, and no literal. -/
def buildEvent (query : Query) (plan : QueryPlan) (examined : Nat)
    (result : Except Failure ExecutionResult) (elapsedMicros : Nat) : TelemetryEvent where
  fingerprint := fingerprint query
  collection := commandCollection query.command
  predicatePaths := predicatePaths query.stages
  indexCandidatePaths := indexCandidatePaths query.stages
  access := telemetryAccess plan.access
  examined := examined
  returned := (result.toOption.map resultCount).getD 0
  elapsedMicros := min elapsedMicros u64Max
  succeeded := result.toOption.isSome

variable {β : Type} [ExecutionBackend β]

/-- Execute a parsed query and record one event, unless the execution panics. The time that
it takes is given. -/
def executeWithTelemetry (query : Query) (elapsedMicros : Nat) :
    Action Failure (Run β × List TelemetryEvent) ExecutionResult := fun (run, events) =>
  let plan := plan query (ExecutionBackend.indexDefinitions run.backend)
  let (result, run) := executePlanned query plan { run with examined := 0 }
  match result with
  | .error .panic => (result, run, events)
  | _ => (result, run, events ++ [buildEvent query plan run.examined result elapsedMicros])

end Events

end NovaBase.Executor
