import NovaBase.Executor.Telemetry
import NovaBase.NovaQl.Render

/-!
# Events without literals

Queries of one shape differ at most in the values of their literals, in the counts
of limits and skips and in their ranges. The events of two of them cannot be told
apart by what says something about the query: not even by the access, although the
key that the plan looks up comes from a literal.
-/

namespace NovaBase.NovaQl

section Blank

/-- A literal of the same kind, the same for all of that kind. -/
def Literal.blank : Literal → Literal
  | .null => .null
  | .boolean _ => .boolean false
  | .integer _ => .integer 0
  | .float _ => .float F64.nan
  | .string _ => .string ""

mutual

/-- An expression without the values of its literals and without its ranges. -/
def blankExpression : Expression → Expression
  | .literal value _ => .literal value.blank .none
  | .path names _ => .path names.erase .none
  | .array values _ => .array (blankValues values) .none
  | .object fields _ => .object (blankFields fields) .none
  | .unary operator operand _ => .unary operator (blankExpression operand) .none
  | .binary left operator right _ =>
      .binary (blankExpression left) operator (blankExpression right) .none

/-- Blank out the literals of every value. -/
def blankValues : List Expression → List Expression
  | [] => []
  | value :: rest => blankExpression value :: blankValues rest

/-- Blank out the literals of every field. The names stay. -/
def blankFields : List (ObjectFieldOf Expression) → List (ObjectFieldOf Expression)
  | [] => []
  | ⟨name, value, _⟩ :: rest => ⟨name, blankExpression value, .none⟩ :: blankFields rest

end

/-- Blank out the literals of the value. The path stays. -/
def Assignment.blank (assignment : Assignment) : Assignment :=
  ⟨assignment.path.erase, blankExpression assignment.value⟩

/-- Blank out the literals of a stage. -/
def Stage.blank : Stage → Stage
  | .filter predicate => .filter (blankExpression predicate)
  | .project paths => .project (paths.map Path.erase)
  | .sort keys => .sort (keys.map SortKey.erase)
  | .limit _ => .limit 0
  | .skip _ => .skip 0
  | .set assignments => .set (assignments.map Assignment.blank)

/-- Blank out the literals of a command. Names and paths stay. -/
def Command.blank : Command → Command
  | .insert collection document => .insert collection (blankExpression document)
  | .createIndex name collection fields => .createIndex name collection (fields.map Path.erase)
  | command => command

/-- A query without the values of its literals, its counts and its ranges. -/
def Query.blank (query : Query) : Query :=
  ⟨query.explain, query.command.blank, query.stages.map Stage.blank, .none⟩

end Blank

end NovaBase.NovaQl

namespace NovaBase.Executor

open Lib NovaQl Index Intelligence

section Shape

theorem commandShape_blank (command : Command) :
    commandShape command.blank = commandShape command := by
  cases command <;> rfl

theorem stageShape_blank (stage : Stage) : stageShape stage.blank = stageShape stage := by
  cases stage <;> rfl

/-- The shape of a query does not depend on its literals. -/
theorem fingerprint_blank (query : Query) : fingerprint query.blank = fingerprint query := by
  simp only [fingerprint, Query.blank, List.foldl_map, stageShape_blank, commandShape_blank]

theorem commandCollection_blank (command : Command) :
    commandCollection command.blank = commandCollection command := by
  cases command <;> rfl

end Shape

section Paths

theorem collectPathsOfValues_blank {values : List Expression}
    (h : ∀ value ∈ values, collectPaths (blankExpression value) = collectPaths value) :
    collectPathsOfValues (blankValues values) = collectPathsOfValues values := by
  induction values with
  | nil => rfl
  | cons value rest ih =>
      rw [List.forall_mem_cons] at h
      rw [blankValues, collectPathsOfValues, collectPathsOfValues, h.1, ih h.2]

theorem collectPathsOfFields_blank {fields : List ObjectField}
    (h : ∀ field ∈ fields, collectPaths (blankExpression field.value) = collectPaths field.value) :
    collectPathsOfFields (blankFields fields) = collectPathsOfFields fields := by
  induction fields with
  | nil => rfl
  | cons field rest ih =>
      obtain ⟨name, value, span⟩ := field
      rw [List.forall_mem_cons] at h
      rw [blankFields, collectPathsOfFields, collectPathsOfFields, h.1, ih h.2]

/-- Nor do the paths that an expression reads. -/
theorem collectPaths_blank (expression : Expression) :
    collectPaths (blankExpression expression) = collectPaths expression := by
  induction expression using Expression.nested_induction with
  | literal value span => rfl
  | path path span => rfl
  | array values span ih => exact collectPathsOfValues_blank ih
  | object fields span ih => exact collectPathsOfFields_blank ih
  | unary operator operand span ih => exact ih
  | binary left operator right span ihleft ihright =>
      rw [blankExpression, collectPaths, collectPaths, ihleft, ihright]

theorem indexablePathLiteral_blank (path literal : Expression) :
    indexablePathLiteral (blankExpression path) (blankExpression literal) =
      indexablePathLiteral path literal := by
  cases path with
  | path names _ =>
      cases literal with
      | literal value _ => cases value <;> rfl
      | _ => rfl
  | _ => rfl

/-- Nor do the candidates, as blank literals keep having or lacking a key. -/
theorem collectIndexCandidates_blank (expression : Expression) :
    collectIndexCandidates (blankExpression expression) = collectIndexCandidates expression := by
  induction expression using Expression.nested_induction with
  | binary left operator right span ihleft ihright =>
      cases operator with
      | and => simp only [blankExpression, collectIndexCandidates, ihleft, ihright]
      | equal => simp only [blankExpression, collectIndexCandidates, indexablePathLiteral_blank]
      | _ => rfl
  | _ => rfl

theorem predicates_blank (stages : List Stage) :
    predicates (stages.map Stage.blank) = (predicates stages).map blankExpression := by
  induction stages with
  | nil => rfl
  | cons stage rest ih =>
      unfold predicates at ih ⊢
      cases stage with
      | filter predicate => exact congrArg (blankExpression predicate :: ·) ih
      | _ => exact ih

theorem predicatePaths_blank (stages : List Stage) :
    predicatePaths (stages.map Stage.blank) = predicatePaths stages := by
  simp only [predicatePaths, predicates_blank, List.flatMap_map, collectPaths_blank]

theorem indexCandidatePaths_blank (stages : List Stage) :
    indexCandidatePaths (stages.map Stage.blank) = indexCandidatePaths stages := by
  simp only [indexCandidatePaths, predicates_blank, List.flatMap_map,
    collectIndexCandidates_blank]

end Paths

section Plans

/-- Whether a comparison gives a key depends on the kind of its literal alone. -/
theorem isSome_pathLiteral_blank (path literal : Expression) (field : List String) :
    (pathLiteral (blankExpression path) (blankExpression literal) field).isSome =
      (pathLiteral path literal field).isSome := by
  cases path with
  | path names _ =>
      cases literal with
      | literal value _ =>
          by_cases hfield : names.segments = field
          · cases value <;> simp [blankExpression, pathLiteral, Path.erase, Literal.blank, hfield]
          · simp [blankExpression, pathLiteral, Path.erase, hfield]
      | _ => rfl
  | _ => rfl

/-- Whether there is a key does not depend on which key it is. -/
theorem isSome_equalityKey_blank (field : List String) (expression : Expression) :
    (equalityKey field (blankExpression expression)).isSome =
      (equalityKey field expression).isSome := by
  induction expression using Expression.nested_induction with
  | binary left operator right span ihleft ihright =>
      cases operator with
      | and => simp only [blankExpression, equalityKey, Option.isSome_or, ihleft, ihright]
      | equal =>
          simp only [blankExpression, equalityKey, Option.isSome_or, isSome_pathLiteral_blank]
      | _ => rfl
  | _ => rfl

theorem firstPredicate_blank (stages : List Stage) :
    firstPredicate (stages.map Stage.blank) = (firstPredicate stages).map blankExpression := by
  induction stages with
  | nil => rfl
  | cons stage rest ih =>
      cases stage with
      | filter predicate => rfl
      | _ => exact ih

/-- The index that is chosen does not depend on the literals. -/
theorem findIndexScan_blank (collection : String) (stages : List Stage)
    (definitions : List IndexDefinition) :
    (findIndexScan collection (stages.map Stage.blank) definitions).map Prod.fst =
      (findIndexScan collection stages definitions).map Prod.fst := by
  simp only [findIndexScan, firstPredicate_blank]
  cases firstPredicate stages with
  | none => rfl
  | some predicate =>
      simp only [Option.map_some, List.map_findSome?]
      refine congrFun (congrArg List.findSome? (funext fun definition => ?_)) _
      have hsome := isSome_equalityKey_blank definition.field predicate
      cases hkey : equalityKey definition.field predicate with
      | none => simp_all
      | some key =>
          rw [hkey] at hsome
          obtain ⟨other, hother⟩ := Option.isSome_iff_exists.mp hsome
          simp [hkey, hother]

theorem selectedCollection_blank (command : Command) :
    selectedCollection command.blank = selectedCollection command := by
  cases command <;> rfl

/-- The access of a plan is recorded without its key. -/
theorem telemetryAccess_blank (query : Query) (definitions : List IndexDefinition) :
    telemetryAccess (plan query.blank definitions).access =
      telemetryAccess (plan query definitions).access := by
  simp only [plan, Query.blank, selectedCollection_blank]
  cases selectedCollection query.command with
  | none => rfl
  | some collection =>
      have hsame := findIndexScan_blank collection query.stages definitions
      cases hfind : findIndexScan collection query.stages definitions <;>
        cases hblank : findIndexScan collection (query.stages.map Stage.blank) definitions <;>
        simp_all [telemetryAccess]

end Plans

section Events

variable {β γ : Type} [ExecutionBackend β] [ExecutionBackend γ]

/-- What an execution records is built from the query, the plan and the outcome. -/
theorem eq_buildEvent {query : Query} {elapsedMicros : Nat} {run : Run β}
    {events : List TelemetryEvent} {event : TelemetryEvent}
    (h : (executeWithTelemetry query elapsedMicros (run, events)).2.2 = events ++ [event]) :
    ∃ examined result, event = buildEvent query
      (plan query (ExecutionBackend.indexDefinitions run.backend)) examined result
        elapsedMicros := by
  simp only [executeWithTelemetry] at h
  split at h
  · simp at h
  · exact ⟨_, _, (List.singleton_injective (List.append_cancel_left h)).symm⟩

/-- The events of two queries that differ in their literals alone differ at most in what was
counted and measured. -/
theorem events_literal_free {query other : Query} (hshape : query.blank = other.blank)
    {run : Run β} {run' : Run γ}
    (hindexes : ExecutionBackend.indexDefinitions run.backend =
      ExecutionBackend.indexDefinitions run'.backend)
    {elapsedMicros elapsedMicros' : Nat} {events events' : List TelemetryEvent}
    {event event' : TelemetryEvent}
    (h : (executeWithTelemetry query elapsedMicros (run, events)).2.2 = events ++ [event])
    (h' : (executeWithTelemetry other elapsedMicros' (run', events')).2.2 = events' ++ [event']) :
    event.fingerprint = event'.fingerprint ∧ event.collection = event'.collection ∧
      event.predicatePaths = event'.predicatePaths ∧
      event.indexCandidatePaths = event'.indexCandidatePaths ∧ event.access = event'.access := by
  obtain ⟨examined, result, rfl⟩ := eq_buildEvent h
  obtain ⟨examined', result', rfl⟩ := eq_buildEvent h'
  have hcommand : query.command.blank = other.command.blank := congrArg Query.command hshape
  have hstages : query.stages.map Stage.blank = other.stages.map Stage.blank :=
    congrArg Query.stages hshape
  refine ⟨?_, ?_, ?_, ?_, ?_⟩
  · calc fingerprint query = fingerprint query.blank := (fingerprint_blank query).symm
      _ = fingerprint other.blank := by rw [hshape]
      _ = fingerprint other := fingerprint_blank other
  · calc commandCollection query.command = commandCollection query.command.blank :=
          (commandCollection_blank query.command).symm
      _ = commandCollection other.command.blank := by rw [hcommand]
      _ = commandCollection other.command := commandCollection_blank other.command
  · calc predicatePaths query.stages = predicatePaths (query.stages.map Stage.blank) :=
          (predicatePaths_blank query.stages).symm
      _ = predicatePaths (other.stages.map Stage.blank) := by rw [hstages]
      _ = predicatePaths other.stages := predicatePaths_blank other.stages
  · calc indexCandidatePaths query.stages = indexCandidatePaths (query.stages.map Stage.blank) :=
          (indexCandidatePaths_blank query.stages).symm
      _ = indexCandidatePaths (other.stages.map Stage.blank) := by rw [hstages]
      _ = indexCandidatePaths other.stages := indexCandidatePaths_blank other.stages
  · calc telemetryAccess (plan query (ExecutionBackend.indexDefinitions run.backend)).access =
          telemetryAccess
            (plan query.blank (ExecutionBackend.indexDefinitions run.backend)).access :=
          (telemetryAccess_blank query _).symm
      _ = telemetryAccess
          (plan other.blank (ExecutionBackend.indexDefinitions run'.backend)).access := by
          rw [hshape, hindexes]
      _ = telemetryAccess (plan other (ExecutionBackend.indexDefinitions run'.backend)).access :=
          telemetryAccess_blank other _

/-- Reads the documents of a collection that have a certain number. -/
def queryByNumber (number : Int64) : Query where
  explain := false
  command := .get "items"
  stages := [.filter (.binary (.path ⟨["number"], .none⟩ .none) .equal
    (.literal (.integer number) .none) .none)]
  span := .none

theorem plan_queryByNumber (number : Int64) :
    plan (queryByNumber number) [] = ⟨.collectionScan "items", ["Filter"]⟩ := by
  simp [plan, queryByNumber, selectedCollection, findIndexScan, firstPredicate, stageName]

/-- The events of a query that finds its collection and of one that does not. -/
theorem events_literal_free_queryByNumber :
    let items : MemoryBackend := ⟨SortedMap.empty.insert "items" .empty⟩
    let run (backend : MemoryBackend) : Run MemoryBackend := ⟨backend, fun _ => .ok (.filled 1), 0⟩
    let plan : QueryPlan := ⟨.collectionScan "items", ["Filter"]⟩
    let event := buildEvent (queryByNumber 1) plan 0 (.ok (.documents [])) 5
    let event' := buildEvent (queryByNumber 2) plan 0
      (.error (.error (missingCollection "items"))) 7
    (executeWithTelemetry (queryByNumber 1) 5 (run items, [])).2.2 = [] ++ [event] ∧
      (executeWithTelemetry (queryByNumber 2) 7 (run .new, [])).2.2 = [] ++ [event'] ∧
      event.predicatePaths = event'.predicatePaths := by
  intro items run plan event event'
  have hindexes (backend : MemoryBackend) :
      ExecutionBackend.indexDefinitions (run backend).backend = [] := rfl
  have h : (executeWithTelemetry (queryByNumber 1) 5 (run items, [])).2.2 = [] ++ [event] := by
    simp only [executeWithTelemetry, hindexes, plan_queryByNumber]
    rfl
  have h' : (executeWithTelemetry (queryByNumber 2) 7 (run .new, [])).2.2 = [] ++ [event'] := by
    simp only [executeWithTelemetry, hindexes, plan_queryByNumber]
    rfl
  have hshape : (queryByNumber 1).blank = (queryByNumber 2).blank := rfl
  obtain ⟨-, -, hpaths, -, -⟩ := events_literal_free hshape
    ((hindexes items).trans (hindexes .new).symm) h h'
  exact ⟨h, h', hpaths⟩

end Events

end NovaBase.Executor
