import NovaBase.Executor.Runtime
import NovaBase.Lib.Action
import NovaBase.Lib.StableSort

/-!
# The pipeline

The stages of a query run one after the other on the documents that were read. A
stage that fails fails the query. New documents inside values need identifiers;
what the generator gives is part of the state, and it may fail.
-/

namespace NovaBase.Executor

open Lib NovaQl

/-- What the generator of identifiers gives from now on. -/
def IdSource := Nat → Result NovaId

/-- Take the next identifier. -/
def generate : Action Failure IdSource NovaId := fun ids => ((ids 0).lift, fun n => ids (n + 1))

section Values

mutual

/-- The stored form of a value. Each object becomes a document of its own. -/
def intoNovaValue : RuntimeValue → Action Failure IdSource NovaValue
  | .missing =>
      Action.ofExcept (.error (.error (invalid "missing path cannot be stored as a value")))
  | .null => return .null
  | .boolean value => return .boolean value
  | .int64 value => return .int64 value
  | .float64 value =>
      if value.isFinite then return .float64 value
      else Action.ofExcept (.error (.error (invalid "non-finite arithmetic result")))
  | .string value => return .string value
  | .array values => do return .array (← intoNovaValues values)
  | .object fields => do
      let id ← generate
      return .document (← intoNovaFields (.new id) fields)
  | .timestamp value => return .timestamp value
  | .novaId value => return .novaId value

/-- Store every value, and fail at the first that cannot be stored. -/
def intoNovaValues : List RuntimeValue → Action Failure IdSource (List NovaValue)
  | [] => return []
  | value :: rest => do
      let first ← intoNovaValue value
      let others ← intoNovaValues rest
      return first :: others

/-- Put fields into a document. -/
def intoNovaFields (document : DocumentOf NovaValue) :
    List (String × RuntimeValue) → Action Failure IdSource (DocumentOf NovaValue)
  | [] => return document
  | (name, value) :: rest => do
      let value ← intoNovaValue value
      intoNovaFields (document.insert name value).2 rest

end

end Values

section Assignments

/-- A document that is being changed, and the identifiers for what is put into it. -/
abbrev Draft := Document × IdSource

/-- Put a value at a path, making the documents on the way that are not there. -/
def setSegments (value : NovaValue) : List String → Action Failure Draft Unit
  | [] => Action.ofExcept (.error (.error (invalid "field path cannot be empty")))
  | [segment] => Action.modify fun draft => ((draft.1.insert segment value).2, draft.2)
  | segment :: rest => do
      let present ← Action.reads fun draft => .ok (draft.1.get segment).isSome
      if present then pure ()
      else do
        let id ← Action.zoom Prod.snd (fun draft ids => (draft.1, ids)) generate
        Action.modify fun draft => ((draft.1.insert segment (.document (.new id))).2, draft.2)
      fun draft =>
        match draft.1.get segment with
        | some (.document nested) =>
            let (result, nested, ids) := setSegments value rest (nested, draft.2)
            (result, (draft.1.insert segment (.document nested)).2, ids)
        | _ => (.error (.error (invalid
            [.text "path segment ", .debug segment, .text " is not a document"])), draft)

/-- Write a value at a path. The identifier of a document cannot be written. -/
def setPath (path : Path) (value : NovaValue) : Action Failure Draft Unit :=
  if path.segments.head? = some "_id" then
    Action.ofExcept (.error (.error (invalid "the implicit `_id` field cannot be updated")))
  else setSegments value path.segments

/-- Evaluate an assignment in the document as it is by now, and write its value. -/
def applyAssignment (assignment : Assignment) : Action Failure Draft Unit := do
  let value ← Action.reads fun draft => (evaluate draft.1 assignment.value).lift
  let value ← Action.zoom Prod.snd (fun draft ids => (draft.1, ids)) (intoNovaValue value)
  setPath assignment.path value

/-- Apply assignments from left to right, up to the first that fails. -/
def applyAssignments (assignments : List Assignment) : Action Failure Draft Unit :=
  assignments.forM applyAssignment

/-- The documents after the assignments have been applied to each of them. -/
def assignAll (assignments : List Assignment) :
    List Document → Action Failure IdSource (List Document)
  | [] => return []
  | document :: rest => do
      let changed ← fun ids =>
        let (result, changed, ids) := applyAssignments assignments (document, ids)
        (result.map fun _ => changed, ids)
      let others ← assignAll assignments rest
      return changed :: others

end Assignments

section Projections

/-- Copy what is at a path into a document that is being built. -/
def projectSegments (source target : Document) : List String → Result Document
  | [] => return target
  | segment :: rest =>
      match source.get segment with
      | none => return target
      | some value =>
          if rest = [] then return (target.insert segment value).2
          else
            match value with
            | .document nested =>
                let target := if (target.get segment).isSome then target
                  else (target.insert segment (.document (.new nested.id))).2
                match target.get segment with
                | some (.document inner) => do
                    let inner ← projectSegments nested inner rest
                    return (target.insert segment (.document inner)).2
                | _ => .error (invalid "projection path conflicts with a scalar field")
            | _ => return target

/-- The identifier of a document and the fields at some paths. -/
def project (source : Document) (paths : List Path) : Result Document :=
  paths.foldlM (fun target path =>
    if path.segments = ["_id"] then return target
    else projectSegments source target path.segments) (.new source.id)

end Projections

section Sorting

/-- Check that the values of one sort key can be compared. -/
def validateSortValues (values : List RuntimeValue) : Result Unit := do
  values.forM fun value => do
    let _ ← value.compareForSort value
  match values.find? RuntimeValue.isConcrete with
  | none => return ()
  | some reference => (values.filter RuntimeValue.isConcrete).forM fun value => do
      let _ ← reference.compareForSort value

/-- Descending order is the reverse of ascending order. -/
def SortDirection.apply : SortDirection → Ordering → Ordering
  | .ascending, ordering => ordering
  | .descending, ordering => ordering.swap

/-- The order of two documents, of which the values of the keys are given. -/
def compareKeys : List SortKey → List RuntimeValue → List RuntimeValue → Ordering
  | key :: keys, left :: lefts, right :: rights =>
      let ordering := ((left.compareForSort right).toOption).getD .eq
      (SortDirection.apply key.direction ordering).then (compareKeys keys lefts rights)
  | _, _, _ => .eq

/-- The indices of documents in the order of their sort keys. -/
def sortOrder (documents : List Document) (keys : List SortKey) : List (Fin documents.length) :=
  let row (index : Fin documents.length) := keys.map (readPath documents[index] ·.path)
  (List.finRange documents.length).mergeSort fun left right =>
    (compareKeys keys (row left) (row right)).isLE

/-- A stable sort in place, once the values of every key are known to be comparable. -/
def sortDocuments (keys : List SortKey) : Action NovaError (List Document) Unit := fun documents =>
  match keys.forM fun key => validateSortValues (documents.map (readPath · key.path)) with
  | .error cause => (.error cause, documents)
  | .ok () => (.ok (), writeFrom (documents[·]) (sortOrder documents keys) 0 documents)

end Sorting

/-- The documents for which the predicate holds. -/
def filterDocuments (predicate : Expression) : List Document → Result (List Document)
  | [] => return []
  | document :: rest => do
      let kept ← evaluatePredicate predicate document
      let others ← filterDocuments predicate rest
      return if kept then document :: others else others

/-- Run one stage on the documents that the stages before it have left. -/
def runStage (documents : List Document) : Stage → Action Failure IdSource (List Document)
  | .filter predicate => Action.ofExcept (filterDocuments predicate documents).lift
  | .project paths => Action.ofExcept (documents.mapM (project · paths)).lift
  | .sort keys =>
      let (result, sorted) := sortDocuments keys documents
      Action.ofExcept (Result.lift (result.map fun _ => sorted))
  | .limit count => return documents.take count.toNat
  | .skip count => return documents.drop count.toNat
  | .set assignments => assignAll assignments documents

/-- Run the stages from left to right. -/
def runPipeline (documents : List Document) (stages : List Stage) :
    Action Failure IdSource (List Document) :=
  stages.foldlM runStage documents

/-- The commands whose stages are checked. -/
inductive CommandKind
  | get
  | update
  | delete

/-- Whether a command takes a stage. -/
def CommandKind.allows : CommandKind → Stage → Bool
  | .get, .set _ => false
  | .update, .project _ => false
  | .delete, .project _ => false
  | .delete, .set _ => false
  | _, _ => true

/-- Refuse a pipeline with a stage that its command does not take. -/
def validateStages (stages : List Stage) (command : CommandKind) : Result Unit :=
  require (stages.all command.allows = true)
    (invalid "pipeline stage is not valid for this command")

end NovaBase.Executor
