import NovaBase.Index.Catalog
import NovaBase.NovaQl.Syntax

/-!
# Query plans

A query that reads a collection does so through an index where an equality in
its predicate names the field of one; of several such indexes it takes the first
in the order of their names.
-/

namespace NovaBase.Executor

open NovaQl Index

/-- Physical access path selected for a command. -/
inductive AccessPath
  | command
  | collectionScan (collection : String)
  | indexScan (collection index : String) (key : IndexKey)
  deriving DecidableEq

/-- Inspectable physical plan for one parsed query. -/
structure QueryPlan where
  access : AccessPath
  /-- Names of the stages in execution order. -/
  operators : List String
  deriving DecidableEq

/-- The name of a stage in a plan. -/
def stageName : Stage → String
  | .filter _ => "Filter"
  | .project _ => "Project"
  | .sort _ => "Sort"
  | .limit _ => "Limit"
  | .skip _ => "Skip"
  | .set _ => "Set"

/-- The collection whose documents a command selects. -/
def selectedCollection : Command → Option String
  | .get collection => some collection
  | .update collection => some collection
  | .delete collection => some collection
  | _ => none

/-- The predicate of the first filter. -/
def firstPredicate : List Stage → Option Expression
  | [] => none
  | .filter predicate :: _ => some predicate
  | _ :: rest => firstPredicate rest

/-- The key that a comparison of the field with a literal asks for. -/
def pathLiteral (path literal : Expression) (field : List String) : Option IndexKey :=
  match path, literal with
  | .path path _, .literal literal _ =>
      if path.segments = field then
        match literal with
        | .integer value => some (.int64 value)
        | .float value => some (.float64 (.new value))
        | .string value => some (.string value)
        | _ => none
      else none
  | _, _ => none

/-- The key of the first equality on the field that the predicate implies. -/
def equalityKey (field : List String) : Expression → Option IndexKey
  | .binary left .and right _ => (equalityKey field left).or (equalityKey field right)
  | .binary left .equal right _ => (pathLiteral left right field).or (pathLiteral right left field)
  | _ => none

/-- The index of the collection that answers a conjunct of the first filter, and its key. -/
def findIndexScan (collection : String) (stages : List Stage)
    (definitions : List IndexDefinition) : Option (String × IndexKey) :=
  match firstPredicate stages with
  | none => none
  | some predicate =>
      let candidates :=
        (definitions.filter fun definition => definition.collection = collection).mergeSort
          fun left right => decide (left.name ≤ right.name)
      candidates.findSome? fun definition =>
        (equalityKey definition.field predicate).map fun key => (definition.name, key)

/-- The plan of a query for the indexes that there are. -/
def plan (query : Query) (definitions : List IndexDefinition) : QueryPlan where
  access :=
    match selectedCollection query.command with
    | none => .command
    | some collection =>
        match findIndexScan collection query.stages definitions with
        | none => .collectionScan collection
        | some (index, key) => .indexScan collection index key
  operators := query.stages.map stageName

section Plans

variable {query : Query} {collection : String} {stages : List Stage}
  {definitions : List IndexDefinition}

/-- A plan scans an index if one is found, and the collection otherwise. -/
theorem plan_access (hselected : selectedCollection query.command = some collection) :
    (plan query definitions).access =
      match findIndexScan collection query.stages definitions with
      | none => .collectionScan collection
      | some (index, key) => .indexScan collection index key := by
  cases hfound : findIndexScan collection query.stages definitions with
  | none => simp [plan, hselected, hfound]
  | some found => simp [plan, hselected, hfound]

/-- An index that is found is one of the collection, and the predicate asks for the key. -/
theorem exists_of_findIndexScan {index : String} {key : IndexKey}
    (h : findIndexScan collection stages definitions = some (index, key)) :
    ∃ definition ∈ definitions, definition.name = index ∧ definition.collection = collection ∧
      ∃ predicate, firstPredicate stages = some predicate ∧
        equalityKey definition.field predicate = some key := by
  unfold findIndexScan at h
  split at h
  · cases h
  · rename_i predicate hpredicate
    obtain ⟨definition, hmem, hfound⟩ := List.exists_of_findSome?_eq_some h
    obtain ⟨value, hvalue, hpair⟩ := Option.map_eq_some_iff.mp hfound
    obtain ⟨hname, rfl⟩ := Prod.mk.inj hpair
    obtain ⟨hdefinition, hcollection⟩ := List.mem_filter.mp (List.mem_mergeSort.mp hmem)
    exact ⟨definition, hdefinition, hname, of_decide_eq_true hcollection, predicate, hpredicate,
      hvalue⟩

/-- A plan with an index scan has found the index for the collection of its command. -/
theorem findIndexScan_of_access {scanned index : String} {key : IndexKey}
    (h : (plan query definitions).access = .indexScan scanned index key) :
    selectedCollection query.command = some scanned ∧
      findIndexScan scanned query.stages definitions = some (index, key) := by
  cases hselected : selectedCollection query.command with
  | none =>
      rw [plan, hselected] at h
      cases h
  | some collection =>
      rw [plan_access hselected] at h
      cases hfound : findIndexScan collection query.stages definitions with
      | none =>
          rw [hfound] at h
          cases h
      | some found =>
          rw [hfound] at h
          cases h
          exact ⟨rfl, hfound⟩

end Plans

end NovaBase.Executor
