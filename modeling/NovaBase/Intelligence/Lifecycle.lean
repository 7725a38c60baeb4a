import Mathlib.Algebra.Group.Int.Defs
import NovaBase.Core.Error
import NovaBase.Intelligence.Analysis

/-!
# The life of a recommendation

A recommendation is accepted or dismissed; one that is accepted is applied and
then evaluated, against the workload that was recorded after it was applied.
-/

namespace NovaBase.Intelligence

open Lib

/-- Exact, inspectable evidence supporting an index recommendation. -/
structure RecommendationEvidence where
  successfulExecutions : Nat
  collectionScans : Nat
  indexScans : Nat
  collectionScanExamined : Nat
  collectionScanReturned : Nat
  collectionScanElapsedMicros : Nat
  returnRatioBasisPoints : Nat
  deriving DecidableEq

/-- Advisory-only proposal for a single-field index. -/
structure IndexRecommendation where
  collection : String
  path : String
  evidence : RecommendationEvidence
  deriving DecidableEq

/-- How far a recommendation has come. -/
inductive RecommendationStatus
  | proposed
  | accepted
  | dismissed
  | applied
  | evaluated
  deriving DecidableEq

/-- The name of a status in messages. -/
def RecommendationStatus.name : RecommendationStatus → String
  | .proposed => "proposed"
  | .accepted => "accepted"
  | .dismissed => "dismissed"
  | .applied => "applied"
  | .evaluated => "evaluated"

/-- How many index scans an evaluation needs. -/
structure EvaluationConfig where
  minIndexScans : Nat := 3
  deriving DecidableEq

/-- The work of a query before and after the index was made. -/
structure ImpactEvaluation where
  baselineCollectionScans : Nat
  observedIndexScans : Nat
  baselineAverageExamined : Nat
  observedAverageExamined : Nat
  baselineAverageElapsedMicros : Nat
  observedAverageElapsedMicros : Nat
  examinedReductionBasisPoints : Int
  elapsedReductionBasisPoints : Int

/-- A recommendation with its status, and its impact once it was evaluated. -/
structure RecommendationRecord where
  recommendation : IndexRecommendation
  status : RecommendationStatus
  evaluation : Option ImpactEvaluation

/-- Recommendation decisions and evaluations by collection and path. -/
structure RecommendationLifecycle where
  records : SortedMap (Lex (String × String)) RecommendationRecord

/-- The average, rounded down. -/
def average (total count : Nat) : Nat := total / count

/-- The least 32-bit integer. -/
def i32Min : Int := -2 ^ 31

/-- The largest 32-bit integer. -/
def i32Max : Int := 2 ^ 31 - 1

/-- By how much less was observed, in basis points of the baseline. -/
def reductionBasisPoints (baseline observed : Nat) : Int :=
  if baseline = 0 then 0
  else
    let basisPoints := (((baseline : Int) - observed) * 10000).tdiv baseline
    max i32Min (min i32Max basisPoints)

/-- The error for a step that the status does not allow. -/
def invalidTransition (current : RecommendationStatus) (next : String) : NovaError :=
  .invalidState s!"cannot mark {current.name} recommendation as {next}"

namespace RecommendationLifecycle

/-- Creates proposed records, rejecting duplicate collection/path pairs. -/
def fromRecommendations (recommendations : List IndexRecommendation) :
    Result RecommendationLifecycle := do
  let records ← recommendations.foldlM (fun records recommendation =>
    let key := toLex (recommendation.collection, recommendation.path)
    if records.contains key then
      .error (NovaError.invalidArgument "duplicate index recommendation")
    else .ok (records.insert key ⟨recommendation, .proposed, none⟩)) .empty
  return ⟨records⟩

/-- The record at a collection and path. -/
def record (collection path : String) (lifecycle : RecommendationLifecycle) :
    Result RecommendationRecord :=
  match lifecycle.records.get (toLex (collection, path)) with
  | some record => .ok record
  | none => .error (.notFound s!"recommendation for {collection}.{path}")

/-- Change the status of a record that has the expected one. -/
def transition (collection path : String) (expected next : RecommendationStatus)
    (lifecycle : RecommendationLifecycle) : Result RecommendationLifecycle := do
  let record ← lifecycle.record collection path
  require (record.status = expected) (invalidTransition record.status next.name)
  return ⟨lifecycle.records.insert (toLex (collection, path)) { record with status := next }⟩

/-- Only proposals are accepted. -/
def accept (collection path : String) : RecommendationLifecycle → Result RecommendationLifecycle :=
  transition collection path .proposed .accepted

/-- Only proposals are dismissed. -/
def dismiss (collection path : String) : RecommendationLifecycle → Result RecommendationLifecycle :=
  transition collection path .proposed .dismissed

/-- Only accepted recommendations are applied. -/
def markApplied (collection path : String) :
    RecommendationLifecycle → Result RecommendationLifecycle :=
  transition collection path .accepted .applied

/-- Compare the evidence of a recommendation with what was observed of its path. -/
def impact (evidence : RecommendationEvidence) (candidate : IndexCandidateStats) :
    ImpactEvaluation :=
  let baselineExamined := average evidence.collectionScanExamined evidence.collectionScans
  let baselineElapsed := average evidence.collectionScanElapsedMicros evidence.collectionScans
  let observedExamined := average candidate.indexScanExamined candidate.indexScans
  let observedElapsed := average candidate.indexScanElapsedMicros candidate.indexScans
  { baselineCollectionScans := evidence.collectionScans
    observedIndexScans := candidate.indexScans
    baselineAverageExamined := baselineExamined
    observedAverageExamined := observedExamined
    baselineAverageElapsedMicros := baselineElapsed
    observedAverageElapsedMicros := observedElapsed
    examinedReductionBasisPoints := reductionBasisPoints baselineExamined observedExamined
    elapsedReductionBasisPoints := reductionBasisPoints baselineElapsed observedElapsed }

/-- Evaluates an applied recommendation against a later workload window. -/
def evaluate (collection path : String) (report : WorkloadReport) (config : EvaluationConfig)
    (lifecycle : RecommendationLifecycle) :
    Result (ImpactEvaluation × RecommendationLifecycle) := do
  require (config.minIndexScans ≠ 0) (NovaError.invalidArgument
    "evaluation observation threshold must be greater than zero")
  let record ← lifecycle.record collection path
  require (record.status = .applied) (invalidTransition record.status "evaluated")
  match report.indexCandidates.find? fun candidate =>
      candidate.collection = collection ∧ candidate.path = path with
  | none => .error (.notFound s!"post-application telemetry for {collection}.{path}")
  | some candidate => do
      require (config.minIndexScans ≤ candidate.indexScans) (NovaError.invalidState
        s!"need at least {config.minIndexScans} index scans, observed {candidate.indexScans}")
      let evaluation := impact record.recommendation.evidence candidate
      return (evaluation, ⟨lifecycle.records.insert (toLex (collection, path))
        { record with evaluation := some evaluation, status := .evaluated }⟩)

end RecommendationLifecycle

end NovaBase.Intelligence
