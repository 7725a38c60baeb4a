import Mathlib.Data.Prod.Lex
import Mathlib.Data.String.Basic
import Mathlib.Order.WithBot
import NovaBase.Lib.SortedMap

/-!
# Telemetry and workload analysis

Every execution of a query leaves one event. The analysis adds the events up, in
total and for each shape of query, each path of a predicate and each path that an
index could serve. Counters stop at their greatest value.
-/

namespace NovaBase.Intelligence

open Lib

/-- How a query read documents. -/
inductive TelemetryAccess
  | command
  | collectionScan
  | indexScan (index : String)
  deriving DecidableEq

/-- What is recorded of a query. No literal is part of it. -/
structure TelemetryEvent where
  fingerprint : String
  collection : Option String
  predicatePaths : List String
  indexCandidatePaths : List String
  access : TelemetryAccess
  examined : Nat
  returned : Nat
  elapsedMicros : Nat
  succeeded : Bool
  deriving DecidableEq

/-- The largest count. -/
def u64Max : Nat := 2 ^ 64 - 1

/-- Counts stay at the largest one. -/
def saturatingAdd (a b : Nat) : Nat := min (a + b) u64Max

/-- Executions by outcome, and successful ones by access. -/
structure ScanCounters where
  successfulExecutions : Nat := 0
  failedExecutions : Nat := 0
  collectionScans : Nat := 0
  indexScans : Nat := 0

/-- The work of executions, beside their number. -/
structure WorkCounters extends ScanCounters where
  totalExamined : Nat := 0
  totalReturned : Nat := 0
  totalElapsedMicros : Nat := 0

/-- Aggregate for one collection and literal-free query shape. -/
structure FingerprintStats extends WorkCounters where
  collection : Option String
  fingerprint : String

/-- Aggregate for one predicate path within a collection. -/
structure PredicatePathStats extends WorkCounters where
  collection : String
  path : String

/-- Aggregate for one planner-usable equality path within a collection. -/
structure IndexCandidateStats extends ScanCounters where
  collection : String
  path : String
  collectionScanExamined : Nat := 0
  collectionScanReturned : Nat := 0
  collectionScanElapsedMicros : Nat := 0
  indexScanExamined : Nat := 0
  indexScanReturned : Nat := 0
  indexScanElapsedMicros : Nat := 0

/-- Deterministic aggregate of a telemetry snapshot. -/
structure WorkloadReport where
  totalEvents : Nat := 0
  successfulEvents : Nat := 0
  failedEvents : Nat := 0
  commandExecutions : Nat := 0
  collectionScans : Nat := 0
  indexScans : Nat := 0
  totalExamined : Nat := 0
  totalReturned : Nat := 0
  totalElapsedMicros : Nat := 0
  fingerprints : List FingerprintStats := []
  predicatePaths : List PredicatePathStats := []
  indexCandidates : List IndexCandidateStats := []

section Counters

/-- Count the access of a successful event. -/
def ScanCounters.addAccess (counters : ScanCounters) : TelemetryAccess → ScanCounters
  | .command => counters
  | .collectionScan => { counters with collectionScans := saturatingAdd counters.collectionScans 1 }
  | .indexScan _ => { counters with indexScans := saturatingAdd counters.indexScans 1 }

/-- Count a success, and how it read documents. -/
def ScanCounters.addSuccess (event : TelemetryEvent) (counters : ScanCounters) : ScanCounters :=
  { counters with
    successfulExecutions := saturatingAdd counters.successfulExecutions 1 }.addAccess event.access

/-- Count a failure. How it read documents is not counted. -/
def ScanCounters.addFailure (counters : ScanCounters) : ScanCounters :=
  { counters with failedExecutions := saturatingAdd counters.failedExecutions 1 }

/-- Count an execution and its work. A failure adds no work. -/
def WorkCounters.add (event : TelemetryEvent) (counters : WorkCounters) : WorkCounters :=
  if event.succeeded then
    { toScanCounters := counters.toScanCounters.addSuccess event
      totalExamined := saturatingAdd counters.totalExamined event.examined
      totalReturned := saturatingAdd counters.totalReturned event.returned
      totalElapsedMicros := saturatingAdd counters.totalElapsedMicros event.elapsedMicros }
  else { counters with toScanCounters := counters.toScanCounters.addFailure }

/-- Count an event for its shape. -/
def addFingerprint (event : TelemetryEvent) (stats : FingerprintStats) : FingerprintStats :=
  { stats with toWorkCounters := stats.toWorkCounters.add event }

/-- Count an event for a path that it reads. -/
def addPath (event : TelemetryEvent) (stats : PredicatePathStats) : PredicatePathStats :=
  { stats with toWorkCounters := stats.toWorkCounters.add event }

/-- Keep the work of collection scans apart from that of index scans. -/
def addCandidateWork (event : TelemetryEvent) (stats : IndexCandidateStats) :
    IndexCandidateStats :=
  match event.access with
  | .command => stats
  | .collectionScan => { stats with
      collectionScanExamined := saturatingAdd stats.collectionScanExamined event.examined
      collectionScanReturned := saturatingAdd stats.collectionScanReturned event.returned
      collectionScanElapsedMicros :=
        saturatingAdd stats.collectionScanElapsedMicros event.elapsedMicros }
  | .indexScan _ => { stats with
      indexScanExamined := saturatingAdd stats.indexScanExamined event.examined
      indexScanReturned := saturatingAdd stats.indexScanReturned event.returned
      indexScanElapsedMicros := saturatingAdd stats.indexScanElapsedMicros event.elapsedMicros }

/-- Count an event for a path that an index could answer. A failure adds no work. -/
def addCandidate (event : TelemetryEvent) (stats : IndexCandidateStats) : IndexCandidateStats :=
  if event.succeeded then
    { addCandidateWork event stats with
      toScanCounters := stats.toScanCounters.addSuccess event }
  else { stats with toScanCounters := stats.toScanCounters.addFailure }

/-- Count an event in the totals. -/
def addTotals (event : TelemetryEvent) (report : WorkloadReport) : WorkloadReport :=
  let report := { report with totalEvents := saturatingAdd report.totalEvents 1 }
  let report := match event.access with
    | .command =>
        { report with commandExecutions := saturatingAdd report.commandExecutions 1 }
    | .collectionScan => { report with collectionScans := saturatingAdd report.collectionScans 1 }
    | .indexScan _ => { report with indexScans := saturatingAdd report.indexScans 1 }
  if event.succeeded then { report with
    successfulEvents := saturatingAdd report.successfulEvents 1
    totalExamined := saturatingAdd report.totalExamined event.examined
    totalReturned := saturatingAdd report.totalReturned event.returned
    totalElapsedMicros := saturatingAdd report.totalElapsedMicros event.elapsedMicros }
  else { report with failedEvents := saturatingAdd report.failedEvents 1 }

end Counters

/-- The different paths of a list, in order. -/
def distinct (paths : List String) : List String :=
  (paths.foldl (fun set path => set.insert path ()) (.empty : SortedMap String Unit)).keys

theorem mem_distinct {paths : List String} {path : String} :
    path ∈ distinct paths ↔ path ∈ paths := by
  have hset : ∀ set : SortedMap String Unit,
      path ∈ (paths.foldl (fun set path => set.insert path ()) set).keys ↔
        path ∈ set.keys ∨ path ∈ paths := by
    induction paths with
    | nil => simp
    | cons first rest ih =>
        intro set
        rw [List.foldl_cons, ih, SortedMap.mem_keys, SortedMap.mem_keys, SortedMap.contains,
          SortedMap.get_insert, SortedMap.contains, List.mem_cons]
        by_cases hfirst : first = path
        · simp [hfirst]
        · simp [hfirst, Ne.symm hfirst]
  have hempty : path ∉ (SortedMap.empty : SortedMap String Unit).keys := List.not_mem_nil
  rw [distinct, hset]
  exact or_iff_right hempty

/-- The aggregates while events are added. -/
structure Aggregates where
  totals : WorkloadReport := {}
  fingerprints : SortedMap (Lex (WithBot String × String)) FingerprintStats := .empty
  predicatePaths : SortedMap (Lex (String × String)) PredicatePathStats := .empty
  indexCandidates : SortedMap (Lex (String × String)) IndexCandidateStats := .empty

/-- Count an event for each of some paths of its collection. -/
def addPaths (event : TelemetryEvent) (collection : String) (aggregates : Aggregates) :
    Aggregates :=
  { aggregates with
    predicatePaths := (distinct event.predicatePaths).foldl (fun stats path =>
      stats.upsert (toLex (collection, path)) { collection, path } (addPath event))
      aggregates.predicatePaths
    indexCandidates := (distinct event.indexCandidatePaths).foldl (fun stats path =>
      stats.upsert (toLex (collection, path)) { collection, path } (addCandidate event))
      aggregates.indexCandidates }

/-- Add an event to the totals and to every entry that it belongs to. -/
def addEvent (aggregates : Aggregates) (event : TelemetryEvent) : Aggregates :=
  let aggregates := { aggregates with
    totals := addTotals event aggregates.totals
    fingerprints := aggregates.fingerprints.upsert (toLex (event.collection, event.fingerprint))
      { collection := event.collection, fingerprint := event.fingerprint } (addFingerprint event) }
  match event.collection with
  | none => aggregates
  | some collection => addPaths event collection aggregates

/-- Aggregates a stable telemetry snapshot into deterministic workload evidence. -/
def analyzeWorkload (events : List TelemetryEvent) : WorkloadReport :=
  let aggregates := events.foldl addEvent {}
  { aggregates.totals with
    fingerprints := aggregates.fingerprints.values
    predicatePaths := aggregates.predicatePaths.values
    indexCandidates := aggregates.indexCandidates.values }

end NovaBase.Intelligence
