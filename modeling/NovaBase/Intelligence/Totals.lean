import Mathlib.Algebra.BigOperators.Group.List.Basic
import Mathlib.Algebra.GroupWithZero.Nat
import NovaBase.Intelligence.Analysis
import NovaBase.Lib.Tally

/-!
# The analysis is a sum

Every counter of the analysis is the sum of what the matching events contribute,
cut off at the greatest value of a counter. Saturating additions come to the same
in every order, so the order of the events does not matter.
-/

namespace NovaBase.Intelligence

open Lib

namespace TelemetryEvent

/-- The event has an entry for this path of this collection. -/
def Reports (event : TelemetryEvent) (collection path : String) : Prop :=
  event.collection = some collection ∧ path ∈ event.indexCandidatePaths

instance (event : TelemetryEvent) (collection path : String) :
    Decidable (event.Reports collection path) :=
  inferInstanceAs (Decidable (_ ∧ _))

/-- The query read its collection from end to end. -/
def isCollectionScan (event : TelemetryEvent) : Bool :=
  match event.access with
  | .collectionScan => true
  | _ => false

/-- The query read documents through an index. -/
def isIndexScan (event : TelemetryEvent) : Bool :=
  match event.access with
  | .indexScan _ => true
  | _ => false

/-- The query gave no result. -/
def failed (event : TelemetryEvent) : Bool := !event.succeeded

/-- The query did not read documents by a plan. -/
def isCommand (event : TelemetryEvent) : Bool :=
  match event.access with
  | .command => true
  | _ => false

/-- A successful collection scan. -/
def scansCollection (event : TelemetryEvent) : Bool :=
  event.succeeded && event.isCollectionScan

/-- A successful index scan. -/
def scansIndex (event : TelemetryEvent) : Bool :=
  event.succeeded && event.isIndexScan

/-- The event adds to the count of collection scans of this path. -/
def countsCollectionScan (collection path : String) (event : TelemetryEvent) : Bool :=
  event.succeeded && event.isCollectionScan && decide (event.Reports collection path)

/-- The event adds to the count of index scans of this path. -/
def countsIndexScan (collection path : String) (event : TelemetryEvent) : Bool :=
  event.succeeded && event.isIndexScan && decide (event.Reports collection path)

end TelemetryEvent

section Sums

/-- The number of matching events, as far as a counter goes. -/
def counted (matching : TelemetryEvent → Bool) (events : List TelemetryEvent) : Nat :=
  min (events.countP matching) u64Max

/-- The sum over the matching events, as far as a counter goes. -/
def summed (matching : TelemetryEvent → Bool) (amount : TelemetryEvent → Nat)
    (events : List TelemetryEvent) : Nat :=
  min ((events.filter matching).map amount).sum u64Max

variable {matching : TelemetryEvent → Bool} {amount : TelemetryEvent → Nat}
  {events other : List TelemetryEvent}

theorem saturatingAdd_min (count : Nat) : saturatingAdd (min count u64Max) 1 =
    min (count + 1) u64Max := by
  rw [saturatingAdd]
  omega

theorem counted_append_singleton (matching : TelemetryEvent → Bool) (events : List TelemetryEvent)
    (event : TelemetryEvent) : counted matching (events ++ [event]) =
      if matching event then saturatingAdd (counted matching events) 1
      else counted matching events := by
  rw [counted, List.countP_append, List.countP_singleton]
  split
  · exact (saturatingAdd_min _).symm
  · rfl

theorem summed_append_singleton (matching : TelemetryEvent → Bool)
    (amount : TelemetryEvent → Nat) (events : List TelemetryEvent) (event : TelemetryEvent) :
    summed matching amount (events ++ [event]) =
      if matching event then saturatingAdd (summed matching amount events) (amount event)
      else summed matching amount events := by
  rw [summed, List.filter_append, List.map_append, List.sum_append]
  cases hmatching : matching event with
  | true =>
      rw [List.filter_cons_of_pos hmatching, if_pos rfl, saturatingAdd, summed]
      simp only [List.filter_nil, List.map_cons, List.map_nil, List.sum_cons, List.sum_nil]
      omega
  | false =>
      rw [List.filter_cons_of_neg (by simp [hmatching]), if_neg (by simp), summed]
      rfl

theorem counted_perm (h : events.Perm other) :
    counted matching events = counted matching other := by
  rw [counted, counted, h.countP_eq]

theorem summed_perm (h : events.Perm other) :
    summed matching amount events = summed matching amount other := by
  rw [summed, summed, ((h.filter matching).map amount).sum_eq]

end Sums

section Reports

open TelemetryEvent

/-- The executions of a list of events, counted one by one. -/
def exactScans (events : List TelemetryEvent) : ScanCounters where
  successfulExecutions := counted succeeded events
  failedExecutions := counted failed events
  collectionScans := counted scansCollection events
  indexScans := counted scansIndex events

/-- Failures count as failures, and nothing else. -/
def exactWork (events : List TelemetryEvent) : WorkCounters where
  toScanCounters := exactScans events
  totalExamined := summed succeeded examined events
  totalReturned := summed succeeded returned events
  totalElapsedMicros := summed succeeded elapsedMicros events

/-- The entry of a shape, computed from all its events. -/
def exactFingerprint (collection : Option String) (fingerprint : String)
    (events : List TelemetryEvent) : FingerprintStats :=
  { toWorkCounters := exactWork events, collection, fingerprint }

/-- The entry of a path, computed from all its events. -/
def exactPath (collection path : String) (events : List TelemetryEvent) : PredicatePathStats :=
  { toWorkCounters := exactWork events, collection, path }

/-- The entry of an index candidate, computed from all its events. -/
def exactCandidate (collection path : String) (events : List TelemetryEvent) :
    IndexCandidateStats where
  toScanCounters := exactScans events
  collection := collection
  path := path
  collectionScanExamined := summed scansCollection examined events
  collectionScanReturned := summed scansCollection returned events
  collectionScanElapsedMicros := summed scansCollection elapsedMicros events
  indexScanExamined := summed scansIndex examined events
  indexScanReturned := summed scansIndex returned events
  indexScanElapsedMicros := summed scansIndex elapsedMicros events

/-- The access of an event is counted whether it succeeds or not. -/
def exactTotals (events : List TelemetryEvent) : WorkloadReport where
  totalEvents := counted (fun _ => true) events
  successfulEvents := counted succeeded events
  failedEvents := counted failed events
  commandExecutions := counted isCommand events
  collectionScans := counted isCollectionScan events
  indexScans := counted isIndexScan events
  totalExamined := summed succeeded examined events
  totalReturned := summed succeeded returned events
  totalElapsedMicros := summed succeeded elapsedMicros events

end Reports

section Steps

variable (events : List TelemetryEvent) (event : TelemetryEvent)

theorem exactScans_append_singleton : exactScans (events ++ [event]) =
    if event.succeeded then (exactScans events).addSuccess event
    else (exactScans events).addFailure := by
  simp only [exactScans, counted_append_singleton, TelemetryEvent.failed,
    TelemetryEvent.scansCollection, TelemetryEvent.scansIndex, TelemetryEvent.isCollectionScan,
    TelemetryEvent.isIndexScan]
  obtain ⟨_, _, _, _, access, _, _, _, succeeded⟩ := event
  cases succeeded <;> cases access <;> rfl

theorem exactWork_append_singleton :
    exactWork (events ++ [event]) = (exactWork events).add event := by
  rw [exactWork, exactScans_append_singleton, WorkCounters.add]
  simp only [summed_append_singleton]
  obtain ⟨_, _, _, _, _, _, _, _, succeeded⟩ := event
  cases succeeded <;> rfl

theorem exactFingerprint_append_singleton (collection : Option String) (fingerprint : String) :
    exactFingerprint collection fingerprint (events ++ [event]) =
      addFingerprint event (exactFingerprint collection fingerprint events) := by
  rw [exactFingerprint, exactWork_append_singleton, addFingerprint]
  rfl

theorem exactPath_append_singleton (collection path : String) :
    exactPath collection path (events ++ [event]) =
      addPath event (exactPath collection path events) := by
  rw [exactPath, exactWork_append_singleton, addPath]
  rfl

theorem exactCandidate_append_singleton (collection path : String) :
    exactCandidate collection path (events ++ [event]) =
      addCandidate event (exactCandidate collection path events) := by
  rw [exactCandidate, exactScans_append_singleton, addCandidate, addCandidateWork]
  simp only [summed_append_singleton, TelemetryEvent.scansCollection, TelemetryEvent.scansIndex,
    TelemetryEvent.isCollectionScan, TelemetryEvent.isIndexScan]
  obtain ⟨_, _, _, _, access, _, _, _, succeeded⟩ := event
  cases succeeded <;> cases access <;> rfl

theorem exactTotals_append_singleton :
    exactTotals (events ++ [event]) = addTotals event (exactTotals events) := by
  simp only [exactTotals, counted_append_singleton, summed_append_singleton,
    TelemetryEvent.failed, TelemetryEvent.isCommand, TelemetryEvent.isCollectionScan,
    TelemetryEvent.isIndexScan, addTotals]
  obtain ⟨_, _, _, _, access, _, _, _, succeeded⟩ := event
  cases succeeded <;> cases access <;> rfl

end Steps

section Tallies

/-- One entry for each collection and shape of query. -/
def fingerprintTally :
    Tally TelemetryEvent (Lex (WithBot String × String)) FingerprintStats where
  keys event := [toLex (event.collection, event.fingerprint)]
  nodup _ := List.nodup_singleton _
  start key := { collection := (ofLex key).1, fingerprint := (ofLex key).2 }
  add := addFingerprint

/-- The keys of some paths in the collection of an event. -/
def pathKeys (collection : Option String) (paths : List String) : List (Lex (String × String)) :=
  match collection with
  | none => []
  | some collection => (distinct paths).map fun path => toLex (collection, path)

theorem nodup_pathKeys (collection : Option String) (paths : List String) :
    (pathKeys collection paths).Nodup := by
  cases collection with
  | none => exact List.nodup_nil
  | some collection =>
      apply (SortedMap.nodup_keys _).map
      intro first second heq
      exact congrArg Prod.snd (toLex.injective heq)

theorem mem_pathKeys {found : Option String} {paths : List String} {collection path : String} :
    toLex (collection, path) ∈ pathKeys found paths ↔ found = some collection ∧ path ∈ paths := by
  cases found with
  | none => simp [pathKeys]
  | some other =>
      simp only [pathKeys, List.mem_map, Option.some.injEq, ← @mem_distinct paths]
      constructor
      · rintro ⟨reported, hreported, heq⟩
        obtain ⟨rfl, rfl⟩ := Prod.mk.inj (toLex.injective heq)
        exact ⟨rfl, hreported⟩
      · rintro ⟨rfl, hpath⟩
        exact ⟨path, hpath, rfl⟩

/-- One entry for each path of a predicate. -/
def predicateTally : Tally TelemetryEvent (Lex (String × String)) PredicatePathStats where
  keys event := pathKeys event.collection event.predicatePaths
  nodup event := nodup_pathKeys event.collection event.predicatePaths
  start key := { collection := (ofLex key).1, path := (ofLex key).2 }
  add := addPath

/-- One entry for each path that an index could serve. -/
def candidateTally : Tally TelemetryEvent (Lex (String × String)) IndexCandidateStats where
  keys event := pathKeys event.collection event.indexCandidatePaths
  nodup event := nodup_pathKeys event.collection event.indexCandidatePaths
  start key := { collection := (ofLex key).1, path := (ofLex key).2 }
  add := addCandidate

/-- The report with its sums written out: there is an entry for each key that some event has, and
an entry counts the events that have its key. -/
def exactReport (events : List TelemetryEvent) : WorkloadReport :=
  { exactTotals events with
    fingerprints := (fingerprintTally.occurring events).map fun key =>
      exactFingerprint (ofLex key).1 (ofLex key).2 (fingerprintTally.having key events)
    predicatePaths := (predicateTally.occurring events).map fun key =>
      exactPath (ofLex key).1 (ofLex key).2 (predicateTally.having key events)
    indexCandidates := (candidateTally.occurring events).map fun key =>
      exactCandidate (ofLex key).1 (ofLex key).2 (candidateTally.having key events) }

theorem total_fingerprintTally (key : Lex (WithBot String × String))
    (events : List TelemetryEvent) :
    fingerprintTally.total key events =
      exactFingerprint (ofLex key).1 (ofLex key).2 (fingerprintTally.having key events) :=
  Tally.total_eq (f := exactFingerprint _ _) rfl (exactFingerprint_append_singleton · · _ _) events

theorem total_predicateTally (key : Lex (String × String)) (events : List TelemetryEvent) :
    predicateTally.total key events =
      exactPath (ofLex key).1 (ofLex key).2 (predicateTally.having key events) :=
  Tally.total_eq (f := exactPath _ _) rfl (exactPath_append_singleton · · _ _) events

theorem total_candidateTally (key : Lex (String × String)) (events : List TelemetryEvent) :
    candidateTally.total key events =
      exactCandidate (ofLex key).1 (ofLex key).2 (candidateTally.having key events) :=
  Tally.total_eq (f := exactCandidate _ _) rfl (exactCandidate_append_singleton · · _ _) events

/-- The aggregates are the totals and the tallies of the events. -/
structure Aggregates.Sums (aggregates : Aggregates) (events : List TelemetryEvent) : Prop where
  totals : aggregates.totals = exactTotals events
  fingerprints : aggregates.fingerprints = fingerprintTally.run events
  predicatePaths : aggregates.predicatePaths = predicateTally.run events
  indexCandidates : aggregates.indexCandidates = candidateTally.run events

theorem Aggregates.Sums.addEvent {aggregates : Aggregates} {events : List TelemetryEvent}
    (h : aggregates.Sums events) (event : TelemetryEvent) :
    (addEvent aggregates event).Sums (events ++ [event]) := by
  have hfingerprints : aggregates.fingerprints.upsert (toLex (event.collection, event.fingerprint))
      { collection := event.collection, fingerprint := event.fingerprint }
      (addFingerprint event) = fingerprintTally.run (events ++ [event]) := by
    rw [Tally.run_append_singleton, h.fingerprints]
    rfl
  have htotals : addTotals event aggregates.totals = exactTotals (events ++ [event]) := by
    rw [exactTotals_append_singleton, h.totals]
  rw [Intelligence.addEvent]
  cases hcollection : event.collection with
  | none =>
      rw [hcollection] at hfingerprints
      refine ⟨htotals, hfingerprints, ?_, ?_⟩
      · rw [Tally.run_append_singleton, ← h.predicatePaths, Tally.count]
        simp only [predicateTally, hcollection, pathKeys, List.foldl_nil]
      · rw [Tally.run_append_singleton, ← h.indexCandidates, Tally.count]
        simp only [candidateTally, hcollection, pathKeys, List.foldl_nil]
  | some collection =>
      rw [hcollection] at hfingerprints
      refine ⟨htotals, hfingerprints, ?_, ?_⟩
      · rw [Tally.run_append_singleton, ← h.predicatePaths, Tally.count]
        simp only [predicateTally, hcollection, pathKeys, List.foldl_map, addPaths]
        rfl
      · rw [Tally.run_append_singleton, ← h.indexCandidates, Tally.count]
        simp only [candidateTally, hcollection, pathKeys, List.foldl_map, addPaths]
        rfl

theorem sums_foldl_addEvent (events : List TelemetryEvent) :
    (events.foldl addEvent {}).Sums events := by
  induction events using List.reverseRecOn with
  | nil => exact ⟨rfl, rfl, rfl, rfl⟩
  | append_singleton events event ih =>
      rw [List.foldl_append]
      exact ih.addEvent event

end Tallies

theorem analyzeWorkload_eq_exactReport (events : List TelemetryEvent) :
    analyzeWorkload events = exactReport events := by
  have hsums := sums_foldl_addEvent events
  rw [analyzeWorkload, exactReport, hsums.totals, hsums.fingerprints, hsums.predicatePaths,
    hsums.indexCandidates]
  simp only [Tally.values_run, total_fingerprintTally, total_predicateTally, total_candidateTally]

section Orders

variable {events other : List TelemetryEvent}

theorem exactScans_perm (h : events.Perm other) : exactScans events = exactScans other := by
  simp only [exactScans, counted_perm h]

theorem exactWork_perm (h : events.Perm other) : exactWork events = exactWork other := by
  simp only [exactWork, exactScans_perm h, summed_perm h]

theorem exactReport_perm (h : events.Perm other) : exactReport events = exactReport other := by
  have hfingerprints : ∀ key, exactWork (fingerprintTally.having key events) =
      exactWork (fingerprintTally.having key other) :=
    fun key => exactWork_perm (Tally.having_perm h key)
  have hpaths : ∀ key, exactWork (predicateTally.having key events) =
      exactWork (predicateTally.having key other) :=
    fun key => exactWork_perm (Tally.having_perm h key)
  have hcandidates : ∀ key collection path,
      exactCandidate collection path (candidateTally.having key events) =
        exactCandidate collection path (candidateTally.having key other) := by
    intro key collection path
    have hhaving : (candidateTally.having key events).Perm (candidateTally.having key other) :=
      Tally.having_perm h key
    simp only [exactCandidate, exactScans_perm hhaving, summed_perm hhaving]
  have htotals : exactTotals events = exactTotals other := by
    simp only [exactTotals, counted_perm h, summed_perm h]
  simp only [exactReport, htotals, exactFingerprint, hfingerprints, exactPath, hpaths, hcandidates,
    Tally.occurring_perm h]

end Orders

/-- The analysis of a workload is the report of its sums, with an entry for exactly the keys that
occur, in increasing order. The order of the events does not matter. -/
theorem analysis_is_sum (events : List TelemetryEvent) :
    analyzeWorkload events = exactReport events ∧
    ((fingerprintTally.occurring events).Pairwise (· < ·) ∧
      ∀ key, key ∈ fingerprintTally.occurring events ↔
        ∃ event ∈ events, key = toLex (event.collection, event.fingerprint)) ∧
    ((predicateTally.occurring events).Pairwise (· < ·) ∧
      ∀ collection path, toLex (collection, path) ∈ predicateTally.occurring events ↔
        ∃ event ∈ events, event.collection = some collection ∧ path ∈ event.predicatePaths) ∧
    ((candidateTally.occurring events).Pairwise (· < ·) ∧
      ∀ collection path, toLex (collection, path) ∈ candidateTally.occurring events ↔
        ∃ event ∈ events, event.Reports collection path) ∧
    ∀ other, events.Perm other → analyzeWorkload other = analyzeWorkload events := by
  refine ⟨analyzeWorkload_eq_exactReport events, ⟨Tally.occurring_sorted events, fun key => ?_⟩,
    ⟨Tally.occurring_sorted events, fun collection path => ?_⟩,
    ⟨Tally.occurring_sorted events, fun collection path => ?_⟩, fun other hother => ?_⟩
  · simp only [Tally.mem_occurring, fingerprintTally, List.mem_singleton]
    exact Iff.rfl
  · simp only [Tally.mem_occurring, predicateTally, mem_pathKeys]
  · simp only [Tally.mem_occurring, candidateTally, mem_pathKeys, TelemetryEvent.Reports]
  · rw [analyzeWorkload_eq_exactReport, analyzeWorkload_eq_exactReport, exactReport_perm hother]

section Candidates

variable {events : List TelemetryEvent} {event : TelemetryEvent} {collection path : String}
  {stats : IndexCandidateStats}

/-- The entry is that of the path and counts the scans of these events. -/
structure IndexCandidateStats.Counts (stats : IndexCandidateStats) (events : List TelemetryEvent)
    (collection path : String) : Prop where
  named : stats.collection = collection ∧ stats.path = path
  collectionScans : stats.collectionScans =
    min (events.countP (TelemetryEvent.countsCollectionScan collection path)) u64Max
  indexScans : stats.indexScans =
    min (events.countP (TelemetryEvent.countsIndexScan collection path)) u64Max

theorem mem_indexCandidates : stats ∈ (analyzeWorkload events).indexCandidates ↔
    ∃ collection path, toLex (collection, path) ∈ candidateTally.occurring events ∧
      exactCandidate collection path (candidateTally.having (toLex (collection, path)) events) =
        stats := by
  rw [analyzeWorkload_eq_exactReport, exactReport, List.mem_map]
  exact ⟨fun ⟨key, h⟩ => ⟨(ofLex key).1, (ofLex key).2, h⟩, fun ⟨_, _, h⟩ => ⟨_, h⟩⟩

theorem having_candidateTally (collection path : String) (events : List TelemetryEvent) :
    candidateTally.having (toLex (collection, path)) events =
      events.filter fun event => decide (event.Reports collection path) :=
  List.filter_congr fun _ _ => decide_eq_decide.mpr mem_pathKeys

/-- The scans of an entry are those of the events that report its path. -/
theorem counts_of_mem_indexCandidates (h : stats ∈ (analyzeWorkload events).indexCandidates) :
    stats.Counts events stats.collection stats.path := by
  obtain ⟨collection, path, -, rfl⟩ := mem_indexCandidates.mp h
  refine ⟨⟨rfl, rfl⟩, ?_, ?_⟩
  · simp only [exactCandidate, exactScans, having_candidateTally, counted, List.countP_filter]
    rfl
  · simp only [exactCandidate, exactScans, having_candidateTally, counted, List.countP_filter]
    rfl

/-- A path that is reported has an entry. -/
theorem exists_entry (hevent : event ∈ events) (h : event.Reports collection path) :
    ∃ stats ∈ (analyzeWorkload events).indexCandidates,
      stats.collection = collection ∧ stats.path = path := by
  have hoccurs : toLex (collection, path) ∈ candidateTally.occurring events :=
    Tally.mem_occurring.mpr ⟨event, hevent, mem_pathKeys.mpr h⟩
  exact ⟨_, mem_indexCandidates.mpr ⟨collection, path, hoccurs, rfl⟩, rfl, rfl⟩

/-- An entry is one of a path that an event reports. -/
theorem exists_event (h : stats ∈ (analyzeWorkload events).indexCandidates) :
    ∃ event ∈ events, event.Reports stats.collection stats.path := by
  obtain ⟨collection, path, hoccurs, rfl⟩ := mem_indexCandidates.mp h
  obtain ⟨event, hevent, hkey⟩ := Tally.mem_occurring.mp hoccurs
  exact ⟨event, hevent, mem_pathKeys.mp hkey⟩

end Candidates

end NovaBase.Intelligence
