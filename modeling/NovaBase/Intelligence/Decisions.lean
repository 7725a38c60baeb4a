import NovaBase.Intelligence.Advisor
import NovaBase.Intelligence.Totals

/-!
# From telemetry to decisions

What is recommended depends on the sums over the events that report a path. A recommendation is
then decided by the calls that name it, which succeed in the order of its life only, and what an
evaluation compares are the sums before and after.
-/

namespace NovaBase.Intelligence

open Lib Index

section Recommendations

/-- The work on the events that report a path. -/
def candidateOf (collection path : String) (events : List TelemetryEvent) : IndexCandidateStats :=
  exactCandidate collection path (events.filter fun event => event.Reports collection path)

/-- The evidence that a candidate gives. -/
def IndexCandidateStats.evidence (candidate : IndexCandidateStats) : RecommendationEvidence where
  successfulExecutions := candidate.successfulExecutions
  collectionScans := candidate.collectionScans
  indexScans := candidate.indexScans
  collectionScanExamined := candidate.collectionScanExamined
  collectionScanReturned := candidate.collectionScanReturned
  collectionScanElapsedMicros := candidate.collectionScanElapsedMicros
  returnRatioBasisPoints :=
    ratioBasisPoints candidate.collectionScanReturned candidate.collectionScanExamined

/-- The evidence meets all thresholds. -/
structure AdvisorConfig.Satisfied (config : AdvisorConfig) (evidence : RecommendationEvidence) :
    Prop where
  executions : config.minSuccessfulExecutions ≤ evidence.successfulExecutions
  scans : config.minCollectionScans ≤ evidence.collectionScans
  examined : config.minCollectionScanExamined ≤ evidence.collectionScanExamined
  ratio : evidence.returnRatioBasisPoints ≤ config.maxReturnRatioBasisPoints

/-- Recommendations are told apart by collection and path. -/
def IndexRecommendation.key (recommendation : IndexRecommendation) : Lex (String × String) :=
  toLex (recommendation.collection, recommendation.path)

variable {events : List TelemetryEvent} {existing : List (String × String)}
  {existingIndexes : List IndexDefinition} {config : AdvisorConfig}
  {recommendations : List IndexRecommendation} {collection path : String}

theorem recommendation_eq_some {candidate : IndexCandidateStats} {proposal : IndexRecommendation} :
    recommendation existing config candidate = some proposal ↔
      (candidate.collection, candidate.path) ∉ existing ∧ config.Satisfied candidate.evidence ∧
        proposal = ⟨candidate.collection, candidate.path, candidate.evidence⟩ := by
  unfold recommendation
  split
  · rename_i hfails
    constructor
    · intro hnone
      cases hnone
    · rintro ⟨hnew, hsatisfied, -⟩
      obtain ⟨hexecutions, hscans, hexamined, -⟩ := hsatisfied
      simp only [IndexCandidateStats.evidence] at hexecutions hscans hexamined
      rcases hfails with hold | hfew | hrare | hsmall
      · exact absurd hold hnew
      · omega
      · omega
      · omega
  · rename_i hholds
    push Not at hholds
    obtain ⟨hnew, hexecutions, hscans, hexamined⟩ := hholds
    dsimp only
    split
    · rename_i hratio
      constructor
      · intro hnone
        cases hnone
      · rintro ⟨-, hsatisfied, -⟩
        exact absurd hsatisfied.ratio (Nat.not_le.mpr hratio)
    · rename_i hratio
      constructor
      · intro hsome
        exact ⟨hnew, ⟨hexecutions, hscans, hexamined, Nat.not_lt.mp hratio⟩,
          (Option.some.inj hsome).symm⟩
      · rintro ⟨-, -, rfl⟩
        rfl

theorem recommendIndexes_eq_ok
    (h : recommendIndexes (analyzeWorkload events) existingIndexes config = .ok recommendations) :
    recommendations = (candidateTally.occurring events).filterMap fun key =>
      recommendation (existingIndexes.map fun definition =>
        (definition.collection, joinDots definition.field)) config
          (candidateOf (ofLex key).1 (ofLex key).2 events) := by
  obtain ⟨_, -, hreturn⟩ := bind_eq_ok.mp h
  rw [← Except.ok.inj hreturn, analyzeWorkload_eq_exactReport]
  simp only [exactReport, List.filterMap_map]
  apply List.filterMap_congr
  intro key _
  rw [Function.comp_apply, candidateOf, ← having_candidateTally]
  rfl

theorem sorted_recommendations
    (h : recommendIndexes (analyzeWorkload events) existingIndexes config = .ok recommendations) :
    (recommendations.map IndexRecommendation.key).Pairwise (· < ·) := by
  rw [recommendIndexes_eq_ok h, List.pairwise_map, List.pairwise_filterMap]
  apply (Tally.occurring_sorted events).imp
  intro earlier later hless first hfirst second hsecond
  obtain ⟨-, -, rfl⟩ := recommendation_eq_some.mp hfirst
  obtain ⟨-, -, rfl⟩ := recommendation_eq_some.mp hsecond
  exact hless

/-- The advisor proposes exactly the reported paths without an index whose sums meet all
thresholds, each once and in the order of collections and paths, with these sums as evidence. -/
theorem recommendations_exact
    (h : recommendIndexes (analyzeWorkload events) existingIndexes config = .ok recommendations) :
    (recommendations.map IndexRecommendation.key).Pairwise (· < ·) ∧
      ∀ proposal : IndexRecommendation, proposal ∈ recommendations ↔
        (∃ event ∈ events, event.Reports proposal.collection proposal.path) ∧
        (∀ definition ∈ existingIndexes, (definition.collection, joinDots definition.field) ≠
          (proposal.collection, proposal.path)) ∧
        proposal.evidence = (candidateOf proposal.collection proposal.path events).evidence ∧
        config.Satisfied proposal.evidence := by
  refine ⟨sorted_recommendations h, fun proposal => ?_⟩
  rw [recommendIndexes_eq_ok h, List.mem_filterMap]
  constructor
  · rintro ⟨key, hkey, hsome⟩
    obtain ⟨hnew, hsatisfied, rfl⟩ := recommendation_eq_some.mp hsome
    obtain ⟨event, hevent, hreports⟩ := Tally.mem_occurring.mp hkey
    refine ⟨⟨event, hevent, mem_pathKeys.mp hreports⟩, ?_, rfl, hsatisfied⟩
    exact fun definition hdefinition heq => hnew (List.mem_map.mpr ⟨definition, hdefinition, heq⟩)
  · rintro ⟨⟨event, hevent, hreports⟩, hnew, hevidence, hsatisfied⟩
    refine ⟨proposal.key, Tally.mem_occurring.mpr ⟨event, hevent, mem_pathKeys.mpr hreports⟩, ?_⟩
    apply recommendation_eq_some.mpr
    refine ⟨?_, hevidence ▸ hsatisfied, ?_⟩
    · intro hold
      obtain ⟨definition, hdefinition, heq⟩ := List.mem_map.mp hold
      exact hnew definition hdefinition heq
    · obtain ⟨collection, path, evidence⟩ := proposal
      exact congrArg (IndexRecommendation.mk collection path) hevidence

/-- The advisor accepts its default thresholds. -/
theorem exists_recommendations (events : List TelemetryEvent)
    (existingIndexes : List IndexDefinition) : ∃ recommendations,
      recommendIndexes (analyzeWorkload events) existingIndexes {} = .ok recommendations :=
  ⟨_, rfl⟩

/-- A get of one pupil by name, which scans all of them. -/
def pupilScan : TelemetryEvent where
  fingerprint := "get:pupils|filter"
  collection := some "pupils"
  predicatePaths := ["name"]
  indexCandidatePaths := ["name"]
  access := .collectionScan
  examined := 100
  returned := 1
  elapsedMicros := 50
  succeeded := true

/-- What the advisor says of three such gets. -/
def pupilProposal : IndexRecommendation where
  collection := "pupils"
  path := "name"
  evidence :=
    { successfulExecutions := 3
      collectionScans := 3
      indexScans := 0
      collectionScanExamined := 300
      collectionScanReturned := 3
      collectionScanElapsedMicros := 150
      returnRatioBasisPoints := 100 }

theorem recommendations_exact_pupils : ∃ recommendations,
    recommendIndexes (analyzeWorkload (List.replicate 3 pupilScan)) [] {} = .ok recommendations ∧
      pupilProposal ∈ recommendations := by
  obtain ⟨recommendations, h⟩ := exists_recommendations (List.replicate 3 pupilScan) []
  refine ⟨recommendations, h, ((recommendations_exact h).2 pupilProposal).mpr ?_⟩
  refine ⟨⟨pupilScan, by simp, by decide⟩, by simp, ?_, ?_⟩
  · have hreports : (List.replicate 3 pupilScan).filter
        (fun event => event.Reports pupilProposal.collection pupilProposal.path) =
          List.replicate 3 pupilScan := by decide
    rw [candidateOf, hreports]
    simp only [pupilProposal, IndexCandidateStats.evidence, RecommendationEvidence.mk.injEq]
    decide
  · constructor <;> decide

end Recommendations

section Decisions

/-- A call on the recommendation at a path. The workload after an application comes as its
events. -/
inductive Decision
  | accept (collection path : String)
  | dismiss (collection path : String)
  | markApplied (collection path : String)
  | evaluate (collection path : String) (events : List TelemetryEvent) (config : EvaluationConfig)
  deriving DecidableEq

namespace Decision

/-- The recommendation that a call is about. -/
def key : Decision → Lex (String × String)
  | accept collection path | dismiss collection path | markApplied collection path
  | evaluate collection path _ _ => toLex (collection, path)

/-- Make a call. -/
def perform (lifecycle : RecommendationLifecycle) : Decision → Result RecommendationLifecycle
  | accept collection path => lifecycle.accept collection path
  | dismiss collection path => lifecycle.dismiss collection path
  | markApplied collection path => lifecycle.markApplied collection path
  | evaluate collection path events config =>
      Prod.snd <$> lifecycle.evaluate collection path (analyzeWorkload events) config

end Decision

/-- What a call that succeeds does to the record at its path. -/
inductive Decision.Changes : Decision → RecommendationRecord → RecommendationRecord → Prop
  | accept {collection path : String} {proposal : IndexRecommendation}
      {evaluation : Option ImpactEvaluation} :
      Changes (.accept collection path) ⟨proposal, .proposed, evaluation⟩
        ⟨proposal, .accepted, evaluation⟩
  | dismiss {collection path : String} {proposal : IndexRecommendation}
      {evaluation : Option ImpactEvaluation} :
      Changes (.dismiss collection path) ⟨proposal, .proposed, evaluation⟩
        ⟨proposal, .dismissed, evaluation⟩
  | markApplied {collection path : String} {proposal : IndexRecommendation}
      {evaluation : Option ImpactEvaluation} :
      Changes (.markApplied collection path) ⟨proposal, .accepted, evaluation⟩
        ⟨proposal, .applied, evaluation⟩
  | evaluate {collection path : String} {proposal : IndexRecommendation}
      {evaluation : Option ImpactEvaluation} {events : List TelemetryEvent}
      {config : EvaluationConfig} (observed : ∃ event ∈ events, event.Reports collection path)
      (positive : config.minIndexScans ≠ 0)
      (enough : config.minIndexScans ≤
        counted (TelemetryEvent.countsIndexScan collection path) events) :
      Changes (.evaluate collection path events config) ⟨proposal, .applied, evaluation⟩
        ⟨proposal, .evaluated, some (RecommendationLifecycle.impact proposal.evidence
          (candidateOf collection path events))⟩

theorem Decision.Changes.unique {decision : Decision} {record first second : RecommendationRecord}
    (hfirst : decision.Changes record first) (hsecond : decision.Changes record second) :
    first = second := by
  cases hfirst <;> cases hsecond <;> rfl

/-- The lifecycle after some calls. One that fails changes nothing. -/
def RecommendationLifecycle.decide (lifecycle : RecommendationLifecycle)
    (decisions : List Decision) : RecommendationLifecycle :=
  decisions.foldl (fun lifecycle decision =>
    match decision.perform lifecycle with
    | .ok next => next
    | .error _ => lifecycle) lifecycle

/-- The calls on one recommendation that succeed. -/
def RecommendationLifecycle.history (key : Lex (String × String))
    (lifecycle : RecommendationLifecycle) : List Decision → List Decision
  | [] => []
  | decision :: decisions =>
      match decision.perform lifecycle with
      | .ok next =>
          (if decision.key = key then [decision] else []) ++ next.history key decisions
      | .error _ => lifecycle.history key decisions

/-- The life of a recommendation: the calls that make it, and what the record says after them. -/
inductive Life (proposal : IndexRecommendation) : List Decision → RecommendationRecord → Prop
  | proposed : Life proposal [] ⟨proposal, .proposed, none⟩
  | dismissed :
      Life proposal [.dismiss proposal.collection proposal.path] ⟨proposal, .dismissed, none⟩
  | accepted :
      Life proposal [.accept proposal.collection proposal.path] ⟨proposal, .accepted, none⟩
  | applied :
      Life proposal [.accept proposal.collection proposal.path,
        .markApplied proposal.collection proposal.path] ⟨proposal, .applied, none⟩
  | evaluated {events : List TelemetryEvent} {config : EvaluationConfig}
      (observed : ∃ event ∈ events, event.Reports proposal.collection proposal.path)
      (positive : config.minIndexScans ≠ 0)
      (enough : config.minIndexScans ≤
        counted (TelemetryEvent.countsIndexScan proposal.collection proposal.path) events) :
      Life proposal [.accept proposal.collection proposal.path,
          .markApplied proposal.collection proposal.path,
          .evaluate proposal.collection proposal.path events config]
        ⟨proposal, .evaluated, some (RecommendationLifecycle.impact proposal.evidence
          (candidateOf proposal.collection proposal.path events))⟩

section Steps

variable {lifecycle next : RecommendationLifecycle} {collection path : String}
  {events : List TelemetryEvent}

theorem record_eq_ok {record : RecommendationRecord} :
    lifecycle.record collection path = .ok record ↔
      lifecycle.records.get (toLex (collection, path)) = some record := by
  unfold RecommendationLifecycle.record
  split
  · rename_i found hfound
    rw [hfound]
    simp
  · rename_i hnone
    rw [hnone]
    simp

theorem transition_eq_ok {expected status : RecommendationStatus} :
    lifecycle.transition collection path expected status = .ok next ↔
      ∃ record, lifecycle.records.get (toLex (collection, path)) = some record ∧
        record.status = expected ∧
        next = ⟨lifecycle.records.insert (toLex (collection, path)) { record with status }⟩ := by
  simp only [RecommendationLifecycle.transition, bind_eq_ok, require_eq_ok, record_eq_ok,
    pure_eq_ok, Except.ok.injEq]
  constructor
  · rintro ⟨record, hrecord, -, hstatus, rfl⟩
    exact ⟨record, hrecord, hstatus, rfl⟩
  · rintro ⟨record, hrecord, hstatus, rfl⟩
    exact ⟨record, hrecord, (), hstatus, rfl⟩

theorem eq_candidateOf {candidate : IndexCandidateStats}
    (hmem : candidate ∈ (analyzeWorkload events).indexCandidates)
    (hnamed : candidate.collection = collection ∧ candidate.path = path) :
    (∃ event ∈ events, event.Reports collection path) ∧
      candidate = candidateOf collection path events := by
  obtain ⟨foundCollection, foundPath, hoccurs, rfl⟩ := mem_indexCandidates.mp hmem
  obtain ⟨rfl, rfl⟩ := hnamed
  obtain ⟨event, hevent, hkey⟩ := Tally.mem_occurring.mp hoccurs
  refine ⟨⟨event, hevent, mem_pathKeys.mp hkey⟩, ?_⟩
  rw [having_candidateTally]
  rfl

/-- The entry of a path in the analysis, if some event reports it. -/
theorem find_indexCandidates {candidate : IndexCandidateStats} :
    (analyzeWorkload events).indexCandidates.find? (fun candidate =>
        candidate.collection = collection ∧ candidate.path = path) = some candidate ↔
      (∃ event ∈ events, event.Reports collection path) ∧
        candidate = candidateOf collection path events := by
  constructor
  · intro hfind
    exact eq_candidateOf (List.mem_of_find?_eq_some hfind) (by simpa using List.find?_some hfind)
  · rintro ⟨⟨event, hevent, hreports⟩, rfl⟩
    obtain ⟨stats, hstats, hnamed⟩ := exists_entry hevent hreports
    have hsome : ((analyzeWorkload events).indexCandidates.find? fun candidate =>
        candidate.collection = collection ∧ candidate.path = path).isSome :=
      List.find?_isSome.mpr ⟨stats, hstats, by simpa using hnamed⟩
    obtain ⟨found, hfound⟩ := Option.isSome_iff_exists.mp hsome
    rw [hfound]
    exact congrArg some (eq_candidateOf (List.mem_of_find?_eq_some hfound)
      (by simpa using List.find?_some hfound)).2

theorem indexScans_candidateOf :
    (candidateOf collection path events).indexScans =
      counted (TelemetryEvent.countsIndexScan collection path) events := by
  simp only [candidateOf, exactCandidate, exactScans, counted, List.countP_filter]
  rfl

theorem evaluate_eq_ok {config : EvaluationConfig} :
    Prod.snd <$> lifecycle.evaluate collection path (analyzeWorkload events) config = .ok next ↔
      ∃ record, lifecycle.records.get (toLex (collection, path)) = some record ∧
        record.status = .applied ∧ (∃ event ∈ events, event.Reports collection path) ∧
        config.minIndexScans ≠ 0 ∧ config.minIndexScans ≤
          counted (TelemetryEvent.countsIndexScan collection path) events ∧
        next = ⟨lifecycle.records.insert (toLex (collection, path))
          { record with
            evaluation := some (RecommendationLifecycle.impact record.recommendation.evidence
              (candidateOf collection path events))
            status := .evaluated }⟩ := by
  constructor
  · intro h
    cases hevaluate : lifecycle.evaluate collection path (analyzeWorkload events) config with
    | error cause =>
        rw [hevaluate] at h
        cases h
    | ok result =>
        rw [hevaluate] at h
        obtain rfl := Except.ok.inj h
        simp only [RecommendationLifecycle.evaluate, bind_eq_ok, require_eq_ok,
          record_eq_ok] at hevaluate
        obtain ⟨-, hpositive, record, hrecord, -, hstatus, hfind⟩ := hevaluate
        split at hfind
        · cases hfind
        · rename_i candidate hcandidate
          obtain ⟨hobserved, rfl⟩ := find_indexCandidates.mp hcandidate
          obtain ⟨_, henough, hreturn⟩ := bind_eq_ok.mp hfind
          obtain rfl := Except.ok.inj hreturn
          rw [require_eq_ok, indexScans_candidateOf] at henough
          exact ⟨record, hrecord, hstatus, hobserved, hpositive, henough, rfl⟩
  · rintro ⟨record, hrecord, hstatus, hobserved, hpositive, henough, rfl⟩
    rw [RecommendationLifecycle.evaluate, require_of _ hpositive, ok_bind,
      record_eq_ok.mpr hrecord, ok_bind, require_of _ hstatus, ok_bind,
      find_indexCandidates.mpr ⟨hobserved, rfl⟩]
    dsimp only
    rw [indexScans_candidateOf, require_of _ henough, ok_bind]
    rfl

theorem perform_eq_ok {decision : Decision} :
    decision.perform lifecycle = .ok next ↔
      ∃ record after, lifecycle.records.get decision.key = some record ∧
        decision.Changes record after ∧
        next = ⟨lifecycle.records.insert decision.key after⟩ := by
  constructor
  · intro h
    cases decision with
    | accept collection path =>
        obtain ⟨⟨proposal, _, evaluation⟩, hget, rfl, rfl⟩ := transition_eq_ok.mp h
        exact ⟨_, _, hget, .accept, rfl⟩
    | dismiss collection path =>
        obtain ⟨⟨proposal, _, evaluation⟩, hget, rfl, rfl⟩ := transition_eq_ok.mp h
        exact ⟨_, _, hget, .dismiss, rfl⟩
    | markApplied collection path =>
        obtain ⟨⟨proposal, _, evaluation⟩, hget, rfl, rfl⟩ := transition_eq_ok.mp h
        exact ⟨_, _, hget, .markApplied, rfl⟩
    | evaluate collection path events config =>
        obtain ⟨⟨proposal, _, evaluation⟩, hget, rfl, hobserved, hpositive, henough, rfl⟩ :=
          evaluate_eq_ok.mp h
        exact ⟨_, _, hget, .evaluate hobserved hpositive henough, rfl⟩
  · rintro ⟨record, after, hget, hchanges, rfl⟩
    cases hchanges with
    | accept => exact transition_eq_ok.mpr ⟨_, hget, rfl, rfl⟩
    | dismiss => exact transition_eq_ok.mpr ⟨_, hget, rfl, rfl⟩
    | markApplied => exact transition_eq_ok.mpr ⟨_, hget, rfl, rfl⟩
    | evaluate hobserved hpositive henough =>
        exact evaluate_eq_ok.mpr ⟨_, hget, rfl, hobserved, hpositive, henough, rfl⟩

end Steps

section Runs

variable {lifecycle other next : RecommendationLifecycle} {proposal : IndexRecommendation}
  {history : List Decision} {decision : Decision} {key : Lex (String × String)}

/-- A call that succeeds on a recommendation is the next of its life. -/
theorem Life.changes {record after : RecommendationRecord} (h : Life proposal history record)
    (hkey : decision.key = proposal.key) (hchanges : decision.Changes record after) :
    Life proposal (history ++ [decision]) after := by
  obtain ⟨collection, path, evidence⟩ := proposal
  cases hchanges with
  | accept =>
      cases hkey
      cases h
      exact .accepted
  | dismiss =>
      cases hkey
      cases h
      exact .dismissed
  | markApplied =>
      cases hkey
      cases h
      exact .applied
  | evaluate hobserved hpositive henough =>
      cases hkey
      cases h
      exact .evaluated hobserved hpositive henough

theorem decide_cons_of_ok (h : decision.perform lifecycle = .ok next)
    (decisions : List Decision) :
    lifecycle.decide (decision :: decisions) = next.decide decisions := by
  rw [RecommendationLifecycle.decide, List.foldl_cons, h]
  rfl

theorem decide_cons_of_error {cause : NovaError} (h : decision.perform lifecycle = .error cause)
    (decisions : List Decision) :
    lifecycle.decide (decision :: decisions) = lifecycle.decide decisions := by
  rw [RecommendationLifecycle.decide, List.foldl_cons, h]
  rfl

theorem history_cons_of_ok (h : decision.perform lifecycle = .ok next)
    (decisions : List Decision) : lifecycle.history key (decision :: decisions) =
      (if decision.key = key then [decision] else []) ++ next.history key decisions := by
  rw [RecommendationLifecycle.history, h]

theorem history_cons_of_error {cause : NovaError} (h : decision.perform lifecycle = .error cause)
    (decisions : List Decision) :
    lifecycle.history key (decision :: decisions) = lifecycle.history key decisions := by
  rw [RecommendationLifecycle.history, h]

/-- What is known of a path: its recommendation has had the life that its history tells, or there
is none. -/
def Tracks (proposals : List IndexRecommendation) (lifecycle : RecommendationLifecycle)
    (key : Lex (String × String)) (history : List Decision) : Prop :=
  (∃ proposal ∈ proposals, proposal.key = key ∧
      ∃ record, lifecycle.records.get key = some record ∧ Life proposal history record) ∨
    (∀ proposal ∈ proposals, proposal.key ≠ key) ∧ lifecycle.records.get key = none ∧ history = []

/-- A call on another path changes nothing at this one. -/
theorem get_of_perform (h : decision.perform lifecycle = .ok next) (hkey : decision.key ≠ key) :
    next.records.get key = lifecycle.records.get key := by
  obtain ⟨record, after, -, -, rfl⟩ := perform_eq_ok.mp h
  rw [SortedMap.get_insert, if_neg hkey]

theorem Tracks.perform {proposals : List IndexRecommendation}
    (h : Tracks proposals lifecycle decision.key history)
    (hperform : decision.perform lifecycle = .ok next) :
    Tracks proposals next decision.key (history ++ [decision]) := by
  obtain ⟨record, after, hget, hchanges, rfl⟩ := perform_eq_ok.mp hperform
  rcases h with ⟨proposal, hproposal, hkey, found, hfound, hlife⟩ | ⟨-, hnone, -⟩
  · obtain rfl := Option.some.inj (hget.symm.trans hfound)
    refine .inl ⟨proposal, hproposal, hkey, after, ?_, hlife.changes hkey.symm hchanges⟩
    rw [SortedMap.get_insert, if_pos rfl]
  · rw [hget] at hnone
    cases hnone

/-- The record at a path tells the successful calls on it, after any calls. -/
theorem Tracks.decide {proposals : List IndexRecommendation} (decisions : List Decision)
    (h : Tracks proposals lifecycle key history) :
    Tracks proposals (lifecycle.decide decisions) key
      (history ++ lifecycle.history key decisions) := by
  induction decisions generalizing lifecycle history with
  | nil => rwa [RecommendationLifecycle.history, List.append_nil]
  | cons decision decisions ih =>
      cases hperform : decision.perform lifecycle with
      | error cause =>
          rw [decide_cons_of_error hperform, history_cons_of_error hperform]
          exact ih h
      | ok next =>
          rw [decide_cons_of_ok hperform, history_cons_of_ok hperform, ← List.append_assoc]
          apply ih
          by_cases hkey : decision.key = key
          · subst hkey
            rw [if_pos rfl]
            exact h.perform hperform
          · rw [if_neg hkey, List.append_nil, Tracks, get_of_perform hperform hkey]
            exact h

/-- Whether a call succeeds, and what it does, depends on the record at its path. -/
theorem perform_congr (hget : lifecycle.records.get decision.key = other.records.get decision.key)
    (h : decision.perform lifecycle = .ok next) :
    ∃ otherNext, decision.perform other = .ok otherNext ∧
      next.records.get decision.key = otherNext.records.get decision.key := by
  obtain ⟨record, after, hrecord, hchanges, rfl⟩ := perform_eq_ok.mp h
  refine ⟨_, perform_eq_ok.mpr ⟨record, after, hget ▸ hrecord, hchanges, rfl⟩, ?_⟩
  rw [SortedMap.get_insert, SortedMap.get_insert, if_pos rfl, if_pos rfl]

/-- The calls on one path succeed as if there were no others. -/
theorem history_congr (hget : lifecycle.records.get key = other.records.get key)
    (decisions : List Decision) :
    lifecycle.history key decisions =
      other.history key (decisions.filter fun decision => decision.key = key) := by
  induction decisions generalizing lifecycle other with
  | nil => rfl
  | cons decision decisions ih =>
      by_cases hkey : decision.key = key
      · subst hkey
        rw [List.filter_cons_of_pos (by simp)]
        cases hperform : decision.perform lifecycle with
        | ok next =>
            obtain ⟨otherNext, hother, hnext⟩ := perform_congr hget hperform
            rw [history_cons_of_ok hperform, history_cons_of_ok hother, ih hnext]
        | error cause =>
            cases hother : decision.perform other with
            | ok otherNext =>
                obtain ⟨next, hnext, -⟩ := perform_congr hget.symm hother
                rw [hperform] at hnext
                cases hnext
            | error otherCause =>
                rw [history_cons_of_error hperform, history_cons_of_error hother, ih hget]
      · rw [List.filter_cons_of_neg (by simpa using hkey)]
        cases hperform : decision.perform lifecycle with
        | ok next =>
            rw [history_cons_of_ok hperform, if_neg hkey, List.nil_append]
            exact ih ((get_of_perform hperform hkey).trans hget)
        | error cause =>
            rw [history_cons_of_error hperform]
            exact ih hget

end Runs

section Start

variable {recommendations : List IndexRecommendation}

/-- Proposals of different paths make a record each. -/
theorem exists_records (hnodup : (recommendations.map IndexRecommendation.key).Nodup)
    (records : SortedMap (Lex (String × String)) RecommendationRecord)
    (hnew : ∀ proposal ∈ recommendations, records.get proposal.key = none) :
    ∃ last : SortedMap (Lex (String × String)) RecommendationRecord,
      (recommendations.foldlM (fun records recommendation =>
        let key := toLex (recommendation.collection, recommendation.path)
        if records.contains key then
          .error (NovaError.invalidArgument "duplicate index recommendation")
        else .ok (records.insert key ⟨recommendation, .proposed, none⟩)) records : Result _) =
          .ok last ∧
      (∀ proposal ∈ recommendations, last.get proposal.key = some ⟨proposal, .proposed, none⟩) ∧
      ∀ key, (∀ proposal ∈ recommendations, proposal.key ≠ key) →
        last.get key = records.get key := by
  induction recommendations generalizing records with
  | nil => exact ⟨records, rfl, by simp, fun _ _ => rfl⟩
  | cons proposal rest ih =>
      rw [List.map_cons, List.nodup_cons] at hnodup
      obtain ⟨hfresh, hrest⟩ := hnodup
      have hdifferent : ∀ other ∈ rest, proposal.key ≠ other.key := fun other hother heq =>
        hfresh (List.mem_map.mpr ⟨other, hother, heq.symm⟩)
      have habsent : records.contains proposal.key = false := by
        rw [SortedMap.contains, hnew proposal List.mem_cons_self]
        rfl
      obtain ⟨last, hlast, hrecords, hothers⟩ :=
        ih hrest (records.insert proposal.key ⟨proposal, .proposed, none⟩) (by
          intro other hother
          rw [SortedMap.get_insert, if_neg (hdifferent other hother)]
          exact hnew other (List.mem_cons_of_mem _ hother))
      refine ⟨last, ?_, ?_, ?_⟩
      · rw [List.foldlM_cons]
        dsimp only
        rw [IndexRecommendation.key] at habsent
        rw [habsent]
        exact hlast
      · intro found hfound
        rcases List.mem_cons.mp hfound with rfl | hmem
        · rw [hothers _ fun other hother => (hdifferent other hother).symm, SortedMap.get_insert,
            if_pos rfl]
        · exact hrecords found hmem
      · intro key hkey
        rw [hothers key fun other hother => hkey other (List.mem_cons_of_mem _ hother),
          SortedMap.get_insert, if_neg (hkey proposal List.mem_cons_self)]

end Start

/-- Whatever the advisor proposes from a workload becomes a record, and after any calls, with any
workloads to evaluate, a record tells the life of its recommendation: what it says follows from
the calls on its path that have succeeded, and these do not depend on calls on other paths. -/
theorem recommendations_live {events : List TelemetryEvent} {existingIndexes : List IndexDefinition}
    {config : AdvisorConfig} {recommendations : List IndexRecommendation}
    (h : recommendIndexes (analyzeWorkload events) existingIndexes config = .ok recommendations) :
    ∃ start, RecommendationLifecycle.fromRecommendations recommendations = .ok start ∧
      ∀ decisions key, Tracks recommendations (start.decide decisions) key
          (start.history key decisions) ∧
        start.history key decisions =
          start.history key (decisions.filter fun decision => decision.key = key) := by
  have hnodup : (recommendations.map IndexRecommendation.key).Nodup :=
    (sorted_recommendations h).imp fun hless => hless.ne
  obtain ⟨records, hrecords, hproposed, hothers⟩ := exists_records hnodup .empty fun _ _ => rfl
  refine ⟨⟨records⟩, ?_, ?_⟩
  · rw [RecommendationLifecycle.fromRecommendations, hrecords]
    rfl
  · intro decisions key
    refine ⟨?_, history_congr rfl decisions⟩
    have hstart : Tracks recommendations ⟨records⟩ key [] := by
      by_cases hkey : ∃ proposal ∈ recommendations, proposal.key = key
      · obtain ⟨proposal, hproposal, rfl⟩ := hkey
        exact .inl ⟨proposal, hproposal, rfl, _, hproposed proposal hproposal, .proposed⟩
      · push Not at hkey
        exact .inr ⟨hkey, hothers key hkey, rfl⟩
    exact hstart.decide decisions

/-- The same get through an index. -/
def pupilIndexScan : TelemetryEvent :=
  { pupilScan with access := .indexScan "by_name", examined := 1 }

/-- What the advisor says of the pupils is put into practice and the index is used, with calls that
fail in between. -/
def pupilDecisions : List Decision :=
  [.accept "pupils" "age", .accept "pupils" "name", .dismiss "pupils" "name",
    .markApplied "pupils" "name", .evaluate "pupils" "name" [pupilScan] ⟨2⟩,
    .evaluate "pupils" "name" [pupilIndexScan, pupilIndexScan] ⟨2⟩]

/-- Three of these calls succeed, as they do without the one on another path, and they make the life
of the record. -/
theorem recommendations_live_pupils : ∃ start,
    recommendIndexes (analyzeWorkload (List.replicate 3 pupilScan)) [] {} = .ok [pupilProposal] ∧
    RecommendationLifecycle.fromRecommendations [pupilProposal] = .ok start ∧
    start.history pupilProposal.key pupilDecisions =
      [.accept "pupils" "name", .markApplied "pupils" "name",
        .evaluate "pupils" "name" [pupilIndexScan, pupilIndexScan] ⟨2⟩] ∧
    start.history pupilProposal.key pupilDecisions =
      start.history pupilProposal.key pupilDecisions.tail ∧
    ∃ record, (start.decide pupilDecisions).records.get pupilProposal.key = some record ∧
      record.recommendation = pupilProposal ∧ record.status = .evaluated := by
  have h : recommendIndexes (analyzeWorkload (List.replicate 3 pupilScan)) [] {} =
      .ok [pupilProposal] := by decide +kernel
  obtain ⟨start, hstart, hlives⟩ := recommendations_live h
  have hhistory : start.history pupilProposal.key pupilDecisions =
      [.accept "pupils" "name", .markApplied "pupils" "name",
        .evaluate "pupils" "name" [pupilIndexScan, pupilIndexScan] ⟨2⟩] := by
    obtain rfl : _ = start := Except.ok.inj hstart
    decide +kernel
  obtain ⟨hlife, hothers⟩ := hlives pupilDecisions pupilProposal.key
  refine ⟨start, h, hstart, hhistory, hothers, ?_⟩
  rw [hhistory] at hlife
  rcases hlife with ⟨proposal, hproposal, -, record, hrecord, hlived⟩ | ⟨-, -, hnone⟩
  · obtain rfl := List.mem_singleton.mp hproposal
    cases hlived
    exact ⟨_, hrecord, rfl, rfl⟩
  · cases hnone

end Decisions

end NovaBase.Intelligence
