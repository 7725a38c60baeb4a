import NovaBase.Index.Catalog
import NovaBase.Intelligence.Lifecycle

/-!
# The index advisor

The advisor proposes an index on a single field where enough successful scans of a
collection examined many documents and returned few of them. It only reads a
report of the workload and the definitions of the indexes that exist.
-/

namespace NovaBase.Intelligence

open Index

/-- A ratio of one. -/
def basisPoints : Nat := 10000

/-- Evidence thresholds used by the deterministic index advisor. -/
structure AdvisorConfig where
  minSuccessfulExecutions : Nat := 3
  minCollectionScans : Nat := 3
  minCollectionScanExamined : Nat := 100
  maxReturnRatioBasisPoints : Nat := 2500

/-- No threshold is zero, and the ratio is at most one. -/
def validateConfig (config : AdvisorConfig) : Result Unit := do
  require (config.minSuccessfulExecutions ≠ 0 ∧ config.minCollectionScans ≠ 0 ∧
      config.minCollectionScanExamined ≠ 0)
    (NovaError.invalidArgument "advisor count thresholds must be greater than zero")
  require (config.maxReturnRatioBasisPoints ≤ basisPoints)
    (NovaError.invalidArgument "advisor return ratio must not exceed 10000 basis points")

/-- How much of what was examined was returned. -/
def ratioBasisPoints (returned examined : Nat) : Nat :=
  if examined = 0 then basisPoints else min (returned * basisPoints / examined) basisPoints

/-- The proposal for a candidate, if the evidence is enough. -/
def recommendation (existing : List (String × String)) (config : AdvisorConfig)
    (candidate : IndexCandidateStats) : Option IndexRecommendation :=
  if (candidate.collection, candidate.path) ∈ existing ∨
      candidate.successfulExecutions < config.minSuccessfulExecutions ∨
      candidate.collectionScans < config.minCollectionScans ∨
      candidate.collectionScanExamined < config.minCollectionScanExamined then none
  else
    let ratio := ratioBasisPoints candidate.collectionScanReturned candidate.collectionScanExamined
    if config.maxReturnRatioBasisPoints < ratio then none
    else some
      { collection := candidate.collection
        path := candidate.path
        evidence :=
          { successfulExecutions := candidate.successfulExecutions
            collectionScans := candidate.collectionScans
            indexScans := candidate.indexScans
            collectionScanExamined := candidate.collectionScanExamined
            collectionScanReturned := candidate.collectionScanReturned
            collectionScanElapsedMicros := candidate.collectionScanElapsedMicros
            returnRatioBasisPoints := ratio } }

/-- Produces deterministic, evidence-based single-field index proposals. -/
def recommendIndexes (report : WorkloadReport) (existingIndexes : List IndexDefinition)
    (config : AdvisorConfig) : Result (List IndexRecommendation) := do
  validateConfig config
  let existing := existingIndexes.map fun definition =>
    (definition.collection, joinDots definition.field)
  return report.indexCandidates.filterMap (recommendation existing config)

variable {report : WorkloadReport} {existingIndexes : List IndexDefinition}
  {config : AdvisorConfig} {recommendations : List IndexRecommendation}

/-- What the advisor proposes is a candidate of the report. -/
theorem exists_candidate (h : recommendIndexes report existingIndexes config = .ok recommendations)
    {proposal : IndexRecommendation} (hproposal : proposal ∈ recommendations) :
    ∃ candidate ∈ report.indexCandidates,
      candidate.collection = proposal.collection ∧ candidate.path = proposal.path := by
  obtain ⟨_, -, hreturn⟩ := bind_eq_ok.mp h
  obtain rfl := Except.ok.inj hreturn
  obtain ⟨candidate, hcandidate, hsome⟩ := List.mem_filterMap.mp hproposal
  refine ⟨candidate, hcandidate, ?_⟩
  unfold recommendation at hsome
  split at hsome
  · cases hsome
  · dsimp only at hsome
    split at hsome
    · cases hsome
    · obtain rfl := Option.some.inj hsome
      exact ⟨rfl, rfl⟩

end NovaBase.Intelligence
