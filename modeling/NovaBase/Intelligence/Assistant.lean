import NovaBase.Intelligence.Lifecycle
import NovaBase.Core.Path

/-!
# The assistant

The assistant explains a recommendation: a summary of its evidence, the command
that would create the index, and the prose of a provider, if there is one. What
the provider says is bounded and only shown.
-/

namespace NovaBase.Intelligence

/-- Runtime limits for the optional explanation provider boundary. -/
structure AssistantLimits where
  maxSchemaBytes : Nat := 1024
  maxOutputBytes : Nat := 4096

/-- An injected provider of prose for a grounded prompt. -/
abbrev ExplanationProvider := String → Result String

/-- Grounded output whose optional narrative is never executable. -/
structure AssistantExplanation where
  deterministicSummary : String
  suggestedNovaql : String
  optionalNarrative : Option String

/-- No limit is zero. -/
def validateLimits (limits : AssistantLimits) : Result Unit :=
  require (limits.maxSchemaBytes ≠ 0 ∧ limits.maxOutputBytes ≠ 0)
    (NovaError.invalidArgument "assistant limits must be greater than zero")

/-- A letter or digit of ASCII in lower case, and one character for all others. -/
def nameCharacter (character : Char) : Char :=
  if character.isAlphanum then character.toLower else '_'

/-- The name that is suggested for an index. -/
def indexName (recommendation : IndexRecommendation) : String :=
  "nie_" ++ String.ofList
    ((recommendation.collection.toList ++ '_' :: recommendation.path.toList).map nameCharacter)

/-- The query that creates a recommended index. -/
def suggestedNovaql (recommendation : IndexRecommendation) : String :=
  s!"create index {indexName recommendation} on {recommendation.collection} ({recommendation.path})"

/-- The explanation that needs no provider: the evidence, and the impact if it was evaluated. -/
def deterministicSummary (recommendation : IndexRecommendation)
    (evaluation : Option ImpactEvaluation) : String :=
  let evidence := recommendation.evidence
  let summary := s!"{evidence.collectionScans} collection scans examined " ++
    s!"{evidence.collectionScanExamined} documents and returned {evidence.collectionScanReturned} " ++
    s!"for {recommendation.collection}.{recommendation.path} " ++
    s!"({evidence.returnRatioBasisPoints} basis points)."
  match evaluation with
  | none => summary
  | some evaluation => summary ++
      s!" After indexing, {evaluation.observedIndexScans} observations changed average examined " ++
        s!"documents from {evaluation.baselineAverageExamined} to " ++
        s!"{evaluation.observedAverageExamined} and average elapsed time from " ++
        s!"{evaluation.baselineAverageElapsedMicros} to " ++
        s!"{evaluation.observedAverageElapsedMicros} microseconds."

/-- The prompt repeats the evidence, and asks for nothing beyond it. -/
def groundedPrompt (recommendation : IndexRecommendation) (evaluation : Option ImpactEvaluation)
    (suggestion : String) : String :=
  let evidence := recommendation.evidence
  let facts := match evaluation with
    | none => "No post-application evaluation is available."
    | some evaluation =>
        s!"Post-index observations: {evaluation.observedIndexScans}; average examined: " ++
          s!"{evaluation.baselineAverageExamined} -> {evaluation.observedAverageExamined}; average " ++
          s!"elapsed microseconds: {evaluation.baselineAverageElapsedMicros} -> " ++
          s!"{evaluation.observedAverageElapsedMicros}."
  s!"Explain this advisory NovaDB index recommendation using only the supplied facts. Do not " ++
    "invent performance claims and do not issue instructions to execute automatically. " ++
    s!"Collection: {recommendation.collection}. Path: {recommendation.path}. " ++
    s!"Collection scans: {evidence.collectionScans}. Examined: {evidence.collectionScanExamined}. " ++
    s!"Returned: {evidence.collectionScanReturned}. " ++
    s!"Return ratio basis points: {evidence.returnRatioBasisPoints}. " ++
    s!"Suggested NovaQL: {suggestion}. {facts}"

section Explanations

variable [CharacterTables]

/-- A name has at least one character, and letters, digits and underscores only. -/
def validIdentifier (value : String) : Bool :=
  value ≠ "" && value.toList.all fun character => character == '_' || isAlphanumeric character

/-- The collection and the parts of the path are identifiers. -/
def ValidSchema (recommendation : IndexRecommendation) : Prop :=
  validIdentifier recommendation.collection = true ∧
    ∀ part ∈ splitDots recommendation.path, validIdentifier part = true

instance (recommendation : IndexRecommendation) : Decidable (ValidSchema recommendation) :=
  inferInstanceAs (Decidable (_ ∧ _))

/-- The names in a recommendation are valid, and not too long together. -/
def validateSchema (recommendation : IndexRecommendation) (maxBytes : Nat) : Result Unit := do
  let schemaBytes := saturatingAdd recommendation.collection.utf8ByteSize
    recommendation.path.utf8ByteSize
  require (schemaBytes ≤ maxBytes)
    (NovaError.invalidArgument s!"assistant schema context exceeds {maxBytes} bytes")
  require (ValidSchema recommendation)
    (NovaError.invalidArgument "assistant recommendation contains an invalid schema identifier")

/-- What the provider says, within the bounds. -/
def narrative (provider : ExplanationProvider) (prompt : String) (maxBytes : Nat) :
    Result String := do
  let output ← provider prompt
  -- `output.trim().is_empty()`
  require (output.toList.all CharacterTables.isWhitespace = false)
    (NovaError.invalidArgument "assistant output cannot be empty")
  require (output.utf8ByteSize ≤ maxBytes)
    (NovaError.invalidArgument s!"assistant output exceeds {maxBytes} bytes")
  return output

/-- What the provider writes, if there is one. It must not be empty or too long. -/
def optionalNarrative (provider : Option ExplanationProvider) (prompt : String) (maxBytes : Nat) :
    Result (Option String) :=
  match provider with
  | some provider => some <$> narrative provider prompt maxBytes
  | none => .ok none

/-- Builds a grounded recommendation explanation, optionally adding provider prose. -/
def explainRecommendation (recommendation : IndexRecommendation)
    (evaluation : Option ImpactEvaluation) (provider : Option ExplanationProvider)
    (limits : AssistantLimits) : Result AssistantExplanation := do
  validateLimits limits
  validateSchema recommendation limits.maxSchemaBytes
  let suggestion := suggestedNovaql recommendation
  let prompt := groundedPrompt recommendation evaluation suggestion
  let prose ← optionalNarrative provider prompt limits.maxOutputBytes
  return ⟨deterministicSummary recommendation evaluation, suggestion, prose⟩

variable {recommendation : IndexRecommendation} {evaluation : Option ImpactEvaluation}
  {provider : Option ExplanationProvider} {limits : AssistantLimits}
  {explanation : AssistantExplanation}

/-- Only recommendations with a valid schema are explained, with the command that they suggest. -/
theorem explained_eq_ok
    (h : explainRecommendation recommendation evaluation provider limits = .ok explanation) :
    ValidSchema recommendation ∧ explanation.suggestedNovaql = suggestedNovaql recommendation := by
  simp only [explainRecommendation, validateSchema, bind_eq_ok, require_eq_ok] at h
  obtain ⟨_, -, _, ⟨_, -, hvalid⟩, prose, -, hreturn⟩ := h
  obtain rfl := Except.ok.inj hreturn
  exact ⟨hvalid, rfl⟩

/-- Every valid schema is explained, within limits that hold it. -/
theorem exists_explained (h : ValidSchema recommendation) :
    ∃ limits explanation, explainRecommendation recommendation none none limits =
      .ok explanation := by
  have hbytes : saturatingAdd recommendation.collection.utf8ByteSize
      recommendation.path.utf8ByteSize ≤ u64Max := Nat.min_le_right ..
  refine ⟨⟨u64Max, u64Max⟩, ⟨deterministicSummary recommendation none,
    suggestedNovaql recommendation, none⟩, ?_⟩
  simp only [explainRecommendation, validateLimits, validateSchema, bind_eq_ok, require_eq_ok]
  exact ⟨(), by decide, (), ⟨(), hbytes, h⟩, none, rfl, rfl⟩

end Explanations

end NovaBase.Intelligence
