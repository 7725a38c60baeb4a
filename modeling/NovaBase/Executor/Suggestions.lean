import NovaBase.Executor.Indexable
import NovaBase.Intelligence.Advisor
import NovaBase.Intelligence.Assistant
import NovaBase.Intelligence.Totals
import NovaBase.NovaQl.IndexCommand

/-!
# Suggested commands

What the assistant suggests for a recommendation is a command of the language. The
recommendation names a collection and a path that a query was recorded with, so
the command that is parsed from the suggestion says the same.
-/

namespace NovaBase.Executor

open Lib NovaQl Index Intelligence

section Observation

variable {β : Type} [ExecutionBackend β]

/-- Execute queries one after the other, each in the given time, and record their events. -/
def observe (steps : List (Query × Nat)) (state : Run β × List TelemetryEvent) :
    Run β × List TelemetryEvent :=
  steps.foldl (fun state step => (executeWithTelemetry step.1 step.2 state).2) state

/-- An execution records at most its own event. -/
theorem executeWithTelemetry_events (query : Query) (elapsedMicros : Nat)
    (state : Run β × List TelemetryEvent) {event : TelemetryEvent}
    (h : event ∈ (executeWithTelemetry query elapsedMicros state).2.2) :
    event ∈ state.2 ∨
      ∃ plan examined result, event = buildEvent query plan examined result elapsedMicros := by
  obtain ⟨run, events⟩ := state
  simp only [executeWithTelemetry] at h
  split at h
  · exact .inl h
  · rcases List.mem_append.mp h with hold | hnew
    · exact .inl hold
    · exact .inr ⟨_, _, _, List.mem_singleton.mp hnew⟩

/-- Every event that is recorded is built from one of the queries. -/
theorem mem_observe {steps : List (Query × Nat)} {state : Run β × List TelemetryEvent}
    {event : TelemetryEvent} (h : event ∈ (observe steps state).2) :
    event ∈ state.2 ∨ ∃ step ∈ steps, ∃ plan examined result,
      event = buildEvent step.1 plan examined result step.2 := by
  induction steps generalizing state with
  | nil => exact .inl h
  | cons step rest ih =>
      rcases ih h with hnext | ⟨later, hlater, hevent⟩
      · rcases executeWithTelemetry_events step.1 step.2 state hnext with hold | hevent
        · exact .inl hold
        · exact .inr ⟨step, List.mem_cons_self .., hevent⟩
      · exact .inr ⟨later, List.mem_cons_of_mem _ hlater, hevent⟩

end Observation

section Names

/-- What the letters of an index name are. -/
theorem nameCharacter_cases (c : Char) : nameCharacter c = '_' ∨
    (nameCharacter c).isAlpha = true ∨ (nameCharacter c).isDigit = true := by
  unfold nameCharacter
  split
  next h =>
    right
    have hrange : c.isAlpha = true ∨ c.isDigit = true := by
      simpa [Char.isAlphanum] using h
    rw [isAlpha_iff, isDigit_iff] at hrange ⊢
    rw [toNat_toLower]
    split <;> omega
  · exact .inl rfl

theorem nameCharacter_ascii (c : Char) : (nameCharacter c).toNat < 128 := by
  rcases nameCharacter_cases c with h | h | h
  · rw [h]
    decide
  · have hrange := isAlpha_iff.mp h
    omega
  · have hrange := isDigit_iff.mp h
    omega

/-- The folded text behind the mark that all these names begin with. -/
def foldedText (recommendation : IndexRecommendation) : List Char :=
  (recommendation.collection.toList ++ '_' :: recommendation.path.toList).map nameCharacter

theorem toList_indexName (recommendation : IndexRecommendation) :
    (indexName recommendation).toList = 'n' :: 'i' :: 'e' :: '_' :: foldedText recommendation := by
  simp [indexName, foldedText]

/-- A suggested name is spelled with letters, digits and underscores of ASCII. -/
theorem indexName_letters (recommendation : IndexRecommendation) :
    ∀ c ∈ (indexName recommendation).toList,
      c.toNat < 128 ∧ (c = '_' ∨ c.isAlpha = true ∨ c.isDigit = true) := by
  rw [toList_indexName]
  simp only [List.forall_mem_cons, foldedText, List.forall_mem_map]
  refine ⟨by decide, by decide, by decide, by decide, fun c _ => ?_⟩
  exact ⟨nameCharacter_ascii c, nameCharacter_cases c⟩

variable [CharacterTables]

/-- The name of an index is read as an identifier. -/
theorem isName_indexName (recommendation : IndexRecommendation) :
    IsName (indexName recommendation) := by
  have htext := toList_indexName recommendation
  have hcontinue : ∀ c ∈ 'i' :: 'e' :: '_' :: foldedText recommendation,
      Lexer.isIdentifierContinue c = true := by
    intro c hc
    obtain ⟨hsmall, hcases⟩ := indexName_letters recommendation c
      (htext ▸ List.mem_cons_of_mem 'n' hc)
    rw [Lexer.isIdentifierContinue_ascii hsmall]
    simpa using hcases
  refine ⟨⟨'n', _, htext, ?_, hcontinue⟩, ?_, ?_⟩
  · rw [Lexer.isIdentifierStart_ascii (by decide)]
    decide
  · rw [htext]
    simp [Lexer.keyword, Lexer.keywords]
  · rw [htext]
    rintro _ ⟨⟩
    rw [CharacterTables.whitespace_ascii _ (by decide)]
    decide

theorem validIdentifier_indexName (recommendation : IndexRecommendation) :
    validIdentifier (indexName recommendation) = true := by
  rw [validIdentifier, Bool.and_eq_true, List.all_eq_true]
  constructor
  · have hne : indexName recommendation ≠ "" := by
      intro hempty
      have htext := toList_indexName recommendation
      rw [hempty] at htext
      cases htext
    exact decide_eq_true hne
  · intro c hc
    obtain ⟨hsmall, hcases⟩ := indexName_letters recommendation c hc
    rw [isAlphanumeric, CharacterTables.alphabetic_ascii c hsmall,
      CharacterTables.numeric_ascii c hsmall]
    simpa using hcases

end Names

section Validation

variable [CharacterTables] {value kind : String} {field : List String}

/-- The catalog accepts the identifiers that the assistant does. -/
theorem validateIdentifier_eq_ok :
    validateIdentifier value kind = .ok () ↔ validIdentifier value = true := by
  rw [validateIdentifier, require_eq_ok, validIdentifier, Bool.and_eq_true, decide_eq_true_eq]

/-- A path is accepted when it has parts and each is an identifier. -/
theorem validateField_eq_ok : validateField field = .ok () ↔
    field ≠ [] ∧ ∀ segment ∈ field, validIdentifier segment = true := by
  have hsegments : validateSegments field = .ok () ↔
      ∀ segment ∈ field, validIdentifier segment = true := by
    induction field with
    | nil => simp [validateSegments]
    | cons segment rest ih =>
        simp only [validateSegments, bind_eq_ok, List.forall_mem_cons, ← ih,
          ← @validateIdentifier_eq_ok _ segment "field"]
        constructor
        · intro h
          obtain ⟨_, hsegment, hrest⟩ := h
          exact ⟨hsegment, hrest⟩
        · intro h
          exact ⟨(), h.1, h.2⟩
  simp only [validateField, bind_eq_ok, require_eq_ok, hsegments]
  exact exists_const _

end Validation

section Commands

variable [CharacterTables] {β : Type} [ExecutionBackend β] {steps : List (Query × Nat)}
  {run : Run β} {existingIndexes : List IndexDefinition} {config : AdvisorConfig}
  {recommendations : List IndexRecommendation} {recommendation : IndexRecommendation}
  {evaluation : Option ImpactEvaluation} {provider : Option ExplanationProvider}
  {limits : AssistantLimits} {explanation : AssistantExplanation}

omit [CharacterTables] in
theorem suggestedNovaql_eq (recommendation : IndexRecommendation) :
    suggestedNovaql recommendation = createIndexText (indexName recommendation)
      recommendation.collection recommendation.path := rfl

omit [CharacterTables] in
/-- The collection that an operation of a source names. -/
theorem isName_collection {g : Guard} {command : Command} {collection : String}
    (hsound : command.Sound g) (h : commandCollection command = some collection) :
    g.Name collection := by
  cases command with
  | insert _ _ => exact Option.some.inj h ▸ hsound.1
  | createIndex _ _ _ => exact Option.some.inj h ▸ hsound.1.2
  | get _ | update _ | delete _ => exact Option.some.inj h ▸ hsound
  | createCollection _ | dropCollection _ | dropIndex _ => cases h

/-- What is recommended was named in one of the queries. -/
theorem names_of_recommendation
    (hparsed : ∀ step ∈ steps, ∃ source, parse source = .ok step.1)
    (hrecommend : recommendIndexes (analyzeWorkload (observe steps (run, [])).2) existingIndexes
      config = .ok recommendations)
    (hmem : recommendation ∈ recommendations) :
    IsName recommendation.collection ∧ ∃ field, field ≠ [] ∧ (∀ segment ∈ field, IsName segment) ∧
      joinDots field = recommendation.path := by
  obtain ⟨candidate, hcandidate, hcollection, hpath⟩ := exists_candidate hrecommend hmem
  obtain ⟨event, hevent, hfound, hreported⟩ := exists_event hcandidate
  rw [hcollection] at hfound
  rw [hpath] at hreported
  rcases mem_observe hevent with hnone | ⟨step, hstep, plan, examined, result, rfl⟩
  · cases hnone
  · obtain ⟨source, hsource⟩ := hparsed step hstep
    obtain ⟨shallow, hsound⟩ := names_of_parse hsource
    exact ⟨isName_collection hsound.command hfound, names_of_candidate hsound hreported⟩

/-- What is suggested for a recommendation from recorded queries is parsed as a command that
creates an index on its collection and path, and the catalog accepts the names in it. -/
theorem suggestions_say_what_they_do
    (hparsed : ∀ step ∈ steps, ∃ source, parse source = .ok step.1)
    (hrecommend : recommendIndexes (analyzeWorkload (observe steps (run, [])).2) existingIndexes
      config = .ok recommendations)
    (hmem : recommendation ∈ recommendations)
    (hexplained : explainRecommendation recommendation evaluation provider limits =
      .ok explanation) :
    ∃ query name path, parse explanation.suggestedNovaql = .ok query ∧ query.explain = false ∧
      query.command = .createIndex name recommendation.collection [path] ∧
      joinDots path.segments = recommendation.path ∧
      validateIdentifier name "index" = .ok () ∧
      validateIdentifier recommendation.collection "collection" = .ok () ∧
      validateField path.segments = .ok () := by
  obtain ⟨⟨hcollection, hparts⟩, hsuggested⟩ := explained_eq_ok hexplained
  obtain ⟨hname, field, hne, hsegments, hjoin⟩ := names_of_recommendation hparsed hrecommend hmem
  obtain ⟨query, path, hparse, hexplain, hcommand, rfl⟩ :=
    parse_createIndexText (isName_indexName recommendation) hname hne hsegments
  have hsplit : splitDots recommendation.path = path.segments := by
    rw [← hjoin]
    exact splitDots_joinDots_of_named hne fun segment hsegment => (hsegments segment hsegment).1
  refine ⟨query, _, path, ?_, hexplain, hcommand, hjoin, ?_, ?_, ?_⟩
  · rw [hsuggested, suggestedNovaql_eq, ← hjoin]
    exact hparse
  · exact validateIdentifier_eq_ok.mpr (validIdentifier_indexName recommendation)
  · exact validateIdentifier_eq_ok.mpr hcollection
  · exact validateField_eq_ok.mpr ⟨hne, hsplit ▸ hparts⟩

end Commands

/-- A collection of one document, which has no fields. -/
def studentsRun : Run MemoryBackend where
  backend := ⟨SortedMap.empty.insert "students"
    (SortedMap.empty.insert (.filled 1) ⟨.filled 1, []⟩)⟩
  ids := fun _ => .ok (.filled 2)
  examined := 0

/-- One scan is enough for the least thresholds. -/
theorem suggestions_say_what_they_do_students : let _ := CharacterTables.ascii
    ∃ recorded recommendation explanation limits,
      parse "students.get\x7baddress.state==1\x7d" = .ok recorded ∧
      recommendIndexes (analyzeWorkload (observe [(recorded, 5)] (studentsRun, [])).2) []
        ⟨1, 1, 1, 10000⟩ = .ok [recommendation] ∧
      explainRecommendation recommendation none none limits = .ok explanation ∧
      ∃ query name path, parse explanation.suggestedNovaql = .ok query ∧
        query.command = .createIndex name "students" [path] ∧
        joinDots path.segments = "address.state" := by
  intro _
  have hentries : (parse "students.get\x7baddress.state==1\x7d").toOption.bind (fun recorded =>
      (recommendIndexes (analyzeWorkload (observe [(recorded, 5)] (studentsRun, [])).2) []
        ⟨1, 1, 1, 10000⟩).toOption.map fun recommendations => recommendations.map
          fun recommendation => (recommendation.collection, recommendation.path)) =
      some [("students", "address.state")] := by
    decide +kernel
  cases hparse : parse "students.get\x7baddress.state==1\x7d" with
  | error fault =>
      rw [hparse] at hentries
      cases hentries
  | ok recorded =>
      rw [hparse] at hentries
      cases hrecommend : recommendIndexes (analyzeWorkload (observe [(recorded, 5)]
          (studentsRun, [])).2) [] ⟨1, 1, 1, 10000⟩ with
      | error cause =>
          simp only [Except.toOption, Option.bind_some, hrecommend] at hentries
          cases hentries
      | ok recommendations =>
          simp only [Except.toOption, Option.bind_some, hrecommend, Option.map_some] at hentries
          obtain ⟨recommendation, rfl, hentry⟩ :=
            List.map_eq_singleton_iff.mp (Option.some.inj hentries)
          obtain ⟨hcollection, hpath⟩ := Prod.mk.inj hentry
          have hvalid : ValidSchema recommendation := by
            rw [ValidSchema, hcollection, hpath]
            decide
          obtain ⟨limits, explanation, hexplained⟩ := exists_explained hvalid
          obtain ⟨query, name, path, hquery, -, hcommand, hjoin, -⟩ :=
            suggestions_say_what_they_do (List.forall_mem_singleton.mpr ⟨_, hparse⟩) hrecommend
              (List.mem_singleton.mpr rfl) hexplained
          rw [hcollection] at hcommand
          rw [hpath] at hjoin
          exact ⟨recorded, recommendation, explanation, limits, rfl, hrecommend, hexplained,
            query, name, path, hquery, hcommand, hjoin⟩

end NovaBase.Executor
