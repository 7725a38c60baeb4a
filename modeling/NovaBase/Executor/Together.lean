import NovaBase.Executor.Suggestions
import NovaBase.Index.CatalogFiles
import NovaBase.Index.Maintenance

/-!
# Recommendations applied together

The name that is suggested for an index folds the collection and the path into
letters, digits and underscores. Suggestions for different paths can be applied one
after the other unless folding takes two of them for one.
-/

namespace NovaBase.Executor

open Lib NovaQl Index Intelligence

section Files

variable {path other name : String}

/-- Something is there already. -/
def AlreadyThere (cause : Failure) : Prop := ∃ message, cause = .error (.alreadyExists message)

theorem preserves_createNew (hne : path ≠ other) (cause : NovaError) (bytes : Bytes) :
    (Directory.createNew path cause bytes).Preserves fun directory =>
      directory.contains other = false := by
  intro directory h
  rw [Directory.createNew]
  split
  · exact h
  · rw [← Bool.not_eq_true] at h ⊢
    exact mt (Directory.contains_insert ..).mp (not_or.mpr ⟨hne, h⟩)

theorem preserves_overwrite (hne : path ≠ other) (bytes : Bytes) :
    (Directory.overwrite path bytes).Preserves fun directory =>
      directory.contains other = false := by
  intro directory h
  rw [Directory.overwrite]
  split
  · rw [← Bool.not_eq_true] at h ⊢
    exact mt (Directory.contains_insert ..).mp (not_or.mpr ⟨hne, h⟩)
  · exact h

theorem preserves_sync (hne : path ≠ other) (tree : BPlusTree) :
    (tree.sync path).Preserves fun directory => directory.contains other = false := by
  rw [BPlusTree.sync]
  split
  · refine Action.Preserves.bind (Action.Preserves.ofExcept _) fun bytes => ?_
    exact (preserves_overwrite hne bytes).bind fun _ => Action.Preserves.pure _
  · exact Action.Preserves.pure _

theorem preserves_createFile (hne : path ≠ other) :
    (BPlusTree.createFile path).Preserves fun directory => directory.contains other = false :=
  (Action.Preserves.ofExcept _).bind fun tree =>
    (preserves_createNew hne _ _).bind fun _ => preserves_sync hne tree

/-- Filling an index makes no file but its own two. -/
theorem preserves_fillIndex {definition : IndexDefinition}
    (htree : treePath definition.name ≠ other)
    (hmeta : metaPath definition.name ≠ other) (keys : List (Option IndexKey × NovaId))
    (tree : BPlusTree) : (IndexCatalog.fillIndex definition keys tree).Preserves fun directory =>
      directory.contains other = false := by
  refine (Action.Preserves.ofExcept _).bind fun filled => ?_
  refine (preserves_sync htree filled).bind fun _ => ?_
  refine Action.Preserves.bind ?_ fun _ => Action.Preserves.pure _
  exact (Action.Preserves.ofExcept _).bind fun bytes => preserves_createNew hmeta _ bytes

/-- An error of another kind. -/
def Another (cause : NovaError) : Prop := ∀ message, cause ≠ .alreadyExists message

theorem not_alreadyThere_lift {α : Type} {result : Result α} (h : FailsOnly Another result)
    {cause : Failure} (hcause : result.lift = .error cause) : ¬AlreadyThere cause := by
  cases result with
  | ok value => cases hcause
  | error found =>
      obtain rfl : Failure.error found = cause := Except.error.inj hcause
      rintro ⟨message, hmessage⟩
      exact h found rfl message (Failure.error.inj hmessage)

theorem failsOnly_writeText (value : String) : FailsOnly Another (writeText value) := by
  refine FailsOnly.bind (FailsOnly.bind ?_ fun _ _ => failsOnly_ok _) fun _ _ => failsOnly_ok _
  intro cause hcause message
  rw [failsOnly_require _ _ cause hcause]
  nofun

theorem failsOnly_writeTexts (values : List String) : FailsOnly Another (writeTexts values) := by
  induction values with
  | nil => exact failsOnly_ok _
  | cons value rest ih =>
      exact (failsOnly_writeText value).bind fun _ _ => ih.bind fun _ _ => failsOnly_ok _

theorem failsOnly_encodeDefinition (definition : IndexDefinition) :
    FailsOnly Another (encodeDefinition definition) := by
  have hcount : FailsOnly Another (writeU32 definition.field.length) := by
    refine FailsOnly.bind ?_ fun _ _ => failsOnly_ok _
    intro cause hcause message
    rw [failsOnly_require _ _ cause hcause]
    nofun
  exact (failsOnly_writeText _).bind fun _ _ => (failsOnly_writeText _).bind fun _ _ =>
    hcount.bind fun _ _ => (failsOnly_writeTexts _).bind fun _ _ => failsOnly_ok _

theorem not_alreadyThere_of_oversized {cause : Failure} (h : Oversized cause) :
    ¬AlreadyThere cause := by
  rintro ⟨message, rfl⟩
  cases h

/-- A tree is made in a file that was not there. -/
theorem ends_createFile {directory : Directory} (h : directory.contains path = false) :
    (BPlusTree.createFile path).Ends directory
      (fun tree next => tree.Stores ∅ ∧ next.contains path)
      (fun cause _ => ¬AlreadyThere cause) := by
  have hcreate : BPlusTree.create = .ok ⟨defaultMaxKeys, 0, [.leaf [] none], true⟩ := rfl
  have hstores := stores_createWithMaxKeys hcreate
  have hpath : (directory.insert path []).contains path :=
    (Directory.contains_insert ..).mpr (.inl rfl)
  have hrun : BPlusTree.createFile path directory =
      BPlusTree.sync path ⟨defaultMaxKeys, 0, [.leaf [] none], true⟩
        (directory.insert path []) := by
    refine (Action.bind_of_ok (by rw [hcreate]; rfl)).trans ?_
    exact Action.bind_of_ok (Directory.createNew_of_not_contains (by rw [h]; nofun))
  have hends := hstores.sync hpath
  rw [Action.Ends, ← hrun] at hends
  refine Action.Ends.weaken hends ?_ fun cause _ hcause => not_alreadyThere_of_oversized hcause.1
  rintro tree next ⟨⟨dirty, rfl⟩, hkept⟩
  exact ⟨hstores.setDirty dirty, hkept path hpath⟩

/-- Filling a new index fails for no reason that says the index is there. -/
theorem ends_fillIndex {definition : IndexDefinition} {tree : BPlusTree} {directory : Directory}
    (hstores : tree.Stores ∅) (hfile : directory.contains (treePath definition.name))
    (keys : List (Option IndexKey × NovaId)) :
    (IndexCatalog.fillIndex definition keys tree).Ends directory (fun _ _ => True)
      (fun cause _ => ¬AlreadyThere cause) := by
  obtain ⟨filled, hfilled, hcontents⟩ := hstores.backfill keys
  have hbackfill : (Action.ofExcept (backfill keys tree) :
      Action Failure Directory BPlusTree) directory = (.ok filled, directory) := by
    rw [hfilled]
    rfl
  rw [Action.Ends, show IndexCatalog.fillIndex definition keys tree directory = _ from
    Action.bind_of_ok hbackfill]
  refine Action.Ends.bind ((hcontents.sync hfile).weaken (fun _ _ _ => trivial)
    fun cause _ hcause => not_alreadyThere_of_oversized hcause.1) fun synced next _ => ?_
  refine Action.Ends.bind (Q := fun _ _ => True) ?_ fun _ _ _ => Action.Ends.pure trivial
  refine Action.Ends.bind (Q := fun _ _ => True) ?_ fun bytes written _ => ?_
  · cases hencode : (encodeDefinition definition).lift with
    | ok bytes => exact .inl ⟨bytes, next, rfl, trivial⟩
    | error cause =>
        exact .inr ⟨cause, next, rfl,
          not_alreadyThere_lift (failsOnly_encodeDefinition definition) hencode⟩
  · rw [Action.Ends, Directory.createNew]
    split
    · exact .inr ⟨_, _, rfl, by rintro ⟨message, hmessage⟩; cases hmessage⟩
    · exact .inl ⟨_, _, rfl, trivial⟩

end Files

section Creation

variable [CharacterTables] {catalog : IndexCatalog} {name other collection : String}
  {field : List String} {documents : List Document}

/-- Neither an index nor the file of a tree has the name. -/
structure Unused (name : String) (catalog : IndexCatalog) : Prop where
  index : catalog.indexes.contains name = false
  file : catalog.directory.contains (treePath name) = false

/-- Creating an index leaves other names unused. -/
theorem preserves_unused (hne : name ≠ other) :
    (IndexCatalog.createIndex name collection field documents).Preserves (Unused other) := by
  have htree : treePath name ≠ treePath other := fun h => hne (treePath_injective h)
  have hmeta : metaPath name ≠ treePath other := metaPath_ne_treePath name other
  have hfiles : ∀ {α : Type} {x : Action Failure Directory α},
      (x.Preserves fun directory => directory.contains (treePath other) = false) →
        (IndexCatalog.onDirectory x).Preserves (Unused other) := by
    intro α x hx catalog h
    exact ⟨h.index, hx _ h.file⟩
  refine (Action.Preserves.reads _).bind fun keys => ?_
  refine (hfiles (preserves_createFile htree)).bind fun tree => ?_
  intro catalog h
  have hkept := @preserves_fillIndex (treePath other) ⟨name, collection, field⟩ htree hmeta
    keys tree catalog.directory h.file
  rcases hfill : IndexCatalog.fillIndex ⟨name, collection, field⟩ keys tree catalog.directory with
    ⟨result, directory⟩
  rw [hfill] at hkept
  cases result with
  | ok filled =>
      simp only [hfill]
      refine ⟨?_, hkept⟩
      have hindex := h.index
      rw [SortedMap.contains, SortedMap.get_insert, if_neg hne]
      exact hindex
  | error cause =>
      simp only [hfill]
      refine ⟨h.index, ?_⟩
      rw [← Bool.not_eq_true, Directory.contains_remove, Directory.contains_remove]
      rintro ⟨-, -, hthere⟩
      exact Bool.false_ne_true (hkept.symm.trans hthere)

/-- Nor does the preparation of an index of an unused name. -/
theorem failsOnly_prepareIndex {definition : IndexDefinition}
    (h : catalog.indexes.contains definition.name = false) :
    FailsOnly Another (catalog.prepareIndex definition documents) := by
  have hinvalid : ∀ (value kind : String), FailsOnly Another (validateIdentifier value kind) := by
    intro value kind cause hcause message
    rw [failsOnly_require _ _ cause hcause]
    nofun
  have hsegments : ∀ segments, FailsOnly Another (validateSegments segments) := by
    intro segments
    induction segments with
    | nil => exact failsOnly_ok _
    | cons segment rest ih => exact (hinvalid _ _).bind fun _ _ => ih
  have hkey : ∀ document, FailsOnly Another (documentKey definition document) := by
    intro document
    unfold documentKey
    split
    · exact failsOnly_ok _
    · split
      · exact failsOnly_ok _
      · exact failsOnly_ok _
      · split
        · exact failsOnly_ok _
        · rintro _ ⟨⟩ message
          nofun
  have hkeys : FailsOnly Another (documentKeys definition documents) := by
    induction documents with
    | nil => exact failsOnly_ok _
    | cons document rest ih =>
        exact (hkey document).bind fun _ _ => ih.bind fun _ _ => failsOnly_ok _
  refine (hinvalid _ _).bind fun _ _ => (hinvalid _ _).bind fun _ _ => ?_
  refine FailsOnly.bind (FailsOnly.bind ?_ fun _ _ => hsegments _) fun _ _ => ?_
  · intro cause hcause message
    rw [failsOnly_require _ _ cause hcause]
    nofun
  · rw [require_of _ h, ok_bind]
    exact hkeys

/-- An index is created under an unused name or fails, but not for being there already. -/
theorem ends_createIndex (h : Unused name catalog) :
    (IndexCatalog.createIndex name collection field documents).Ends catalog (fun _ _ => True)
      (fun cause _ => ¬AlreadyThere cause) := by
  refine Action.Ends.bind (Q := fun _ next => catalog = next) ?_ ?_
  · cases hkeys : (catalog.prepareIndex ⟨name, collection, field⟩ documents).lift with
    | ok keys => exact .inl ⟨keys, catalog, Prod.ext hkeys rfl, rfl⟩
    | error cause =>
        exact .inr ⟨cause, catalog, Prod.ext hkeys rfl,
          not_alreadyThere_lift (failsOnly_prepareIndex h.index) hkeys⟩
  rintro keys _ rfl
  refine Action.Ends.bind ((ends_createFile h.file).zoom.weaken (fun _ _ h => h) ?_) ?_
  · rintro cause _ ⟨_, -, hcause⟩
    exact hcause
  · rintro tree _ ⟨made, rfl, hstores, hfile⟩
    rcases @ends_fillIndex ⟨name, collection, field⟩ _ _ hstores hfile keys with
      ⟨filled, directory, hrun, -⟩ | ⟨cause, directory, hrun, hcause⟩
    · refine .inl ⟨(), ⟨directory, catalog.indexes.insert name ⟨⟨name, collection, field⟩, filled⟩⟩,
        ?_, trivial⟩
      simp only [hrun]
    · refine .inr ⟨cause, { catalog with
        directory := (directory.remove (treePath name)).remove (metaPath name) }, ?_, hcause⟩
      simp only [hrun]

end Creation

section Execution

variable [CharacterTables] {query : Query} {name other collection : String} {fields : List Path}
  {run : Run (IndexedBackend MemoryBackend)}

/-- A database whose catalog does not use the name. -/
def UnusedIn (name : String) (run : Run (IndexedBackend MemoryBackend)) : Prop :=
  Unused name run.backend.indexes

theorem execute_eq (hexplain : query.explain = false)
    (hcommand : query.command = .createIndex name collection fields) :
    execute query run = executeCommand query
      (plan query (ExecutionBackend.indexDefinitions run.backend))
      (.createIndex name collection fields) { run with examined := 0 } := by
  rw [← hcommand]
  exact congrFun (if_neg (by rw [hexplain]; nofun)) _

/-- Creating an index uses no name but its own. -/
theorem preserves_unusedIn (hexplain : query.explain = false)
    (hcommand : query.command = .createIndex name collection fields) (hne : name ≠ other) :
    (execute query).Preserves (UnusedIn other) := by
  intro run hunused
  rw [execute_eq hexplain hcommand]
  rcases fields with _ | ⟨field, _ | ⟨second, rest⟩⟩
  · exact hunused
  · have hcreate : (ExecutionBackend.createIndex name collection field.segments :
        Action Failure (IndexedBackend MemoryBackend) Unit).Preserves
          fun backend => Unused other backend.indexes :=
      Action.Preserves.bind (fun _ h => h) fun documents backend h =>
        preserves_unused hne backend.indexes h
    exact Action.Preserves.bind (fun run hrun => hcreate run.backend hrun)
      (fun _ => Action.Preserves.pure _) _ hunused
  · exact hunused

omit [CharacterTables] in
theorem ends_scan (collection : String) (backend : MemoryBackend) :
    (MemoryBackend.scan collection).Ends backend (fun _ next => next = backend)
      (fun cause _ => ¬AlreadyThere cause) := by
  rw [Action.Ends, MemoryBackend.scan, Action.reads_apply]
  cases backend.collections.get collection with
  | none => exact .inr ⟨_, _, rfl, by rintro ⟨message, hmessage⟩; cases hmessage⟩
  | some documents => exact .inl ⟨_, _, rfl, rfl⟩

/-- Creating an index of an unused name does not fail because it exists. -/
theorem ends_execute (hexplain : query.explain = false)
    (hcommand : query.command = .createIndex name collection fields) (h : UnusedIn name run) :
    (execute query).Ends run (fun _ _ => True) (fun cause _ => ¬AlreadyThere cause) := by
  have hunsupported : ∀ {message : Message}, ¬AlreadyThere (.error (.unsupported message)) := by
    rintro message ⟨other, hother⟩
    cases hother
  rw [Action.Ends, execute_eq hexplain hcommand]
  rcases fields with _ | ⟨field, _ | ⟨second, rest⟩⟩
  · exact .inr ⟨_, _, rfl, hunsupported⟩
  · have hscan : (IndexedBackend.scan collection :
        Action Failure (IndexedBackend MemoryBackend) (List Document)).Ends run.backend
          (fun _ backend => backend = run.backend) (fun cause _ => ¬AlreadyThere cause) := by
      have hinner := @Action.Ends.zoom _ _ _ _ run.backend IndexedBackend.inner
        (fun backend inner => { backend with inner }) _ _ _ (ends_scan collection run.backend.inner)
      refine Action.Ends.weaken hinner ?_ ?_
      · rintro documents _ ⟨_, rfl, rfl⟩
        rfl
      · rintro cause _ ⟨_, -, hcause⟩
        exact hcause
    have hcreate : (ExecutionBackend.createIndex name collection field.segments :
        Action Failure (IndexedBackend MemoryBackend) Unit).Ends run.backend (fun _ _ => True)
          (fun cause _ => ¬AlreadyThere cause) := by
      refine Action.Ends.bind hscan ?_
      rintro documents _ rfl
      refine (ends_createIndex h).zoom.weaken (fun _ _ _ => trivial) ?_
      rintro cause _ ⟨_, -, hcause⟩
      exact hcause
    have hcall := @Action.Ends.zoom _ _ _ _ { run with examined := 0 } Run.backend
      (fun run backend => { run with backend }) _ _ _ hcreate
    refine Action.Ends.bind (hcall.weaken (fun _ _ _ => trivial) ?_) fun _ _ _ =>
      Action.Ends.pure trivial
    rintro cause _ ⟨_, -, hcause⟩
    exact hcause
  · exact .inr ⟨_, _, rfl, hunsupported⟩

end Execution

section Texts

variable [CharacterTables] {recommendations : List IndexRecommendation}
  {first second : IndexRecommendation}

/-- Execute the queries that texts hold, one after the other. A text that holds none is left
out. -/
def executeTexts {β : Type} [ExecutionBackend β] :
    List String → Run β → List (Except Failure ExecutionResult)
  | [], _ => []
  | text :: rest, run =>
      match parse text with
      | .error _ => executeTexts rest run
      | .ok query => (execute query run).1 :: executeTexts rest (execute query run).2

/-- Suggestions with different names do not get in one another's way. -/
theorem executeTexts_suggested {run : Run (IndexedBackend MemoryBackend)}
    (hnames : recommendations.Pairwise fun first second => indexName first ≠ indexName second)
    (hunused : ∀ recommendation ∈ recommendations, UnusedIn (indexName recommendation) run) :
    ∀ result ∈ executeTexts (recommendations.map suggestedNovaql) run,
      ∀ message, result ≠ .error (.error (.alreadyExists message)) := by
  induction recommendations generalizing run with
  | nil => exact List.forall_mem_nil _
  | cons recommendation rest ih =>
      obtain ⟨hothers, hnames⟩ := List.pairwise_cons.mp hnames
      obtain ⟨hname, hunused⟩ := List.forall_mem_cons.mp hunused
      rw [List.map_cons, executeTexts]
      cases hparse : parse (suggestedNovaql recommendation) with
      | error fault => exact ih hnames hunused
      | ok query =>
          obtain ⟨hexplain, collection, fields, hcommand⟩ :=
            command_of_createIndexText (isName_indexName recommendation) hparse
          refine List.forall_mem_cons.mpr ⟨fun message hresult => ?_,
            ih hnames fun other hother => ?_⟩
          · rcases ends_execute hexplain hcommand hname with ⟨result, next, hrun, -⟩ |
              ⟨cause, next, hrun, hcause⟩
            · rw [hrun] at hresult
              cases hresult
            · rw [hrun] at hresult
              exact hcause ⟨message, Except.error.inj hresult⟩
          · exact preserves_unusedIn hexplain hcommand (hothers other hother) run
              (hunused other hother)

end Texts

section Clashes

variable {first second : IndexRecommendation}

/-- Letters or digits that differ in their case at most, or two characters that are neither. -/
def Confusable (a b : Char) : Prop :=
  a.isAlphanum = b.isAlphanum ∧ (a.isAlphanum = true → a.toLower = b.toLower)

/-- The collection and the path, one behind the other. -/
def schemaText (recommendation : IndexRecommendation) : List Char :=
  recommendation.collection.toList ++ '_' :: recommendation.path.toList

/-- The texts of the two are confusable position by position. -/
def Clash (first second : IndexRecommendation) : Prop :=
  List.Forall₂ Confusable (schemaText first) (schemaText second)

theorem toLower_ne_underscore {c : Char} (h : c.isAlphanum = true) : c.toLower ≠ '_' := by
  intro hlower
  have hnumber : c.toLower.toNat = 95 := by
    rw [hlower]
    decide
  have hrange : c.isAlpha = true ∨ c.isDigit = true := by
    simpa [Char.isAlphanum] using h
  rw [isAlpha_iff, isDigit_iff] at hrange
  rw [toNat_toLower] at hnumber
  split at hnumber <;> omega

/-- Characters get one name when they are confusable. -/
theorem nameCharacter_eq_iff {a b : Char} : nameCharacter a = nameCharacter b ↔ Confusable a b := by
  unfold nameCharacter Confusable
  cases ha : a.isAlphanum with
  | true =>
      cases hb : b.isAlphanum with
      | true => simp
      | false => simp [toLower_ne_underscore ha]
  | false =>
      cases hb : b.isAlphanum with
      | true => simp [(toLower_ne_underscore hb).symm]
      | false => simp

/-- Two recommendations are given one name if they clash, and only then. -/
theorem indexName_eq_iff : indexName first = indexName second ↔ Clash first second := by
  have hfolded : indexName first = indexName second ↔
      (schemaText first).map nameCharacter = (schemaText second).map nameCharacter := by
    rw [indexName, indexName, String.append_right_inj, String.ofList_inj]
    rfl
  rw [hfolded, ← List.forall₂_eq_eq_eq, List.forall₂_map_left_iff,
    List.forall₂_map_right_iff, Clash]
  simp only [nameCharacter_eq_iff]

end Clashes

section Together

variable [CharacterTables] {recommendations : List IndexRecommendation}

/-- The collections or the paths of the two differ. -/
def Differ (first second : IndexRecommendation) : Prop :=
  first.collection ≠ second.collection ∨ first.path ≠ second.path

/-- A call of the assistant returns this explanation. -/
def Explains (recommendation : IndexRecommendation) (explanation : AssistantExplanation) : Prop :=
  ∃ evaluation provider limits,
    explainRecommendation recommendation evaluation provider limits = .ok explanation

/-- Different recommendations that are explained have different names, and on a database that uses
none of these names their suggestions can be executed one after the other. -/
structure AppliedTogether (recommendations : List IndexRecommendation) : Prop where
  names : ∀ first ∈ recommendations, ∀ second ∈ recommendations, Differ first second →
    ∀ explanation other, Explains first explanation → Explains second other →
      indexName first ≠ indexName second
  executed : ∀ explained : List (IndexRecommendation × AssistantExplanation),
    (∀ pair ∈ explained, pair.1 ∈ recommendations ∧ Explains pair.1 pair.2) →
    (explained.Pairwise fun pair other => Differ pair.1 other.1) →
    ∀ run : Run (IndexedBackend MemoryBackend),
      (∀ pair ∈ explained, UnusedIn (indexName pair.1) run) →
      ∀ result ∈ executeTexts (explained.map fun pair => pair.2.suggestedNovaql) run,
        ∀ message, result ≠ .error (.error (.alreadyExists message))

/-- No two different recommendations with valid schemas clash. -/
def Distinguished (recommendations : List IndexRecommendation) : Prop :=
  ∀ first ∈ recommendations, ∀ second ∈ recommendations, Differ first second →
    ValidSchema first → ValidSchema second → ¬Clash first second

/-- Recommendations that differ beyond confusable characters get two names. -/
theorem Distinguished.names (h : Distinguished recommendations) {first second : IndexRecommendation}
    (hfirst : first ∈ recommendations) (hsecond : second ∈ recommendations)
    (hdiffer : Differ first second) {explanation other : AssistantExplanation}
    (hexplains : Explains first explanation) (hother : Explains second other) :
    indexName first ≠ indexName second := by
  obtain ⟨_, _, _, hexplained⟩ := hexplains
  obtain ⟨_, _, _, hexplainedOther⟩ := hother
  have hclash := h first hfirst second hsecond hdiffer (explained_eq_ok hexplained).1
    (explained_eq_ok hexplainedOther).1
  exact mt indexName_eq_iff.mp hclash

theorem Distinguished.appliedTogether (h : Distinguished recommendations) :
    AppliedTogether recommendations where
  names first hfirst second hsecond hdiffer _ _ := h.names hfirst hsecond hdiffer
  executed explained hexplained hdiffer run hunused := by
    have htexts : explained.map (fun pair => pair.2.suggestedNovaql) =
        (explained.map Prod.fst).map suggestedNovaql := by
      rw [List.map_map]
      refine List.map_congr_left fun pair hpair => ?_
      obtain ⟨-, _, _, _, hcall⟩ := hexplained pair hpair
      exact (explained_eq_ok hcall).2
    rw [htexts]
    apply executeTexts_suggested
    · rw [List.pairwise_map]
      refine hdiffer.imp_of_mem fun {pair other} hpair hother hne => ?_
      obtain ⟨hmem, hexplains⟩ := hexplained pair hpair
      obtain ⟨hmemOther, hexplainsOther⟩ := hexplained other hother
      exact h.names hmem hmemOther hne hexplains hexplainsOther
    · rw [List.forall_mem_map]
      exact hunused

/-- What is recommended for a report can be applied together exactly where no two different
recommendations clash. -/
theorem applied_together_iff (report : WorkloadReport) (existingIndexes : List IndexDefinition)
    (config : AdvisorConfig) :
    (∀ recommendations, recommendIndexes report existingIndexes config = .ok recommendations →
      AppliedTogether recommendations) ↔
    ∀ recommendations, recommendIndexes report existingIndexes config = .ok recommendations →
      Distinguished recommendations := by
  refine forall₂_congr fun recommendations _ => ⟨fun h => ?_, Distinguished.appliedTogether⟩
  intro first hfirst second hsecond hdiffer hvalid hvalidSecond hclash
  obtain ⟨limits, explanation, hexplained⟩ := exists_explained hvalid
  obtain ⟨limitsSecond, other, hexplainedSecond⟩ := exists_explained hvalidSecond
  exact h.names first hfirst second hsecond hdiffer explanation other ⟨_, _, _, hexplained⟩
    ⟨_, _, _, hexplainedSecond⟩ (indexName_eq_iff.mpr hclash)

end Together

/-- A dot in a path and an underscore in a field fold to one name. -/
theorem dotted_path_clashes : let _ := CharacterTables.ascii
    ∃ recorded recommendations,
      parse "students.get\x7baddress.state==1 and address_state==1\x7d" = .ok recorded ∧
      recommendIndexes (analyzeWorkload (observe [(recorded, 5)] (studentsRun, [])).2) []
        ⟨1, 1, 1, 10000⟩ = .ok recommendations ∧
      ¬AppliedTogether recommendations := by
  intro _
  have hentries : (parse "students.get\x7baddress.state==1 and address_state==1\x7d").toOption.bind
      (fun recorded => (recommendIndexes (analyzeWorkload
        (observe [(recorded, 5)] (studentsRun, [])).2) [] ⟨1, 1, 1, 10000⟩).toOption.map
          fun recommendations => recommendations.map
            fun recommendation => (recommendation.collection, recommendation.path)) =
      some [("students", "address.state"), ("students", "address_state")] := by
    decide +kernel
  cases hparse : parse "students.get\x7baddress.state==1 and address_state==1\x7d" with
  | error fault =>
      rw [hparse] at hentries
      cases hentries
  | ok recorded =>
      rw [hparse] at hentries
      cases hrecommend : recommendIndexes (analyzeWorkload (observe [(recorded, 5)]
          (studentsRun, [])).2) [] ⟨1, 1, 1, 10000⟩ with
      | error cause =>
          simp only [Except.toOption, Option.bind_some, hrecommend] at hentries
          cases hentries
      | ok recommendations =>
          simp only [Except.toOption, Option.bind_some, hrecommend, Option.map_some] at hentries
          obtain ⟨first, rest, rfl, hfirst, hrest⟩ :=
            List.map_eq_cons_iff.mp (Option.some.inj hentries)
          obtain ⟨second, rfl, hsecond⟩ := List.map_eq_singleton_iff.mp hrest
          obtain ⟨hcollection, hpath⟩ := Prod.mk.inj hfirst
          obtain ⟨hcollectionSecond, hpathSecond⟩ := Prod.mk.inj hsecond
          have hnames : indexName first = indexName second := by
            rw [indexName, indexName, hcollection, hpath, hcollectionSecond, hpathSecond]
            decide +kernel
          have hdiffer : Differ first second := by
            rw [Differ, hpath, hpathSecond]
            exact .inr (by decide)
          have hvalid : ValidSchema first := by
            rw [ValidSchema, hcollection, hpath]
            decide
          have hvalidSecond : ValidSchema second := by
            rw [ValidSchema, hcollectionSecond, hpathSecond]
            decide
          obtain ⟨limits, explanation, hexplained⟩ := exists_explained hvalid
          obtain ⟨limitsSecond, other, hexplainedSecond⟩ := exists_explained hvalidSecond
          refine ⟨recorded, [first, second], rfl, hrecommend, fun h => ?_⟩
          exact h.names first (List.mem_cons_self ..) second
            (List.mem_cons_of_mem _ (List.mem_singleton.mpr rfl)) hdiffer explanation other
            ⟨_, _, _, hexplained⟩ ⟨_, _, _, hexplainedSecond⟩ hnames

end NovaBase.Executor
