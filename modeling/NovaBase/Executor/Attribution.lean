import NovaBase.Executor.Frame
import NovaBase.Executor.Indexable
import NovaBase.Executor.Trace
import NovaBase.Index.Reopen
import NovaBase.Intelligence.Lifecycle
import NovaBase.Intelligence.Totals

/-!
# Whose scans are counted

The entry of a path counts every successful query that reports the path, by the
access of its plan. That is what the query did for the path if the query was not
only explained and, where it used an index, reports no path but that of the index.
-/

namespace NovaBase.Executor

open Lib NovaQl Index Intelligence

section Labels

/-- Every index is found by its own name. -/
def Labelled (catalog : IndexCatalog) : Prop := ∀ label ∈ labels catalog, label.2.name = label.1

theorem mem_labels {catalog : IndexCatalog} {label : String × IndexDefinition} :
    label ∈ labels catalog ↔
      ∃ index, catalog.indexes.get label.1 = some index ∧ index.definition = label.2 := by
  simp only [labels, List.mem_map, Prod.exists, Prod.ext_iff, ← SortedMap.mem_entries]
  constructor
  · rintro ⟨name, index, hmem, rfl, hdefinition⟩
    exact ⟨index, hmem, hdefinition⟩
  · rintro ⟨index, hmem, hdefinition⟩
    exact ⟨_, index, hmem, rfl, hdefinition⟩

/-- Every index is stored under its own name. -/
theorem labelled_iff {catalog : IndexCatalog} : Labelled catalog ↔
    ∀ {name index}, catalog.indexes.get name = some index → index.definition.name = name := by
  constructor
  · intro h name index hindex
    exact h (name, index.definition) (mem_labels.mpr ⟨index, hindex, rfl⟩)
  · rintro h ⟨name, definition⟩ hlabel
    obtain ⟨index, hindex, rfl⟩ := mem_labels.mp hlabel
    exact h hindex

theorem labelled_remove {catalog : IndexCatalog} (h : Labelled catalog) (name : String) :
    Labelled { catalog with indexes := catalog.indexes.remove name } := by
  rw [labelled_iff] at h ⊢
  intro other index hindex
  rw [SortedMap.get_remove] at hindex
  split at hindex
  · cases hindex
  · exact h hindex

theorem labelled_insert {catalog : IndexCatalog} (h : Labelled catalog) (directory : Directory)
    (index : OpenIndex) :
    Labelled ⟨directory, catalog.indexes.insert index.definition.name index⟩ := by
  rw [labelled_iff] at h ⊢
  intro other found hfound
  rcases SortedMap.get_insert_eq_some.mp hfound with ⟨rfl, rfl⟩ | ⟨-, hfound⟩
  · rfl
  · exact h hfound

theorem preserves_onDirectory {α : Type} (x : Action Failure Directory α) :
    (IndexCatalog.onDirectory x).Preserves Labelled := fun _ h => h

theorem preserves_dropIndex (name : String) :
    (IndexCatalog.dropIndex name).Preserves Labelled := by
  refine Action.Preserves.bind (Action.Preserves.reads _) fun _ => ?_
  refine Action.Preserves.bind (preserves_onDirectory _) fun _ => ?_
  refine Action.Preserves.bind (preserves_onDirectory _) fun _ => ?_
  exact fun catalog h => labelled_remove h name

theorem preserves_dropCollectionIndexes (collection : String) :
    (IndexCatalog.dropCollectionIndexes collection).Preserves Labelled :=
  fun catalog h => Action.Preserves.forM preserves_dropIndex _ catalog h

/-- A new index is stored under the name of its definition. -/
theorem preserves_createIndex [CharacterTables] (name collection : String) (field : List String)
    (documents : List Document) :
    (IndexCatalog.createIndex name collection field documents).Preserves Labelled := by
  refine Action.Preserves.bind (Action.Preserves.reads _) fun keys => ?_
  refine Action.Preserves.bind (preserves_onDirectory _) fun tree => ?_
  intro catalog h
  rcases hfill : IndexCatalog.fillIndex ⟨name, collection, field⟩ keys tree catalog.directory with
    ⟨result, directory⟩
  cases result with
  | ok tree =>
      simp only [hfill]
      exact labelled_insert h directory ⟨⟨name, collection, field⟩, tree⟩
  | error cause =>
      simp only [hfill]
      exact h

/-- A catalog that has been opened finds its indexes by their names. -/
theorem labelled_openDirectory [CharacterTables] {directory : Directory} {catalog : IndexCatalog}
    (h : IndexCatalog.openDirectory directory = .ok catalog) : Labelled catalog := by
  have hopened : ∀ paths (indexes opened : SortedMap String OpenIndex),
      IndexCatalog.openIndexes directory paths indexes = .ok opened →
      Labelled ⟨directory, indexes⟩ → Labelled ⟨directory, opened⟩ := by
    intro paths
    induction paths with
    | nil =>
        rintro indexes _ ⟨⟩ hindexes
        exact hindexes
    | cons path rest ih =>
        intro indexes opened hopen hindexes
        obtain ⟨extended, hextended, hrest⟩ := bind_eq_ok.mp hopen
        apply ih extended opened hrest
        obtain ⟨definition, -, hextended⟩ := bind_eq_ok.mp hextended
        obtain ⟨_, -, hextended⟩ := bind_eq_ok.mp hextended
        obtain ⟨_, -, hextended⟩ := bind_eq_ok.mp hextended
        obtain ⟨_, -, hextended⟩ := bind_eq_ok.mp hextended
        obtain ⟨tree, -, hextended⟩ := bind_eq_ok.mp hextended
        obtain ⟨_, -, hextended⟩ := bind_eq_ok.mp hextended
        cases hextended
        exact labelled_insert hindexes directory ⟨definition, tree⟩
  obtain ⟨indexes, hindexes, hcatalog⟩ := bind_eq_ok.mp h
  cases hcatalog
  exact hopened _ _ _ hindexes nofun

end Labels

section Runs

/-- The indexes of the backend of a run are found by their names. -/
def LabelledRun (run : Run (IndexedBackend MemoryBackend)) : Prop := Labelled run.backend.indexes

theorem preserves_onIndexes {α : Type} {change : Action Failure IndexCatalog α}
    (h : change.Preserves Labelled) :
    (IndexedBackend.onIndexes change : Action Failure (IndexedBackend MemoryBackend) α).Preserves
      fun backend => Labelled backend.indexes :=
  fun backend hbackend => h backend.indexes hbackend

theorem preserves_onInner {α : Type} (call : Action Failure MemoryBackend α) :
    (IndexedBackend.onInner call).Preserves fun backend => Labelled backend.indexes :=
  fun _ h => h

/-- A schema command makes one call. -/
theorem preserves_call {α : Type} {call : Action Failure (IndexedBackend MemoryBackend) α}
    {result : α → ExecutionResult} (h : call.Preserves fun backend => Labelled backend.indexes) :
    (do let value ← Run.onBackend call; return result value).Preserves LabelledRun :=
  Action.Preserves.bind (fun run hrun => h run.backend hrun) fun _ => Action.Preserves.pure _

variable [CharacterTables]

/-- Writes of documents change no definition. -/
theorem writesKeep_labels :
    WritesKeep fun backend : IndexedBackend MemoryBackend => labels backend.indexes :=
  IndexedBackend.writesKeep (fun _ _ => rfl) fun h backend => h backend.indexes

theorem preserves_of_keeps_labels {query : Query}
    (h : (execute query).Keeps fun run : Run (IndexedBackend MemoryBackend) =>
      labels run.backend.indexes) : (execute query).Preserves LabelledRun := by
  intro run hrun
  have hlabels : labels (execute query run).2.backend.indexes = labels run.backend.indexes := h run
  rw [LabelledRun, Labelled, hlabels]
  exact hrun

/-- A query that is not explained runs its command. -/
theorem preserves_executed {query : Query}
    (h : ∀ plan, (executeCommand query plan query.command).Preserves LabelledRun) :
    (execute query).Preserves LabelledRun := by
  intro run hrun
  rw [execute, executePlanned]
  split
  · exact hrun
  · exact h _ _ hrun

/-- No statement stores an index under another name. -/
theorem preserves_execute (query : Query) : (execute query).Preserves LabelledRun := by
  cases hcommand : query.command with
  | get collection =>
      exact preserves_of_keeps_labels (writesKeep_labels.execute_get hcommand)
  | insert collection document =>
      exact preserves_of_keeps_labels (writesKeep_labels.execute_insert hcommand)
  | update collection =>
      exact preserves_of_keeps_labels (writesKeep_labels.execute_update hcommand)
  | delete collection =>
      exact preserves_of_keeps_labels (writesKeep_labels.execute_delete hcommand)
  | createCollection name =>
      apply preserves_executed
      intro plan
      rw [hcommand]
      exact preserves_call (preserves_onInner _)
  | dropCollection name =>
      apply preserves_executed
      intro plan
      rw [hcommand]
      apply preserves_call
      exact Action.Preserves.bind (preserves_onInner _) fun _ =>
        preserves_onIndexes (preserves_dropCollectionIndexes name)
  | createIndex name collection fields =>
      apply preserves_executed
      intro plan
      rw [hcommand]
      rcases fields with _ | ⟨field, _ | ⟨second, rest⟩⟩
      · exact Action.Preserves.ofExcept _
      · apply preserves_call
        exact Action.Preserves.bind (preserves_onInner _) fun documents =>
          preserves_onIndexes (preserves_createIndex name collection field.segments documents)
      · exact Action.Preserves.ofExcept _
  | dropIndex name =>
      apply preserves_executed
      intro plan
      rw [hcommand]
      exact preserves_call (preserves_onIndexes (preserves_dropIndex name))

end Runs

section Executions

variable [CharacterTables]

/-- A query that is executed, and the run before it. -/
structure Execution where
  run : Run (IndexedBackend MemoryBackend)
  query : Query

namespace Execution

variable (collection path : String) (execution : Execution)

/-- The query gives a result. -/
def succeeded : Bool := (execute execution.query execution.run).1.toOption.isSome

/-- The plan that the query gets in its store. -/
def plan : QueryPlan :=
  Executor.plan execution.query (ExecutionBackend.indexDefinitions execution.run.backend)

/-- The reads that the execution makes of its backend. -/
def reads : List Read := (execute execution.query execution.run.traced).2.reads

/-- The path of an index. -/
def indexPath (index : String) : Option String :=
  (execution.run.backend.indexes.indexes.get index).map fun index => joinDots index.definition.field

/-- The path is an index candidate of the query. -/
def Proposes : Prop :=
  commandCollection execution.query.command = some collection ∧
    path ∈ indexCandidatePaths execution.query.stages

instance : Decidable (execution.Proposes collection path) :=
  inferInstanceAs (Decidable (_ ∧ _))

/-- Documents of the collection are read through an index on the path. -/
def readsThrough : Bool :=
  execution.reads.any fun
    | .scanIndex scanned index _ => scanned = collection && execution.indexPath index = some path
    | .scan _ => false

/-- The collection is scanned. -/
def scans : Bool := decide (.scan collection ∈ execution.reads)

/-- A success that has the path as a candidate and reads through an index on it. -/
def usesIndex : Bool :=
  execution.succeeded && decide (execution.Proposes collection path) &&
    execution.readsThrough collection path

/-- A success that has the path as a candidate and scans the collection. -/
def usesScan : Bool :=
  execution.succeeded && decide (execution.Proposes collection path) && execution.scans collection

end Execution

/-- A store, and the telemetry of the queries that it has run. -/
abbrev Recording := Run (IndexedBackend MemoryBackend) × List TelemetryEvent

/-- Run queries one after the other, each in the given time. -/
def record (steps : List (Query × Nat)) (state : Recording) : Recording :=
  steps.foldl (fun state step => (executeWithTelemetry step.1 step.2 state).2) state

/-- The executions of these queries. -/
def history : List (Query × Nat) → Recording → List Execution
  | [], _ => []
  | step :: rest, state =>
      ⟨state.1, step.1⟩ :: history rest (executeWithTelemetry step.1 step.2 state).2

namespace Execution

variable (execution : Execution)

/-- The event that the execution leaves, unless it panics. -/
def events (elapsedMicros : Nat) : List TelemetryEvent :=
  match execute execution.query execution.run with
  | (.error .panic, _) => []
  | (result, run) =>
      [buildEvent execution.query execution.plan run.examined result elapsedMicros]

/-- The plan of the execution goes through an index. -/
def plansIndex : Bool :=
  match execution.plan.access with
  | .indexScan _ _ _ => true
  | _ => false

/-- The plan reads the collection from end to end. -/
def plansScan : Bool :=
  match execution.plan.access with
  | .collectionScan _ => true
  | _ => false

/-- What is recorded of an execution is computed from its state before and after. -/
theorem executeWithTelemetry_eq (elapsedMicros : Nat) (events : List TelemetryEvent) :
    (executeWithTelemetry execution.query elapsedMicros (execution.run, events)).2 =
      ((execute execution.query execution.run).2, events ++ execution.events elapsedMicros) := by
  rcases hrun : execute execution.query execution.run with ⟨result, last⟩
  have hplanned : executePlanned execution.query execution.plan
      { execution.run with examined := 0 } = (result, last) := hrun
  rw [executeWithTelemetry, Execution.events, hrun]
  simp only [Execution.plan] at hplanned
  simp only [hplanned]
  rcases result with (_ | _) | result
  · rfl
  · exact congrArg (Prod.mk last) (List.append_nil events).symm
  · rfl

/-- What is counted of an execution is whether it succeeds and its event is of a kind. -/
theorem countP_events {f : TelemetryEvent → Bool} {counted : Bool} (elapsedMicros : Nat)
    (h : ∀ examined result, f (buildEvent execution.query execution.plan examined result
      elapsedMicros) = (result.toOption.isSome && counted)) :
    (execution.events elapsedMicros).countP f =
      if execution.succeeded && counted then 1 else 0 := by
  rcases hrun : execute execution.query execution.run with ⟨result, last⟩
  rw [Execution.events, Execution.succeeded, hrun]
  rcases result with (_ | _) | result
  · exact (List.countP_singleton ..).trans (by rw [h])
  · rfl
  · exact (List.countP_singleton ..).trans (by rw [h])

end Execution

/-- The executions of a history are counted one by one. -/
theorem countP_record {f : TelemetryEvent → Bool} {g : Execution → Bool}
    (h : ∀ (execution : Execution) elapsedMicros,
      (execution.events elapsedMicros).countP f = if g execution then 1 else 0)
    (steps : List (Query × Nat)) (state : Recording) :
    (record steps state).2.countP f = state.2.countP f + (history steps state).countP g := by
  induction steps generalizing state with
  | nil => rfl
  | cons step rest ih =>
      have hstep := Execution.executeWithTelemetry_eq ⟨state.1, step.1⟩ step.2 state.2
      have hevents : (executeWithTelemetry step.1 step.2 state).2.2 =
          state.2 ++ Execution.events ⟨state.1, step.1⟩ step.2 := congrArg Prod.snd hstep
      have hrecord : record (step :: rest) state =
          record rest (executeWithTelemetry step.1 step.2 state).2 := rfl
      rw [hrecord, ih, hevents, List.countP_append, h, history, List.countP_cons]
      omega

theorem length_history (steps : List (Query × Nat)) (state : Recording) :
    (history steps state).length = steps.length := by
  induction steps generalizing state with
  | nil => rfl
  | cons step rest ih => rw [history, List.length_cons, List.length_cons, ih]

/-- Every execution of a history is of one of the queries, with indexes that are found by their
names. -/
theorem mem_history {steps : List (Query × Nat)} {state : Recording} {execution : Execution}
    (hlabelled : LabelledRun state.1) (h : execution ∈ history steps state) :
    LabelledRun execution.run ∧ ∃ step ∈ steps, step.1 = execution.query := by
  induction steps generalizing state with
  | nil => cases h
  | cons step rest ih =>
      rcases List.mem_cons.mp h with rfl | hrest
      · exact ⟨hlabelled, step, List.mem_cons_self .., rfl⟩
      · have hstep := Execution.executeWithTelemetry_eq ⟨state.1, step.1⟩ step.2 state.2
        have hnext : LabelledRun (executeWithTelemetry step.1 step.2 state).2.1 :=
          congrArg Prod.fst hstep ▸ preserves_execute step.1 state.1 hlabelled
        obtain ⟨hrun, later, hlater, hquery⟩ := ih hnext hrest
        exact ⟨hrun, later, List.mem_cons_of_mem _ hlater, hquery⟩

section Entries

variable (collection path : String) (execution : Execution)

/-- A success of a plan through an index that has the path as a candidate. -/
def Execution.countsIndex : Bool :=
  execution.succeeded && (execution.plansIndex && decide (execution.Proposes collection path))

/-- The event of the execution adds a collection scan to the entry of a path. -/
def Execution.countsScan : Bool :=
  execution.succeeded && (execution.plansScan && decide (execution.Proposes collection path))

/-- The event of an execution counts as an index scan of a candidate when the execution does. -/
theorem countP_countsIndexScan (elapsedMicros : Nat) :
    (execution.events elapsedMicros).countP (TelemetryEvent.countsIndexScan collection path) =
      if execution.countsIndex collection path then 1 else 0 := by
  apply execution.countP_events
  intro examined result
  have hscan : (buildEvent execution.query execution.plan examined result
      elapsedMicros).isIndexScan = execution.plansIndex := by
    rw [TelemetryEvent.isIndexScan, buildEvent, Execution.plansIndex]
    cases execution.plan.access <;> rfl
  rw [TelemetryEvent.countsIndexScan, hscan, Bool.and_assoc]
  rfl

/-- The same for collection scans. -/
theorem countP_countsCollectionScan (elapsedMicros : Nat) :
    (execution.events elapsedMicros).countP (TelemetryEvent.countsCollectionScan collection path) =
      if execution.countsScan collection path then 1 else 0 := by
  apply execution.countP_events
  intro examined result
  have hscan : (buildEvent execution.query execution.plan examined result
      elapsedMicros).isCollectionScan = execution.plansScan := by
    rw [TelemetryEvent.isCollectionScan, buildEvent, Execution.plansScan]
    cases execution.plan.access <;> rfl
  rw [TelemetryEvent.countsCollectionScan, hscan, Bool.and_assoc]
  rfl

end Entries

namespace Execution

variable {execution : Execution} {collection path : String}

omit [CharacterTables] in
/-- Only commands that select documents have candidates. -/
theorem selected_of_path (hquery : execution.query.WellFormed)
    (hpath : path ∈ indexCandidatePaths execution.query.stages) :
    ∃ collection, commandCollection execution.query.command = some collection ∧
      selectedCollection execution.query.command = some collection := by
  have hstages : execution.query.stages ≠ [] := by
    intro hnil
    rw [hnil] at hpath
    cases hpath
  have hpipeline := hquery.pipeline hstages
  cases hcommand : execution.query.command with
  | get collection | update collection | delete collection => exact ⟨collection, rfl, rfl⟩
  | _ =>
      rw [hcommand] at hpipeline
      cases hpipeline

omit [CharacterTables] in
/-- A query that proposes a candidate reads the collection of it. -/
theorem selected_of_proposes (hquery : execution.query.WellFormed)
    (h : execution.Proposes collection path) :
    selectedCollection execution.query.command = some collection := by
  obtain ⟨found, hcollection, hselected⟩ := selected_of_path hquery h.2
  rwa [hcollection.symm.trans h.1] at hselected

/-- A success has made the read of its plan, unless the query is only explained. -/
theorem reads_of_succeeded (hquery : execution.query.WellFormed) (h : execution.succeeded = true)
    (hproposes : execution.Proposes collection path) :
    execution.reads = if execution.query.explain = true then []
      else accessReads collection execution.plan.access := by
  have hresult := (projects_execute execution.query execution.run.traced).1
  have hplain : (execute execution.query execution.run).1.toOption.isSome = true := h
  rcases htraced : execute execution.query execution.run.traced with ⟨result, last⟩
  rw [htraced] at hresult
  cases result with
  | error cause =>
      have herror : (execute execution.query execution.run).1 = .error cause := hresult.symm
      rw [herror] at hplain
      cases hplain
  | ok result =>
      have hreads := reads_execute htraced
      rw [commandReads, selected_of_proposes hquery hproposes] at hreads
      rw [Execution.reads, htraced]
      exact hreads

/-- An index that is planned is on one of the candidate paths of the query. -/
theorem indexPath_of_plan (hquery : execution.query.WellFormed)
    (hlabelled : LabelledRun execution.run) {scanned index : String} {key : IndexKey}
    (haccess : execution.plan.access = .indexScan scanned index key) :
    ∃ path ∈ indexCandidatePaths execution.query.stages, execution.indexPath index = some path := by
  obtain ⟨definition, hdefinition, rfl, hpath⟩ := exists_of_plan_indexScan hquery haccess
  have hmem : definition ∈ execution.run.backend.indexes.definitions := hdefinition
  rw [← map_labels] at hmem
  obtain ⟨⟨name, labelled⟩, hlabel, rfl⟩ := List.mem_map.mp hmem
  obtain ⟨found, hfound, hsame⟩ := mem_labels.mp hlabel
  have hname : labelled.name = name := hlabelled _ hlabel
  refine ⟨_, hpath, ?_⟩
  rw [Execution.indexPath, hname, hfound, Option.map_some, hsame]

/-- A scan that is counted for a path has been made for it: the query is not only explained, and
where it goes through an index it has no other candidate. -/
def Attributable (execution : Execution) : Prop :=
  indexCandidatePaths execution.query.stages = [] ∨
    execution.query.explain = false ∧
      (execution.plansIndex = true → (indexCandidatePaths execution.query.stages).length = 1)

instance (execution : Execution) : Decidable execution.Attributable :=
  inferInstanceAs (Decidable (_ ∨ _))

/-- What is used is counted. -/
theorem counts_of_uses (hquery : execution.query.WellFormed) :
    (execution.usesIndex collection path = true → execution.countsIndex collection path = true) ∧
      (execution.usesScan collection path = true →
        execution.countsScan collection path = true) := by
  constructor
  · intro h
    simp only [usesIndex, Bool.and_eq_true, decide_eq_true_eq] at h
    obtain ⟨⟨hsucceeded, hproposes⟩, hreads⟩ := h
    rw [readsThrough, reads_of_succeeded hquery hsucceeded hproposes] at hreads
    simp only [countsIndex, Bool.and_eq_true, decide_eq_true_eq]
    refine ⟨hsucceeded, ?_, hproposes⟩
    rw [plansIndex]
    split at hreads
    · cases hreads
    · cases haccess : execution.plan.access with
      | indexScan _ _ _ => rfl
      | _ =>
          rw [haccess] at hreads
          simp [accessReads] at hreads
  · intro h
    simp only [usesScan, Bool.and_eq_true, decide_eq_true_eq] at h
    obtain ⟨⟨hsucceeded, hproposes⟩, hreads⟩ := h
    rw [scans, reads_of_succeeded hquery hsucceeded hproposes] at hreads
    simp only [countsScan, Bool.and_eq_true, decide_eq_true_eq]
    refine ⟨hsucceeded, ?_, hproposes⟩
    rw [plansScan]
    split at hreads
    · cases hreads
    · cases haccess : execution.plan.access with
      | collectionScan _ => rfl
      | _ =>
          rw [haccess] at hreads
          simp [accessReads] at hreads

/-- Attributable executions are counted for no path that they do not use. -/
theorem uses_of_counts (hquery : execution.query.WellFormed) (hlabelled : LabelledRun execution.run)
    (h : execution.Attributable) :
    (execution.countsIndex collection path = true → execution.usesIndex collection path = true) ∧
      (execution.countsScan collection path = true →
        execution.usesScan collection path = true) := by
  have hreads : execution.succeeded = true → execution.Proposes collection path →
      execution.reads = accessReads collection execution.plan.access ∧
        (execution.plansIndex = true →
          (indexCandidatePaths execution.query.stages).length = 1) := by
    intro hsucceeded hproposes
    rcases h with hnil | ⟨hexplain, hlength⟩
    · exact absurd hproposes.2 (hnil ▸ List.not_mem_nil)
    · have hmade := reads_of_succeeded hquery hsucceeded hproposes
      rw [hexplain, if_neg Bool.false_ne_true] at hmade
      exact ⟨hmade, hlength⟩
  constructor
  · intro hcounts
    simp only [countsIndex, Bool.and_eq_true, decide_eq_true_eq] at hcounts
    obtain ⟨hsucceeded, hplans, hproposes⟩ := hcounts
    obtain ⟨hmade, hlength⟩ := hreads hsucceeded hproposes
    cases haccess : execution.plan.access with
    | indexScan scanned index key =>
        obtain ⟨used, hused, hindex⟩ := indexPath_of_plan hquery hlabelled haccess
        obtain ⟨only, honly⟩ := List.length_eq_one_iff.mp (hlength hplans)
        have hpath := hproposes.2
        rw [honly, List.mem_singleton] at hused hpath
        rw [hused, ← hpath] at hindex
        simp [usesIndex, readsThrough, hmade, haccess, accessReads, hsucceeded, hproposes, hindex]
    | _ => simp [plansIndex, haccess] at hplans
  · intro hcounts
    simp only [countsScan, Bool.and_eq_true, decide_eq_true_eq] at hcounts
    obtain ⟨hsucceeded, hplans, hproposes⟩ := hcounts
    obtain ⟨hmade, -⟩ := hreads hsucceeded hproposes
    cases haccess : execution.plan.access with
    | collectionScan scanned =>
        simp [usesScan, scans, hmade, haccess, accessReads, hsucceeded, hproposes]
    | _ => simp [plansScan, haccess] at hplans

/-- An execution that is counted only for paths that it uses is attributable. -/
theorem attributable_of_uses (hquery : execution.query.WellFormed)
    (hsucceeded : execution.succeeded = true)
    (h : ∀ collection path, execution.Proposes collection path →
      (execution.countsIndex collection path = true → execution.usesIndex collection path = true) ∧
      (execution.countsScan collection path = true → execution.usesScan collection path = true)) :
    execution.Attributable := by
  by_cases hnil : indexCandidatePaths execution.query.stages = []
  · exact .inl hnil
  obtain ⟨first, rest, hcons⟩ := List.exists_cons_of_ne_nil hnil
  have hfirst : first ∈ indexCandidatePaths execution.query.stages := hcons ▸ List.mem_cons_self ..
  obtain ⟨collection, hcollection, hselected⟩ := selected_of_path hquery hfirst
  have hproposes : ∀ path ∈ indexCandidatePaths execution.query.stages,
      execution.Proposes collection path := fun path hpath => ⟨hcollection, hpath⟩
  refine .inr ⟨?_, fun hplans => ?_⟩
  · -- what is only explained reads nothing, but its plan is counted
    rw [Bool.eq_false_iff]
    intro hexplain
    have hmade := reads_of_succeeded hquery hsucceeded (hproposes first hfirst)
    rw [if_pos hexplain] at hmade
    have haccess : execution.plansIndex = true ∨ execution.plansScan = true := by
      rw [plansIndex, plansScan, Execution.plan, plan_access hselected]
      cases findIndexScan collection execution.query.stages
        (ExecutionBackend.indexDefinitions execution.run.backend) with
      | none => exact .inr rfl
      | some found => exact .inl rfl
    rcases haccess with hplans | hplans
    · have huses := (h collection first (hproposes first hfirst)).1
        (by simp [countsIndex, hsucceeded, hplans, hproposes first hfirst])
      simp [usesIndex, readsThrough, hmade] at huses
    · have huses := (h collection first (hproposes first hfirst)).2
        (by simp [countsScan, hsucceeded, hplans, hproposes first hfirst])
      simp [usesScan, scans, hmade] at huses
  · -- every candidate is the path of the one index that is read through
    obtain ⟨scanned, index, key, haccess⟩ : ∃ scanned index key,
        execution.plan.access = .indexScan scanned index key := by
      rw [plansIndex] at hplans
      split at hplans
      · exact ⟨_, _, _, ‹_›⟩
      · cases hplans
    have hindex : ∀ path ∈ indexCandidatePaths execution.query.stages,
        execution.indexPath index = some path := by
      intro path hpath
      have huses := (h collection path (hproposes path hpath)).1
        (by simp [countsIndex, hsucceeded, hplans, hproposes path hpath])
      rw [usesIndex, Bool.and_eq_true, readsThrough,
        reads_of_succeeded hquery hsucceeded (hproposes path hpath)] at huses
      have hthrough := huses.2
      split at hthrough
      · cases hthrough
      · simpa [haccess, accessReads] using hthrough
    have hpaths : ∀ path ∈ indexCandidatePaths execution.query.stages, path = first :=
      fun path hpath => Option.some.inj ((hindex path hpath).symm.trans (hindex first hfirst))
    have hnodup : (indexCandidatePaths execution.query.stages).Nodup := SortedMap.nodup_keys _
    rw [hcons] at hpaths hnodup ⊢
    cases rest with
    | nil => rfl
    | cons second rest =>
        have hsecond : second = first := hpaths second (by simp)
        simp [hsecond] at hnodup

end Execution

end Executions

section Attribution

theorem countP_eq_iff {α : Type} {p q : α → Bool} {list : List α}
    (h : ∀ a ∈ list, p a = true → q a = true) :
    list.countP q = list.countP p ↔ ∀ a ∈ list, q a = true → p a = true := by
  induction list with
  | nil => simp
  | cons a rest ih =>
      obtain ⟨ha, hrest⟩ := List.forall_mem_cons.mp h
      have hle : rest.countP p ≤ rest.countP q := List.countP_mono_left hrest
      rw [List.forall_mem_cons, ← ih hrest, List.countP_cons, List.countP_cons]
      cases hp : p a with
      | true => simp [ha hp]
      | false =>
          cases hq : q a with
          | true =>
              simp
              omega
          | false => simp

variable [CharacterTables] {steps : List (Query × Nat)}
  {run : Run (IndexedBackend MemoryBackend)}

/-- The entries of a report and the executions that have used what they count. -/
def Attributed (history : List Execution) (report : WorkloadReport) : Prop :=
  ∀ stats ∈ report.indexCandidates,
    stats.indexScans = history.countP (Execution.usesIndex stats.collection stats.path) ∧
    stats.collectionScans = history.countP (Execution.usesScan stats.collection stats.path)

/-- The entry of a candidate counts the executions of the history, one by one. -/
theorem scans_counted (hlength : steps.length ≤ u64Max) {stats : IndexCandidateStats}
    (h : stats ∈ (analyzeWorkload (record steps (run, [])).2).indexCandidates) :
    stats.indexScans =
      (history steps (run, [])).countP (Execution.countsIndex stats.collection stats.path) ∧
    stats.collectionScans =
      (history steps (run, [])).countP (Execution.countsScan stats.collection stats.path) := by
  have hcounts := counts_of_mem_indexCandidates h
  have hle (counted : Execution → Bool) : (history steps (run, [])).countP counted ≤ u64Max :=
    calc
      (history steps (run, [])).countP counted ≤ (history steps (run, [])).length :=
        List.countP_le_length
      _ = steps.length := length_history steps _
      _ ≤ u64Max := hlength
  rw [hcounts.indexScans, hcounts.collectionScans,
    countP_record (countP_countsIndexScan stats.collection stats.path),
    countP_record (countP_countsCollectionScan stats.collection stats.path)]
  simp only [List.countP_nil, Nat.zero_add]
  exact ⟨Nat.min_eq_left (hle _), Nat.min_eq_left (hle _)⟩

/-- Every candidate of a successful execution has an entry. -/
theorem exists_entry_of_succeeded {execution : Execution} {collection path : String}
    (hmem : execution ∈ history steps (run, [])) (hsucceeded : execution.succeeded = true)
    (hproposes : execution.Proposes collection path) :
    ∃ stats ∈ (analyzeWorkload (record steps (run, [])).2).indexCandidates,
      stats.collection = collection ∧ stats.path = path := by
  have hcount := countP_record
    (f := fun event => event.succeeded && decide (event.Reports collection path))
    (g := fun execution => execution.succeeded && decide (execution.Proposes collection path))
    (fun execution elapsedMicros => execution.countP_events elapsedMicros fun _ _ => rfl)
    steps (run, [])
  have hpositive : 0 < (record steps (run, [])).2.countP fun event =>
      event.succeeded && decide (event.Reports collection path) := by
    rw [hcount, List.countP_nil, Nat.zero_add, List.countP_pos_iff]
    exact ⟨execution, hmem, by simp [hsucceeded, hproposes]⟩
  obtain ⟨event, hevent, hreports⟩ := List.countP_pos_iff.mp hpositive
  rw [Bool.and_eq_true, decide_eq_true_eq] at hreports
  exact exists_entry hevent hreports.2

/-- The executions of parsed queries, which find the indexes by their names. -/
theorem wellFormed_of_mem_history (hlabelled : LabelledRun run)
    (hparsed : ∀ step ∈ steps, ∃ source, parse source = .ok step.1) :
    ∀ execution ∈ history steps (run, []),
      execution.query.WellFormed ∧ LabelledRun execution.run := by
  intro execution hmem
  obtain ⟨hrun, step, hstep, hquery⟩ := mem_history hlabelled hmem
  obtain ⟨source, hsource⟩ := hparsed step hstep
  obtain ⟨shallow, hsound⟩ := sound_of_parse hsource
  exact ⟨hquery ▸ hsound.wellFormed, hrun⟩

/-- In a history of attributable executions, counted scans are scans on the path itself. -/
theorem countP_counts_eq (hlabelled : LabelledRun run)
    (hparsed : ∀ step ∈ steps, ∃ source, parse source = .ok step.1)
    (h : ∀ execution ∈ history steps (run, []), execution.succeeded = true →
      execution.Attributable) (collection path : String) :
    (history steps (run, [])).countP (Execution.countsIndex collection path) =
      (history steps (run, [])).countP (Execution.usesIndex collection path) ∧
    (history steps (run, [])).countP (Execution.countsScan collection path) =
      (history steps (run, [])).countP (Execution.usesScan collection path) := by
  have hexecutions := wellFormed_of_mem_history hlabelled hparsed
  constructor
  · apply (countP_eq_iff fun execution hmem =>
      (Execution.counts_of_uses (hexecutions execution hmem).1).1).mpr
    intro execution hmem hcounts
    obtain ⟨hquery, hrun⟩ := hexecutions execution hmem
    have hsucceeded : execution.succeeded = true := (Bool.and_eq_true_iff.mp hcounts).1
    exact (Execution.uses_of_counts hquery hrun (h execution hmem hsucceeded)).1 hcounts
  · apply (countP_eq_iff fun execution hmem =>
      (Execution.counts_of_uses (hexecutions execution hmem).1).2).mpr
    intro execution hmem hcounts
    obtain ⟨hquery, hrun⟩ := hexecutions execution hmem
    have hsucceeded : execution.succeeded = true := (Bool.and_eq_true_iff.mp hcounts).1
    exact (Execution.uses_of_counts hquery hrun (h execution hmem hsucceeded)).2 hcounts

/-- If every entry is right, then so is every execution. -/
theorem attributable_of_attributed (hlabelled : LabelledRun run)
    (hparsed : ∀ step ∈ steps, ∃ source, parse source = .ok step.1)
    (hlength : steps.length ≤ u64Max)
    (h : Attributed (history steps (run, [])) (analyzeWorkload (record steps (run, [])).2))
    {execution : Execution} (hmem : execution ∈ history steps (run, []))
    (hsucceeded : execution.succeeded = true) : execution.Attributable := by
  have hexecutions := wellFormed_of_mem_history hlabelled hparsed
  apply Execution.attributable_of_uses (hexecutions execution hmem).1 hsucceeded
  intro collection path hproposes
  obtain ⟨stats, hstats, rfl, rfl⟩ := exists_entry_of_succeeded hmem hsucceeded hproposes
  obtain ⟨hindex, hscan⟩ := scans_counted hlength hstats
  obtain ⟨hindexUses, hscanUses⟩ := h stats hstats
  constructor
  · exact (countP_eq_iff fun other hother =>
      (Execution.counts_of_uses (hexecutions other hother).1).1).mp
        (hindex.symm.trans hindexUses) execution hmem
  · exact (countP_eq_iff fun other hother =>
      (Execution.counts_of_uses (hexecutions other hother).1).2).mp
        (hscan.symm.trans hscanUses) execution hmem

omit [CharacterTables] in
/-- An evaluation observes the index scans of the entry of its path. -/
theorem observedIndexScans_of_evaluate {collection path : String} {report : WorkloadReport}
    {config : EvaluationConfig} {lifecycle evaluated : RecommendationLifecycle}
    {evaluation : ImpactEvaluation}
    (h : RecommendationLifecycle.evaluate collection path report config lifecycle =
      .ok (evaluation, evaluated)) :
    ∃ stats ∈ report.indexCandidates, stats.collection = collection ∧ stats.path = path ∧
      evaluation.observedIndexScans = stats.indexScans := by
  obtain ⟨_, -, h⟩ := bind_eq_ok.mp h
  obtain ⟨record, -, h⟩ := bind_eq_ok.mp h
  obtain ⟨_, -, h⟩ := bind_eq_ok.mp h
  split at h
  · cases h
  · rename_i stats hfound
    obtain ⟨_, -, h⟩ := bind_eq_ok.mp h
    obtain ⟨rfl, -⟩ := Prod.mk.inj (Except.ok.inj h)
    have hnamed := List.find?_some hfound
    obtain ⟨hcollection, hpath⟩ : stats.collection = collection ∧ stats.path = path := by
      simpa using hnamed
    exact ⟨stats, List.mem_of_find?_eq_some hfound, hcollection, hpath, rfl⟩

/-- The scans of every entry are those that have been made for its path if and only if every query
that succeeds is attributable. -/
theorem attributed_iff (hlabelled : LabelledRun run)
    (hparsed : ∀ step ∈ steps, ∃ source, parse source = .ok step.1)
    (hlength : steps.length ≤ u64Max) :
    Attributed (history steps (run, [])) (analyzeWorkload (record steps (run, [])).2) ↔
      ∀ execution ∈ history steps (run, []), execution.succeeded = true →
        execution.Attributable := by
  constructor
  · exact fun h execution hmem hsucceeded =>
      attributable_of_attributed hlabelled hparsed hlength h hmem hsucceeded
  · intro h stats hstats
    obtain ⟨hindex, hscan⟩ := scans_counted hlength hstats
    obtain ⟨hindexUses, hscanUses⟩ :=
      countP_counts_eq hlabelled hparsed h stats.collection stats.path
    exact ⟨hindex.trans hindexUses, hscan.trans hscanUses⟩

/-- The scans of every entry are those that have been made for its path if and only if every query
that succeeds is attributable. Then an evaluation observes uses of the recommended index only. -/
theorem scans_attributed_iff (hlabelled : LabelledRun run)
    (hparsed : ∀ step ∈ steps, ∃ source, parse source = .ok step.1)
    (hlength : steps.length ≤ u64Max) :
    (Attributed (history steps (run, [])) (analyzeWorkload (record steps (run, [])).2) ↔
      ∀ execution ∈ history steps (run, []), execution.succeeded = true →
        execution.Attributable) ∧
    ((∀ execution ∈ history steps (run, []), execution.succeeded = true →
        execution.Attributable) →
      ∀ lifecycle collection path config evaluation evaluated,
        RecommendationLifecycle.evaluate collection path
          (analyzeWorkload (record steps (run, [])).2) config lifecycle =
            .ok (evaluation, evaluated) →
        evaluation.observedIndexScans =
          (history steps (run, [])).countP (Execution.usesIndex collection path)) := by
  refine ⟨attributed_iff hlabelled hparsed hlength, ?_⟩
  intro h lifecycle collection path config evaluation evaluated hevaluate
  obtain ⟨stats, hstats, rfl, rfl, hobserved⟩ := observedIndexScans_of_evaluate hevaluate
  rw [hobserved, (scans_counted hlength hstats).1]
  exact (countP_counts_eq hlabelled hparsed h stats.collection stats.path).1

/-- So it is from an opened directory of indexes on, whatever documents are stored. -/
theorem attributed_iff_of_openDirectory {directory : Directory} {catalog : IndexCatalog}
    (hopen : IndexCatalog.openDirectory directory = .ok catalog) (documents : MemoryBackend)
    (ids : IdSource) (hparsed : ∀ step ∈ steps, ∃ source, parse source = .ok step.1)
    (hlength : steps.length ≤ u64Max) :
    Attributed (history steps (⟨⟨documents, catalog⟩, ids, 0⟩, []))
        (analyzeWorkload (record steps (⟨⟨documents, catalog⟩, ids, 0⟩, [])).2) ↔
      ∀ execution ∈ history steps (⟨⟨documents, catalog⟩, ids, 0⟩, []),
        execution.succeeded = true → execution.Attributable :=
  attributed_iff (labelled_openDirectory hopen) hparsed hlength

end Attribution

/-- A collection `c` with no documents and an index on `b`. -/
def indexedRun : Run (IndexedBackend MemoryBackend) where
  backend := ⟨⟨SortedMap.empty.insert "c" .empty⟩, ⟨.empty, SortedMap.empty.insert "i"
    ⟨⟨"i", "c", ["b"]⟩, ⟨defaultMaxKeys, 0, [.leaf [] none], false⟩⟩⟩⟩
  ids := fun _ => .ok (.filled 1)
  examined := 0

theorem labelled_indexedRun : LabelledRun indexedRun := by
  intro label hlabel
  obtain rfl := List.mem_singleton.mp hlabel
  rfl

/-- A query with one candidate, on which there is an index. -/
theorem scans_attributed_iff_indexed : let _ := CharacterTables.ascii
    ∃ query, parse "c.get\x7bb==2\x7d" = .ok query ∧
      Attributed (history [(query, 5)] (indexedRun, []))
        (analyzeWorkload (record [(query, 5)] (indexedRun, [])).2) := by
  intro _
  have hattributable : (parse "c.get\x7bb==2\x7d").toOption.map
      (fun query => decide (Execution.Attributable ⟨indexedRun, query⟩)) = some true := by
    decide +kernel
  cases hparse : parse "c.get\x7bb==2\x7d" with
  | error fault =>
      rw [hparse] at hattributable
      cases hattributable
  | ok query =>
      rw [hparse] at hattributable
      refine ⟨query, rfl, ?_⟩
      have hiff := @scans_attributed_iff _ [(query, 5)] indexedRun labelled_indexedRun
        (List.forall_mem_singleton.mpr ⟨_, hparse⟩) (show 1 ≤ u64Max by decide)
      refine hiff.1.mpr fun execution hmem _ => ?_
      obtain rfl := List.mem_singleton.mp hmem
      exact of_decide_eq_true (Option.some.inj hattributable)

/-- The index on `b` is used, and the entry of `a` counts the scan as well. -/
theorem other_candidate_counted : let _ := CharacterTables.ascii
    ∃ query, parse "c.get\x7ba==1 and b==2\x7d" = .ok query ∧
      ¬Attributed (history [(query, 5)] (indexedRun, []))
        (analyzeWorkload (record [(query, 5)] (indexedRun, [])).2) := by
  intro _
  have hentries : (parse "c.get\x7ba==1 and b==2\x7d").toOption.map (fun query =>
      (analyzeWorkload (record [(query, 5)] (indexedRun, [])).2).indexCandidates.map fun stats =>
        (stats.path, stats.indexScans, (history [(query, 5)] (indexedRun, [])).countP
          (Execution.usesIndex stats.collection stats.path))) =
      some [("a", 1, 0), ("b", 1, 1)] := by
    decide +kernel
  cases hparse : parse "c.get\x7ba==1 and b==2\x7d" with
  | error fault =>
      rw [hparse] at hentries
      cases hentries
  | ok query =>
      rw [hparse] at hentries
      refine ⟨query, rfl, fun h => ?_⟩
      obtain ⟨stats, rest, hstats, hentry, -⟩ := List.map_eq_cons_iff.mp (Option.some.inj hentries)
      obtain ⟨-, hcounts⟩ := Prod.mk.inj hentry
      obtain ⟨hscans, huses⟩ := Prod.mk.inj hcounts
      have hcounted := (h stats (hstats ▸ List.mem_cons_self ..)).1
      rw [hscans, huses] at hcounted
      cases hcounted

end NovaBase.Executor
