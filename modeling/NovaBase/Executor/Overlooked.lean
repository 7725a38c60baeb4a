import NovaBase.Executor.Agreement

/-!
# Documents that an index scan overlooks

Zeros of different sign are equal for a filter, and have different keys in an index.
A statement agrees with a scan of the collection where no document is overlooked for
this reason. Where the stages keep the number of documents, it agrees only there.
-/

namespace NovaBase.Executor

open Lib NovaQl Index

section Answers

/-- The same result. Of two plans that are explained only one need scan an index. -/
def Alike : ExecutionResult → ExecutionResult → Prop
  | .explained _, .explained _ => True
  | result, other => result = other

/-- A statement ends with the same result and the same documents as another has. -/
def AgreesWith (result : ExecutionResult) (last : Run (IndexedBackend MemoryBackend))
    (ended : Partial ExecutionResult × Run (IndexedBackend MemoryBackend)) : Prop :=
  ∃ result' last', ended = (.ok result', last') ∧ Alike result result' ∧
    last'.backend.inner = last.backend.inner

theorem Alike.refl (result : ExecutionResult) : Alike result result := by
  cases result <;> trivial

/-- How many documents a statement has answered with or changed. -/
def answered : ExecutionResult → Nat
  | .documents documents => documents.length
  | .updated count => count
  | .deleted count => count
  | _ => 0

theorem Alike.answered_eq {result other : ExecutionResult} (h : Alike result other) :
    answered result = answered other := by
  cases result <;> cases other <;> first | rfl | cases h <;> rfl

end Answers

section Lengths

variable {documents left : List Document} {stage : Stage} {stages rest : List Stage}
  {ids ids' : IdSource} {predicate : Expression} {query : Query} {collection : String}

/-- A stage that may leave out documents whatever they are. -/
def Cuts : Stage → Prop
  | .limit _ | .skip _ => True
  | _ => False

theorem length_mapM {f : Document → Result Document} (h : documents.mapM f = .ok left) :
    left.length = documents.length := by
  induction documents generalizing left with
  | nil =>
      cases h
      rfl
  | cons document rest ih =>
      rw [List.mapM_cons] at h
      obtain ⟨first, -, h⟩ := bind_eq_ok.mp h
      obtain ⟨others, hothers, h⟩ := bind_eq_ok.mp h
      cases h
      rw [List.length_cons, List.length_cons, ih hothers]

/-- Only stages that cut or filter change the number of documents. -/
theorem length_runStage (hfilter : stage.isFilter = false) (hcuts : ¬ Cuts stage)
    (h : runStage documents stage ids = (.ok left, ids')) : left.length = documents.length := by
  cases stage with
  | filter predicate => cases hfilter
  | limit count => exact absurd trivial hcuts
  | skip count => exact absurd trivial hcuts
  | project paths =>
      rw [runStage, Action.ofExcept_apply] at h
      exact length_mapM (Result.lift_eq_ok.mp (Prod.mk.inj h).1)
  | sort keys =>
      rcases hsort : sortDocuments keys documents with ⟨result, sorted⟩
      rw [runStage, hsort] at h
      cases result with
      | error cause => cases h
      | ok _ =>
          cases h
          exact (perm_of_sortDocuments hsort).length_eq
  | set assignments =>
      have hends := @assignAll_keeps (fun _ => True) admissible_true.assigned assignments documents
        ids
      have hsame := congrArg List.length (hends.of_ok h).1
      simpa using hsame

/-- Stages that neither filter nor cut leave as many documents as there are. -/
theorem length_runPipeline (hstages : ∀ stage ∈ stages, stage.isFilter = false ∧ ¬ Cuts stage)
    (h : runPipeline documents stages ids = (.ok left, ids')) : left.length = documents.length := by
  induction stages generalizing documents ids with
  | nil =>
      cases h
      rfl
  | cons stage rest ih =>
      obtain ⟨⟨hfilter, hcuts⟩, hrest⟩ := List.forall_mem_cons.mp hstages
      rw [runPipeline, List.foldlM_cons] at h
      obtain ⟨middle, ids'', hstage, hlast⟩ := Action.bind_eq_ok.mp h
      rw [ih hrest hlast, length_runStage hfilter hcuts hstage]

/-- What a filter and stages behind it leave of the documents that have been read. -/
theorem length_filtered (hrest : ∀ stage ∈ rest, stage.isFilter = false ∧ ¬ Cuts stage)
    (h : runPipeline documents (.filter predicate :: rest) ids = (.ok left, ids')) :
    left.length = (documents.filter fun document =>
      (evaluatePredicate predicate document).toOption = some true).length := by
  rw [runPipeline, List.foldlM_cons] at h
  obtain ⟨kept, ids'', hfilter, hlast⟩ := Action.bind_eq_ok.mp h
  rw [runStage, Action.ofExcept_apply] at hfilter
  obtain ⟨-, rfl⟩ := filterDocuments_eq_ok.mp (Result.lift_eq_ok.mp (Prod.mk.inj hfilter).1)
  exact length_runPipeline hrest hlast

/-- With fewer documents to read a filter leaves fewer, unless it accepts none of those missing. -/
theorem not_accepted_of_length {test accepts : Document → Bool}
    (h : ((documents.filter test).filter accepts).length = (documents.filter accepts).length)
    {document : Document} (hmem : document ∈ documents) (haccepted : accepts document = true) :
    test document = true := by
  have hsame := (List.filter_sublist.filter accepts).eq_of_length h
  have hkept : document ∈ (documents.filter test).filter accepts := by
    rw [hsame]
    exact List.mem_filter.mpr ⟨hmem, haccepted⟩
  exact (List.mem_filter.mp (List.mem_filter.mp hkept).1).2

end Lengths

section Answering

variable [CharacterTables] {left : List Document} {query : Query} {collection : String}
  {run last : Run (IndexedBackend MemoryBackend)} {result : ExecutionResult}

/-- A statement that reads documents answers with as many as it has selected. -/
theorem answered_of_executeCommand {plan : QueryPlan}
    (hselected : selectedCollection query.command = some collection)
    (h : executeCommand query plan query.command run = (.ok result, last)) :
    ∃ kind left middle, selectDocuments query plan kind collection run = (.ok left, middle) ∧
      answered result = left.length := by
  cases hcommand : query.command with
  | get name =>
      rw [hcommand] at hselected h
      cases hselected
      obtain ⟨left, middle, hselect, hlast⟩ := Action.bind_eq_ok.mp h
      cases hlast
      exact ⟨.get, left, _, hselect, rfl⟩
  | update name =>
      rw [hcommand] at hselected h
      cases hselected
      obtain ⟨left, middle, hselect, hchanged⟩ := Action.bind_eq_ok.mp h
      obtain ⟨_, _, -, hlast⟩ := Action.bind_eq_ok.mp hchanged
      cases hlast
      exact ⟨.update, left, middle, hselect, rfl⟩
  | delete name =>
      rw [hcommand] at hselected h
      cases hselected
      obtain ⟨left, middle, hselect, hchanged⟩ := Action.bind_eq_ok.mp h
      obtain ⟨_, _, -, hlast⟩ := Action.bind_eq_ok.mp hchanged
      cases hlast
      exact ⟨.delete, left, middle, hselect, rfl⟩
  | _ =>
      rw [hcommand] at hselected
      cases hselected

/-- The documents that have been read, and how many of them are left. -/
theorem read_of_selectDocuments {plan : QueryPlan} {kind : CommandKind} {predicate : Expression}
    {rest : List Stage} (hstages : query.stages = .filter predicate :: rest)
    (hrest : ∀ stage ∈ rest, stage.isFilter = false ∧ ¬ Cuts stage)
    (h : selectDocuments query plan kind collection run = (.ok left, last)) :
    ∃ documents middle, accessDocuments plan collection run = (.ok documents, middle) ∧
      left.length = (documents.filter fun document =>
        (evaluatePredicate predicate document).toOption = some true).length := by
  obtain ⟨_, start, hvalid, hselect⟩ := Action.bind_eq_ok.mp h
  obtain rfl : run = start := (Prod.mk.inj hvalid).2
  obtain ⟨documents, middle, hread, hpipeline⟩ := Action.bind_eq_ok.mp hselect
  refine ⟨documents, middle, hread, ?_⟩
  rcases hrun : runPipeline documents query.stages middle.ids with ⟨found, ids⟩
  rw [Run.onIds, Action.zoom, hrun] at hpipeline
  cases hpipeline
  rw [hstages] at hrun
  exact length_filtered hrest hrun

/-- The plan of a parsed query that overlooks a document, and the document. -/
theorem Overlooks.planned {backend : IndexedBackend MemoryBackend} {source : String}
    (hparse : parse source = .ok query) (h : backend.Coherent)
    (hselected : selectedCollection query.command = some collection)
    (hoverlooks : Overlooks backend query) :
    ∃ definition ∈ backend.indexes.definitions, ∃ key predicate rest documents,
      definition.collection = collection ∧
      (plan query backend.indexes.definitions).access =
        .indexScan collection definition.name key ∧
      query.stages = .filter predicate :: rest ∧ (∀ stage ∈ rest, stage.isFilter = false) ∧
      backend.inner.collections.get collection = some documents ∧
      ∃ document ∈ documents.values,
        (evaluatePredicate predicate document).toOption = some true ∧
        documentKey definition document ≠ .ok (some key) := by
  obtain ⟨scanned, definition, hmem, key, predicate, documents, haccess, hfirst, hget, document,
    hdocument, haccepted, other, hother, -, hdiffer⟩ := hoverlooks
  obtain ⟨definition', hmem', hname, rfl, predicate', rest, hstages, -, -⟩ :=
    exists_of_access hparse haccess
  have hdefined := h.defined hmem'
  rw [hname, h.defined hmem] at hdefined
  obtain rfl := Option.some.inj hdefined
  obtain rfl : definition.collection = collection :=
    Option.some.inj ((findIndexScan_of_access haccess).1.symm.trans hselected)
  obtain ⟨shallow, hsound⟩ := sound_of_parse hparse
  have htail := hsound.wellFormed.filter
  rw [hstages] at hfirst htail
  obtain rfl : predicate' = predicate := Option.some.inj hfirst
  refine ⟨definition, hmem, key, predicate', rest, documents, rfl, haccess, hstages, htail, hget,
    document, hdocument, haccepted, fun hkey => hdiffer ?_⟩
  exact Option.some.inj (Except.ok.inj (hother.symm.trans hkey))

/-- Where stages do not cut, a statement that agrees with a scan of the collection overlooks no
document: it would answer with fewer. -/
theorem not_overlooks_of_agrees {source : String} (hparse : parse source = .ok query)
    (hexplain : query.explain = false)
    (hselected : selectedCollection query.command = some collection)
    (h : run.backend.Coherent) (hcuts : ∀ stage ∈ query.stages, ¬ Cuts stage)
    (hscan : executeScanning query collection run = (.ok result, last))
    (hagrees : AgreesWith result last (execute query run)) : ¬ Overlooks run.backend query := by
  intro hoverlooks
  obtain ⟨definition, hmem, key, predicate, rest, map, rfl, haccess, hstages, htail, hget, document,
    hdocument, haccepted, hkey⟩ := hoverlooks.planned hparse h hselected
  have hrest : ∀ stage ∈ rest, stage.isFilter = false ∧ ¬ Cuts stage := by
    rw [hstages] at hcuts
    exact fun stage hstage => ⟨htail stage hstage, hcuts stage (List.mem_cons_of_mem _ hstage)⟩
  obtain ⟨result', last', hexecute, halike, -⟩ := hagrees
  rw [executeScanning, executePlanned, if_neg (by simp [hexplain])] at hscan
  rw [execute, executePlanned, if_neg (by simp [hexplain])] at hexecute
  obtain ⟨kind, left, middle, hselect, hanswered⟩ := answered_of_executeCommand hselected hscan
  obtain ⟨kind', left', middle', hselect', hanswered'⟩ :=
    answered_of_executeCommand hselected hexecute
  obtain ⟨documents, start, hread, hlength⟩ := read_of_selectDocuments hstages hrest hselect
  obtain ⟨found, start', hread', hlength'⟩ := read_of_selectDocuments hstages hrest hselect'
  have hall := (@scan_of_accessDocuments _ _ { run with examined := 0 } _ _ h _ hread).1
  have hindexed := @accessDocuments_indexScan _ _ { run with examined := 0 } _ _ _ _ _ haccess
    (h.scanIndex hmem hall key)
  obtain rfl := Except.ok.inj (Prod.mk.inj (hread'.symm.trans hindexed)).1
  obtain ⟨map', hget', hvalues⟩ := IndexedBackend.values_of_scan hall
  obtain rfl := Option.some.inj (hget.symm.trans hget')
  rw [hvalues] at hdocument
  have hsame : left'.length = left.length := by
    rw [← hanswered', ← hanswered, halike.answered_eq]
  rw [hlength, hlength'] at hsame
  exact hkey (of_decide_eq_true
    (not_accepted_of_length hsame hdocument (decide_eq_true haccepted)))

/-- After any statements, one that succeeds with a scan of the collection has the same result and
leaves the same documents with the plan that is made for it, if it is only explained or overlooks no
document. Where it is executed and no stage cuts, it does so only then. -/
theorem agrees_unless_overlooks (queries : List Query) (ids : IdSource) {source : String}
    (hparse : parse source = .ok query)
    (hselected : selectedCollection query.command = some collection)
    (hrun : run = executeAll queries ⟨IndexedBackend.empty, ids, 0⟩)
    (hscan : executeScanning query collection run = (.ok result, last)) :
    (query.explain = true ∨ ¬ Overlooks run.backend query →
      AgreesWith result last (execute query run)) ∧
    ((∀ stage ∈ query.stages, ¬ Cuts stage) → AgreesWith result last (execute query run) →
      query.explain = true ∨ ¬ Overlooks run.backend query) := by
  have hcoherent : run.backend.Coherent := by
    rw [hrun]
    exact IndexedBackend.callsKeep_coherent.executeAll admissible_true queries
      IndexedBackend.coherent_empty
  cases hexplain : query.explain with
  | true =>
      refine ⟨fun _ => ?_, fun _ _ => .inl rfl⟩
      rw [executeScanning, executePlanned, if_pos hexplain] at hscan
      cases hscan
      have hexplained : execute query run =
          (.ok (.explained (plan query run.backend.indexes.definitions)),
            { run with examined := 0 }) := by
        rw [execute, executePlanned, if_pos hexplain]
        rfl
      exact ⟨_, _, hexplained, trivial, rfl⟩
  | false =>
      refine ⟨fun h => ?_, fun hcuts hagrees => .inr ?_⟩
      · have hoverlooks := h.resolve_left Bool.false_ne_true
        obtain ⟨examined, hexecute⟩ :=
          execute_of_executeScanning hparse hexplain hselected hcoherent hoverlooks hscan
        exact ⟨result, _, hexecute, .refl result, rfl⟩
      · exact not_overlooks_of_agrees hparse hexplain hselected hcoherent hcuts hscan hagrees

end Answering

section Zeros

/-- Both zeros and another number under an indexed path. -/
def zeroSources : List String :=
  ["create collection c", "create index by_k on c (k)", "c.insert\x7bk: 0.0\x7d",
    "c.insert\x7bk: -0.0\x7d", "c.insert\x7bk: 5\x7d"]

variable [CharacterTables]

/-- The store after these statements. -/
def zeroRun (queries : List Query) : Run (IndexedBackend MemoryBackend) :=
  executeAll queries ⟨.empty, fun n => .ok (.filled (UInt8.ofNat n)), 0⟩

/-- The plan for a source, and how many documents it answers with by a scan of the collection and
by its plan. -/
def zeroAnswers (source : String) : Option (AccessPath × Option Nat × Option Nat) := do
  let queries ← (zeroSources.mapM parse).toOption
  let query ← (parse source).toOption
  let run := zeroRun queries
  return ((plan query run.backend.indexes.definitions).access,
    (executeScanning query "c" run).1.toOption.map answered,
    (execute query run).1.toOption.map answered)

/-- What has been computed of a source, as a statement about its parse and its plan. -/
theorem exists_of_zeroAnswers {source : String} {access : AccessPath} {scanned planned : Nat}
    (h : zeroAnswers source = some (access, some scanned, some planned)) :
    ∃ queries query result last result' last', zeroSources.mapM parse = .ok queries ∧
      parse source = .ok query ∧
      (plan query (zeroRun queries).backend.indexes.definitions).access = access ∧
      executeScanning query "c" (zeroRun queries) = (.ok result, last) ∧
      execute query (zeroRun queries) = (.ok result', last') ∧
      answered result = scanned ∧ answered result' = planned := by
  obtain ⟨queries, hqueries, h⟩ := Option.bind_eq_some_iff.mp h
  obtain ⟨query, hquery, h⟩ := Option.bind_eq_some_iff.mp h
  obtain ⟨haccess, hanswers⟩ := Prod.mk.inj (Option.some.inj h)
  obtain ⟨hscanned, hplanned⟩ := Prod.mk.inj hanswers
  obtain ⟨result, hresult, hcount⟩ := Option.map_eq_some_iff.mp hscanned
  obtain ⟨result', hresult', hcount'⟩ := Option.map_eq_some_iff.mp hplanned
  exact ⟨queries, query, result, _, result', _, toOption_eq_some.mp hqueries,
    toOption_eq_some.mp hquery, haccess, Prod.ext (toOption_eq_some.mp hresult) rfl,
    Prod.ext (toOption_eq_some.mp hresult') rfl, hcount, hcount'⟩

end Zeros

/-- The negative zero is equal to the literal, and has another key. -/
theorem zeroAnswers_zero : let _ := CharacterTables.ascii
    zeroAnswers "c.get\x7bk == 0.0\x7d" =
      some (.indexScan "c" "by_k" (.float64 (.new ⟨0⟩)), some 2, some 1) := by
  decide +kernel

theorem zeroAnswers_five : let _ := CharacterTables.ascii
    zeroAnswers "c.get\x7bk == 5\x7d" =
      some (.indexScan "c" "by_k" (.int64 5), some 1, some 1) := by
  decide +kernel

/-- A query answers with one document, and would answer with two by a scan of the collection. -/
theorem negative_zero_overlooked : let _ := CharacterTables.ascii
    ∃ queries query result last, zeroSources.mapM parse = .ok queries ∧
      parse "c.get\x7bk == 0.0\x7d" = .ok query ∧
      executeScanning query "c" (zeroRun queries) = (.ok result, last) ∧
      ¬ AgreesWith result last (execute query (zeroRun queries)) := by
  intro _
  obtain ⟨queries, query, result, last, result', last', hqueries, hquery, -, hscan, hexecute, htwo,
    hone⟩ := exists_of_zeroAnswers zeroAnswers_zero
  refine ⟨queries, query, result, last, hqueries, hquery, hscan, ?_⟩
  rintro ⟨other, _, hother, halike, -⟩
  obtain rfl := Except.ok.inj (Prod.mk.inj (hexecute.symm.trans hother)).1
  have hsame := halike.answered_eq
  rw [htwo, hone] at hsame
  cases hsame

/-- The query for another number agrees, and the query for zero has overlooked a document. -/
theorem agrees_unless_overlooks_zeros : let _ := CharacterTables.ascii
    ∃ queries query other result last, zeroSources.mapM parse = .ok queries ∧
      parse "c.get\x7bk == 5\x7d" = .ok query ∧ parse "c.get\x7bk == 0.0\x7d" = .ok other ∧
      executeScanning query "c" (zeroRun queries) = (.ok result, last) ∧
      AgreesWith result last (execute query (zeroRun queries)) ∧
      Overlooks (zeroRun queries).backend other := by
  intro _
  obtain ⟨queries, query, result, last, result', last', hqueries, hquery, haccess, hscan, -⟩ :=
    exists_of_zeroAnswers zeroAnswers_five
  obtain ⟨queries', other, all, allLast, found, foundLast, hqueries', hother, hindexed, hall,
    hfound, htwo, hone⟩ := exists_of_zeroAnswers zeroAnswers_zero
  obtain rfl := Except.ok.inj (hqueries.symm.trans hqueries')
  refine ⟨queries, query, other, result, last, hqueries, hquery, hother, hscan, ?_, ?_⟩
  · have hselected := (findIndexScan_of_access haccess).1
    apply (agrees_unless_overlooks queries _ hquery hselected rfl hscan).1
    refine .inr ?_
    rintro ⟨_, _, _, key, _, _, hplan, -, -, _, _, -, _, -, ⟨_, _, -, rfl, -⟩, -⟩
    cases (AccessPath.indexScan.inj (hplan.symm.trans haccess)).2.2
  · have hselected := (findIndexScan_of_access hindexed).1
    have hagrees := (agrees_unless_overlooks queries _ hother hselected rfl hall).1
    by_contra hoverlooks
    obtain ⟨answer, _, hanswer, halike, -⟩ := hagrees (.inr hoverlooks)
    obtain rfl := Except.ok.inj (Prod.mk.inj (hfound.symm.trans hanswer)).1
    have hsame := halike.answered_eq
    rw [htwo, hone] at hsame
    cases hsame

end NovaBase.Executor
