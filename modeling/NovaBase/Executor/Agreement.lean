import NovaBase.Executor.Comparison
import NovaBase.Executor.Frame
import NovaBase.Executor.Indexable
import NovaBase.Executor.Mirrored
import NovaBase.Executor.Statements

/-!
# Index scans answer as collection scans do

An index scan reads the documents whose key is the literal that the predicate asks
for, and the filter still looks at each of them. The filter accepts no document
with another key, but for one case: zeros of different sign are equal, and have
different keys. Where there are none, a statement that succeeds with a scan of the
collection has the same result and effects with a scan of an index.
-/

namespace NovaBase.Executor

open Lib NovaQl Index

section Keys

/-- Keys of zeros, which may differ in their sign. -/
def ZeroKeys (key other : IndexKey) : Prop :=
  ∃ zero zero' : OrderedF64, key = .float64 zero ∧ other = .float64 zero' ∧
    zero.value.isZero = true ∧ zero'.value.isZero = true

theorem value_new_of_isZero {x : F64} (h : x.isZero = true) : (OrderedF64.new x).value = x := by
  have hnan : ¬ x.isNaN = true := by
    rw [F64.isNaN_of_isZero h]
    exact Bool.false_ne_true
  rw [OrderedF64.new, dif_neg hnan]

/-- Floats that the evaluator equates have one key, unless they are the two zeros. -/
theorem zeroKeys_of_ieeeEq {x y : F64} (h : x.ieeeEq y = true) :
    IndexKey.float64 (.new x) = .float64 (.new y) ∨
      ZeroKeys (.float64 (.new x)) (.float64 (.new y)) := by
  obtain ⟨-, -, rfl | ⟨hx, hy⟩⟩ := F64.ieeeEq_eq_true.mp h
  · exact .inl rfl
  · refine .inr ⟨.new x, .new y, rfl, rfl, ?_, ?_⟩
    · rw [value_new_of_isZero hx]
      exact hx
    · rw [value_new_of_isZero hy]
      exact hy

theorem ZeroKeys.symm {key other : IndexKey} (h : ZeroKeys key other) : ZeroKeys other key := by
  obtain ⟨zero, zero', hkey, hother, hzero, hzero'⟩ := h
  exact ⟨zero', zero, hother, hkey, hzero', hzero⟩

/-- A stored value that equals a literal has its key, or both are zeros. -/
theorem tryFrom_of_eq {value : NovaValue} {literal : Literal} {key : IndexKey}
    (hkey : literalKey literal = some key)
    (heq : (RuntimeValue.ofNova value).eq (evaluateLiteral literal) = true ∨
      (evaluateLiteral literal).eq (RuntimeValue.ofNova value) = true) :
    ∃ other, IndexKey.tryFrom value = .ok other ∧ (other = key ∨ ZeroKeys other key) := by
  cases literal with
  | null => cases hkey
  | boolean _ => cases hkey
  | integer literal =>
      cases hkey
      cases value <;> simp only [RuntimeValue.ofNova, evaluateLiteral, RuntimeValue.eq, beq_iff_eq,
        Bool.false_eq_true, or_self] at heq
      exact ⟨_, rfl, .inl (by rcases heq with rfl | rfl <;> rfl)⟩
  | float literal =>
      cases hkey
      cases value <;> simp only [RuntimeValue.ofNova, evaluateLiteral, RuntimeValue.eq,
        Bool.false_eq_true, or_self] at heq
      refine ⟨_, rfl, ?_⟩
      rcases heq with heq | heq
      · exact zeroKeys_of_ieeeEq heq
      · exact (zeroKeys_of_ieeeEq heq).imp Eq.symm ZeroKeys.symm
  | string literal =>
      cases hkey
      cases value <;> simp only [RuntimeValue.ofNova, evaluateLiteral, RuntimeValue.eq, beq_iff_eq,
        Bool.false_eq_true, or_self] at heq
      exact ⟨_, rfl, .inl (by rcases heq with rfl | rfl <;> rfl)⟩

/-- No literal with a key equals a missing value or an identifier. -/
theorem not_eq_literal {value : RuntimeValue} {literal : Literal} {key : IndexKey}
    (hvalue : value = .missing ∨ ∃ id, value = .novaId id) (hkey : literalKey literal = some key) :
    ¬ (value.eq (evaluateLiteral literal) = true ∨ (evaluateLiteral literal).eq value = true) := by
  cases literal with
  | null => cases hkey
  | boolean _ => cases hkey
  | _ => rcases hvalue with rfl | ⟨id, rfl⟩ <;> simp [evaluateLiteral, RuntimeValue.eq]

/-- A path whose value equals a literal leads to a stored value that does. -/
theorem lookup_of_eq {document : Document} {path : Path} {literal : Literal} {key : IndexKey}
    (hkey : literalKey literal = some key)
    (heq : (readPath document path).eq (evaluateLiteral literal) = true ∨
      (evaluateLiteral literal).eq (readPath document path) = true) :
    path.segments ≠ ["_id"] ∧ ∃ value, Document.lookupParts document path.segments = some value ∧
      ((RuntimeValue.ofNova value).eq (evaluateLiteral literal) = true ∨
        (evaluateLiteral literal).eq (RuntimeValue.ofNova value) = true) := by
  unfold readPath at heq
  split at heq
  · exact absurd heq (not_eq_literal (.inr ⟨_, rfl⟩) hkey)
  · rename_i hid
    refine ⟨hid, ?_⟩
    cases hlookup : Document.lookupParts document path.segments with
    | none =>
        rw [hlookup] at heq
        exact absurd heq (not_eq_literal (.inl rfl) hkey)
    | some value =>
        rw [hlookup] at heq
        exact ⟨value, rfl, heq⟩

end Keys

section Acceptance

variable {document : Document} {left right predicate term : Expression}

theorem evaluate_of_accepted
    (h : (evaluatePredicate predicate document).toOption = some true) :
    evaluate document predicate = .ok (.boolean true) := by
  rw [evaluatePredicate] at h
  cases hvalue : evaluate document predicate with
  | error cause =>
      rw [hvalue] at h
      cases h
  | ok value =>
      rw [hvalue] at h
      cases value with
      | boolean value =>
          cases h
          rfl
      | _ => cases h

/-- Both sides of a conjunction that is true are true. -/
theorem evaluate_and {span : Span}
    (h : evaluate document (.binary left .and right span) = .ok (.boolean true)) :
    evaluate document left = .ok (.boolean true) ∧
      evaluate document right = .ok (.boolean true) := by
  rw [evaluate] at h
  obtain ⟨value, hleft, h⟩ := bind_eq_ok.mp h
  cases value with
  | boolean value =>
      cases value with
      | false => cases h
      | true =>
          obtain ⟨other, hright, h⟩ := bind_eq_ok.mp h
          cases other with
          | boolean other =>
              cases h
              exact ⟨hleft, hright⟩
          | _ => cases h
  | _ => cases h

/-- Every term of a conjunction that is true is true. -/
theorem evaluate_of_mem_conjuncts (h : evaluate document predicate = .ok (.boolean true))
    (hterm : term ∈ conjuncts predicate) : evaluate document term = .ok (.boolean true) := by
  fun_induction conjuncts predicate with
  | case1 left right span ihleft ihright =>
      obtain ⟨hleft, hright⟩ := evaluate_and h
      exact (List.mem_append.mp hterm).elim (ihleft hleft) (ihright hright)
  | case2 e _ => exact List.mem_singleton.mp hterm ▸ h

/-- An equality that holds has two operands that evaluate and are equal. -/
theorem evaluate_equal {span : Span}
    (h : evaluate document (.binary left .equal right span) = .ok (.boolean true)) :
    ∃ a b, evaluate document left = .ok a ∧ evaluate document right = .ok b ∧ a.eq b = true := by
  rw [evaluate] at h
  obtain ⟨a, hleft, h⟩ := bind_eq_ok.mp h
  obtain ⟨b, hright, h⟩ := bind_eq_ok.mp h
  exact ⟨a, b, hleft, hright, by simpa using h⟩

variable {definition : IndexDefinition} {key : IndexKey}

/-- A document that the predicate accepts has the key of the plan, or both are zeros. -/
theorem documentKey_of_accepted
    (hsplit : splitDots (joinDots definition.field) = definition.field)
    (hkey : equalityKey definition.field predicate = some key)
    (haccepted : (evaluatePredicate predicate document).toOption = some true) :
    ∃ other, documentKey definition document = .ok (some other) ∧
      (other = key ∨ ZeroKeys other key) := by
  obtain ⟨before, term, after, hterms, hequates, -⟩ := equalityKey_leftmost.mp hkey
  have hterm : term ∈ conjuncts predicate := by
    rw [hterms]
    exact List.mem_append_cons_self
  have htrue := evaluate_of_mem_conjuncts (evaluate_of_accepted haccepted) hterm
  have hequal : ∃ path : Path, ∃ literal, path.segments = definition.field ∧
      literalKey literal = some key ∧
      ((readPath document path).eq (evaluateLiteral literal) = true ∨
        (evaluateLiteral literal).eq (readPath document path) = true) := by
    cases hequates with
    | pathFirst hpath hliteral =>
        obtain ⟨_, _, hleft, hright, heq⟩ := evaluate_equal htrue
        cases hleft
        cases hright
        exact ⟨_, _, hpath, hliteral, .inl heq⟩
    | literalFirst hpath hliteral =>
        obtain ⟨_, _, hleft, hright, heq⟩ := evaluate_equal htrue
        cases hleft
        cases hright
        exact ⟨_, _, hpath, hliteral, .inr heq⟩
  obtain ⟨path, literal, hpath, hliteral, heq⟩ := hequal
  obtain ⟨hid, value, hvalue, heq⟩ := lookup_of_eq hliteral heq
  obtain ⟨other, hother, hsame⟩ := tryFrom_of_eq hliteral heq
  refine ⟨other, ?_, hsame⟩
  rw [hpath] at hid hvalue
  rw [documentKey, if_neg hid, Document.lookup, hsplit, hvalue]
  cases value with
  | null => cases hother
  | _ =>
      simp only [hother]
      rfl

end Acceptance

section Scans

variable [CharacterTables] {backend : IndexedBackend MemoryBackend} {collection : String}

theorem IndexedBackend.callsKeep_coherent :
    CallsKeep (fun _ => True) IndexedBackend.Coherent where
  scan collection h := by
    apply (scan_ends h collection).weaken
    · rintro _ _ ⟨rfl, -⟩
      exact ⟨h, fun _ _ => trivial⟩
    · rintro _ _ ⟨rfl, -⟩
      exact h
  scanIndex collection index key h := by
    apply (scanIndex_ends h collection index key).weaken
    · rintro _ _ ⟨rfl, -⟩
      exact ⟨h, fun _ _ => trivial⟩
    · rintro _ _ rfl
      exact h
  insert collection document _ := (follows_insert collection document).preserves
  replace collection document _ := (follows_replace collection document).preserves
  delete collection id := (follows_delete collection id).preserves
  createCollection name := (follows_createCollection name).preserves
  dropCollection name := (follows_dropCollection name).preserves
  createIndex name collection field := (follows_createIndex name collection field).preserves
  dropIndex name := (follows_dropIndex name).preserves

end Scans

section Statements

variable {β : Type}

/-- A command that does not touch the number of documents read. -/
def Unmetered {α : Type} (x : Action Failure (Run β) α) : Prop :=
  ∀ run examined, x { run with examined } = ((x run).1, { (x run).2 with examined })

/-- Calls of the store do not look at the number of documents read. -/
theorem unmetered_onBackend {α : Type} (call : Action Failure β α) :
    Unmetered (Run.onBackend call) := fun _ _ => rfl

theorem Unmetered.bind {α γ : Type} {x : Action Failure (Run β) α}
    {next : α → Action Failure (Run β) γ} (hx : Unmetered x) (hnext : ∀ a, Unmetered (next a)) :
    Unmetered (x >>= next) := by
  intro run examined
  have hfirst := hx run examined
  rcases hrun : x run with ⟨result, middle⟩
  rw [hrun] at hfirst
  cases result with
  | error cause => rw [Action.bind_of_error hfirst, Action.bind_of_error hrun]
  | ok a => rw [Action.bind_of_ok hfirst, Action.bind_of_ok hrun, hnext a]

theorem unmetered_forM {γ : Type} {f : γ → Action Failure (Run β) PUnit}
    (h : ∀ a, Unmetered (f a)) (xs : List γ) : Unmetered (xs.forM f) := by
  induction xs with
  | nil => exact fun _ _ => rfl
  | cons a rest ih => exact (h a).bind fun _ => ih

variable [ExecutionBackend β]

/-- The plan that reads the whole collection. -/
def QueryPlan.scanning (plan : QueryPlan) (collection : String) : QueryPlan :=
  { plan with access := .collectionScan collection }

/-- A statement whose plan reads the whole collection. -/
def executeScanning (query : Query) (collection : String) :
    Action Failure (Run β) ExecutionResult := fun run =>
  executePlanned query
    ((plan query (ExecutionBackend.indexDefinitions run.backend)).scanning collection)
    { run with examined := 0 }

/-- Where two plans select the same documents, what is done with them is the same. -/
theorem select_congr {query : Query} {plan plan' : QueryPlan} {run last : Run β}
    {kind : CommandKind} {collection : String}
    (hselect : ∀ documents middle,
      selectDocuments query plan kind collection run = (.ok documents, middle) →
        ∃ examined, selectDocuments query plan' kind collection run =
          (.ok documents, { middle with examined }))
    {answer : List Document → Action Failure (Run β) ExecutionResult}
    (hanswer : ∀ documents, Unmetered (answer documents)) {result : ExecutionResult}
    (h : (selectDocuments query plan kind collection >>= answer) run = (.ok result, last)) :
    ∃ examined, (selectDocuments query plan' kind collection >>= answer) run =
      (.ok result, { last with examined }) := by
  obtain ⟨documents, middle, hread, hrun⟩ := Action.bind_eq_ok.mp h
  obtain ⟨examined, hread'⟩ := hselect documents middle hread
  refine ⟨examined, ?_⟩
  rw [Action.bind_of_ok hread', hanswer documents middle examined, hrun]

/-- Two plans do the same to a collection if they select the same documents of it. -/
theorem executeCommand_congr {query : Query} {plan plan' : QueryPlan} {run last : Run β}
    {collection : String} (hselected : selectedCollection query.command = some collection)
    (hselect : ∀ kind documents middle,
      selectDocuments query plan kind collection run = (.ok documents, middle) →
        ∃ examined, selectDocuments query plan' kind collection run =
          (.ok documents, { middle with examined }))
    {result : ExecutionResult}
    (h : executeCommand query plan query.command run = (.ok result, last)) :
    ∃ examined, executeCommand query plan' query.command run =
      (.ok result, { last with examined }) := by
  have hloop : ∀ (documents : List Document) (change : Document → Action Failure β Unit)
      (answer : ExecutionResult), Unmetered (do
        documents.forM fun document => Run.onBackend (change document)
        return answer) := fun documents change answer =>
    (unmetered_forM (fun document => unmetered_onBackend (change document)) documents).bind
      fun _ _ _ => rfl
  cases hcommand : query.command with
  | get name =>
      rw [hcommand] at hselected h
      cases hselected
      exact select_congr (hselect .get) (fun documents _ _ => rfl) h
  | update name =>
      rw [hcommand] at hselected h
      cases hselected
      exact select_congr (hselect .update) (fun documents => hloop documents _ _) h
  | delete name =>
      rw [hcommand] at hselected h
      cases hselected
      exact select_congr (hselect .delete) (fun documents => hloop documents _ _) h
  | _ =>
      rw [hcommand] at hselected
      cases hselected

end Statements

section Agreement

variable {documents left : List Document} {predicate : Expression} {query : Query}
  {collection : String} {run last : Run (IndexedBackend MemoryBackend)}

/-- A filter leaves the same documents when some that it would not accept are not there. -/
theorem filterDocuments_filter {test : Document → Bool}
    (htest : ∀ document ∈ documents,
      (evaluatePredicate predicate document).toOption = some true → test document = true)
    (h : filterDocuments predicate documents = .ok left) :
    filterDocuments predicate (documents.filter test) = .ok left := by
  obtain ⟨hvalues, rfl⟩ := filterDocuments_eq_ok.mp h
  refine filterDocuments_eq_ok.mpr ⟨fun document hmem => ?_, ?_⟩
  · exact hvalues document (List.mem_filter.mp hmem).1
  · rw [List.filter_filter]
    apply List.filter_congr
    intro document hmem
    rw [Bool.eq_iff_iff, Bool.and_eq_true, decide_eq_true_eq]
    exact ⟨fun haccepted => ⟨haccepted, htest document hmem haccepted⟩, fun hboth => hboth.1⟩

/-- Where only the first stage may filter, the first predicate is that of the first stage. -/
theorem stages_of_firstPredicate (h : ∀ stage ∈ query.stages.tail, stage.isFilter = false)
    (hfirst : firstPredicate query.stages = some predicate) :
    ∃ rest, query.stages = .filter predicate :: rest := by
  cases hstages : query.stages with
  | nil =>
      rw [hstages] at hfirst
      cases hfirst
  | cons stage rest =>
      rw [hstages] at h hfirst
      cases stage with
      | filter other =>
          cases hfirst
          exact ⟨rest, rfl⟩
      | _ => cases (firstPredicate_of_not_filter h).2.symm.trans hfirst

/-- A document that the predicate accepts, although it has a zero where the index is asked for that
of the other sign. -/
def Overlooked (definition : IndexDefinition) (key : IndexKey) (predicate : Expression)
    (document : Document) : Prop :=
  (evaluatePredicate predicate document).toOption = some true ∧
    ∃ other, documentKey definition document = .ok (some other) ∧ ZeroKeys other key ∧ other ≠ key

/-- The plan of a query reads an index that leaves out a document which the filter accepts. -/
def Overlooks (backend : IndexedBackend MemoryBackend) (query : Query) : Prop :=
  ∃ collection, ∃ definition ∈ backend.indexes.definitions, ∃ key predicate documents,
    (plan query backend.indexes.definitions).access =
        .indexScan collection definition.name key ∧
      firstPredicate query.stages = some predicate ∧
      backend.inner.collections.get collection = some documents ∧
      ∃ document ∈ documents.values, Overlooked definition key predicate document

/-- No document of the collection has a zero where the index is asked for that of the other sign. -/
def ZerosAgree (backend : IndexedBackend MemoryBackend) (query : Query) : Prop :=
  ∀ collection index key,
    (plan query backend.indexes.definitions).access = .indexScan collection index key →
      ∀ definition ∈ backend.indexes.definitions, definition.name = index →
        ∀ documents, backend.inner.collections.get collection = some documents →
          ∀ document ∈ documents.values, ∀ other,
            documentKey definition document = .ok (some other) → ZeroKeys other key → other = key

theorem ZerosAgree.not_overlooks {backend : IndexedBackend MemoryBackend}
    (h : ZerosAgree backend query) : ¬ Overlooks backend query := by
  rintro ⟨collection, definition, hdefinition, key, predicate, documents, haccess, -, hget,
    document, hdocument, -, other, hother, hzeros, hdiffer⟩
  exact hdiffer (h collection _ key haccess definition hdefinition rfl documents hget document
    hdocument other hother hzeros)

variable [CharacterTables]

/-- What a plan with an index scan has found. -/
theorem exists_of_access {source : String} (hparse : parse source = .ok query)
    {definitions : List IndexDefinition} {scanned index : String} {key : IndexKey}
    (haccess : (plan query definitions).access = .indexScan scanned index key) :
    ∃ definition ∈ definitions, definition.name = index ∧ definition.collection = scanned ∧
      ∃ predicate rest, query.stages = .filter predicate :: rest ∧
        equalityKey definition.field predicate = some key ∧
        splitDots (joinDots definition.field) = definition.field := by
  obtain ⟨shallow, hsound⟩ := sound_of_parse hparse
  obtain ⟨-, hfound⟩ := findIndexScan_of_access haccess
  obtain ⟨definition, hmem, hname, hcollection, predicate, hpredicate, hkey⟩ :=
    exists_of_findIndexScan hfound
  obtain ⟨rest, hstages⟩ := stages_of_firstPredicate hsound.wellFormed.filter hpredicate
  have hpredicateSound : predicate.Sound (sourceGuard source shallow) :=
    hsound.stages _ (mem_of_firstPredicate hpredicate)
  obtain ⟨hne, hnamed⟩ := named_of_equalityKey hpredicateSound hkey
  exact ⟨definition, hmem, hname, hcollection, predicate, rest, hstages, hkey,
    splitDots_joinDots_of_named hne hnamed⟩

omit [CharacterTables] in
/-- A pipeline that succeeds on all documents of a collection has the same result on those that
an index finds. -/
theorem runPipeline_found {definition : IndexDefinition} {key : IndexKey} {rest : List Stage}
    (hstages : query.stages = .filter predicate :: rest)
    (hkey : equalityKey definition.field predicate = some key)
    (hsplit : splitDots (joinDots definition.field) = definition.field)
    (hnone : ∀ document ∈ documents, ¬ Overlooked definition key predicate document)
    {ids ids' : IdSource}
    (hrun : runPipeline documents query.stages ids = (.ok left, ids')) :
    runPipeline (documents.filter fun document => documentKey definition document = .ok (some key))
      query.stages ids = (.ok left, ids') := by
  rw [hstages, runPipeline, List.foldlM_cons] at hrun ⊢
  obtain ⟨kept, middle, hfilter, hrest⟩ := Action.bind_eq_ok.mp hrun
  have htest : ∀ document ∈ documents,
      (evaluatePredicate predicate document).toOption = some true →
        decide (documentKey definition document = .ok (some key)) = true := by
    intro document hmem haccepted
    obtain ⟨other, hother, hsame⟩ := documentKey_of_accepted hsplit hkey haccepted
    rcases hsame with rfl | hzero
    · exact decide_eq_true hother
    · by_cases hsame : other = key
      · exact decide_eq_true (hsame ▸ hother)
      · exact absurd ⟨haccepted, other, hother, hzero, hsame⟩ (hnone document hmem)
  have hfound : runStage (documents.filter fun document =>
      documentKey definition document = .ok (some key)) (.filter predicate) ids =
        (.ok kept, middle) := by
    cases hresult : filterDocuments predicate documents with
    | error cause =>
        rw [runStage, Action.ofExcept_apply, hresult] at hfilter
        cases hfilter
    | ok all =>
        rw [runStage, Action.ofExcept_apply, hresult] at hfilter
        rw [runStage, Action.ofExcept_apply, filterDocuments_filter htest hresult]
        exact hfilter
  exact (Action.bind_of_ok hfound).trans hrest

theorem accessDocuments_indexScan {plan : QueryPlan} {scanned index : String} {key : IndexKey}
    (haccess : plan.access = .indexScan scanned index key)
    (hread : IndexedBackend.scanIndex collection index key run.backend =
      (.ok documents, run.backend)) :
    accessDocuments plan collection run =
      (.ok documents, { run with examined := documents.length }) := by
  have hrun : Run.onBackend (IndexedBackend.scanIndex collection index key) run =
      (.ok documents, run) := by
    rw [Run.onBackend, Action.zoom, hread]
  rw [accessDocuments, haccess]
  exact Action.bind_of_ok hrun

theorem accessDocuments_scanning (plan : QueryPlan)
    (hread : IndexedBackend.scan collection run.backend = (.ok documents, run.backend)) :
    accessDocuments (plan.scanning collection) collection run =
      (.ok documents, { run with examined := documents.length }) := by
  have hrun : Run.onBackend (IndexedBackend.scan collection) run = (.ok documents, run) := by
    rw [Run.onBackend, Action.zoom, hread]
  exact Action.bind_of_ok hrun

/-- Where a scan reads documents, it reads all of the collection. -/
theorem scan_of_accessDocuments (h : run.backend.Coherent) {plan : QueryPlan}
    (hread : accessDocuments (plan.scanning collection) collection run = (.ok documents, last)) :
    IndexedBackend.scan collection run.backend = (.ok documents, run.backend) ∧
      last = { run with examined := documents.length } := by
  rcases IndexedBackend.scan_ends h collection with ⟨list, _, hscan, rfl, -⟩ |
    ⟨cause, _, hscan, rfl, -⟩
  · have hall := accessDocuments_scanning plan hscan
    obtain ⟨hlist, hlast⟩ := Prod.mk.inj (hread.symm.trans hall)
    cases hlist
    exact ⟨hscan, hlast⟩
  · have hrun : Run.onBackend (IndexedBackend.scan collection) run = (.error cause, run) := by
      rw [Run.onBackend, Action.zoom, hscan]
    have hfailed : accessDocuments (plan.scanning collection) collection run =
        (.error cause, run) :=
      Action.bind_of_error hrun
    cases hread.symm.trans hfailed

/-- An index scan selects what a scan of the collection does. -/
theorem selectDocuments_indexScan {source : String} (hparse : parse source = .ok query)
    (h : run.backend.Coherent) (hoverlooks : ¬ Overlooks run.backend query) {scanned index : String}
    {key : IndexKey}
    (haccess : (plan query run.backend.indexes.definitions).access = .indexScan scanned index key)
    {kind : CommandKind}
    (hselect : selectDocuments query
        ((plan query run.backend.indexes.definitions).scanning scanned) kind scanned run =
      (.ok left, last)) :
    ∃ examined,
      selectDocuments query (plan query run.backend.indexes.definitions) kind scanned run =
        (.ok left, { last with examined }) := by
  obtain ⟨definition, hmem, rfl, rfl, predicate, rest, hstages, hkey, hsplit⟩ :=
    exists_of_access hparse haccess
  obtain ⟨_, start, hvalid, hselect⟩ := Action.bind_eq_ok.mp hselect
  obtain rfl : run = start := (Prod.mk.inj hvalid).2
  obtain ⟨documents, middle, hread, hpipeline⟩ := Action.bind_eq_ok.mp hselect
  obtain ⟨hscan, rfl⟩ := scan_of_accessDocuments h hread
  have hfound := h.scanIndex hmem hscan key
  have hread' := accessDocuments_indexScan haccess hfound
  have hnone : ∀ document ∈ documents, ¬ Overlooked definition key predicate document := by
    obtain ⟨found, hget, rfl⟩ := IndexedBackend.values_of_scan hscan
    intro document hdocument hoverlooked
    have hfirst : firstPredicate query.stages = some predicate := by
      rw [hstages]
      rfl
    exact hoverlooks ⟨_, definition, hmem, key, predicate, found, haccess, hfirst, hget, document,
      hdocument, hoverlooked⟩
  rcases hrun : runPipeline documents query.stages run.ids with ⟨result, ids⟩
  rw [Run.onIds, Action.zoom, hrun] at hpipeline
  cases hpipeline
  have hpipeline' := runPipeline_found hstages hkey hsplit hnone hrun
  refine ⟨(documents.filter fun document =>
    documentKey definition document = .ok (some key)).length, ?_⟩
  rw [selectDocuments, Action.bind_of_ok hvalid, Action.bind_of_ok hread', Run.onIds, Action.zoom,
    hpipeline']

/-- A statement that succeeds with a scan of the collection does the same with the plan that is made
for it, if no document is overlooked. -/
theorem execute_of_executeScanning {source : String} (hparse : parse source = .ok query)
    (hexplain : query.explain = false)
    (hselected : selectedCollection query.command = some collection)
    (h : run.backend.Coherent) (hoverlooks : ¬ Overlooks run.backend query)
    {result : ExecutionResult}
    (hscan : executeScanning query collection run = (.ok result, last)) :
    ∃ examined, execute query run = (.ok result, { last with examined }) := by
  rw [executeScanning, executePlanned, if_neg (by simp [hexplain])] at hscan
  rw [execute, executePlanned, if_neg (by simp [hexplain])]
  have hplan := @plan_access query collection run.backend.indexes.definitions hselected
  cases hfound : findIndexScan collection query.stages run.backend.indexes.definitions with
  | none =>
      rw [hfound] at hplan
      have hsame : (plan query run.backend.indexes.definitions).scanning collection =
          plan query run.backend.indexes.definitions := by
        have haccess : (plan query run.backend.indexes.definitions).access =
            .collectionScan collection := hplan
        rw [QueryPlan.scanning, ← haccess]
      refine ⟨last.examined, Eq.trans ?_ hscan⟩
      exact congrArg
        (fun plan => executeCommand query plan query.command { run with examined := 0 }) hsame.symm
  | some found =>
      rw [hfound] at hplan
      refine executeCommand_congr hselected (fun kind documents middle hselect => ?_) hscan
      exact @selectDocuments_indexScan documents query { run with examined := 0 } middle _ source
        hparse h hoverlooks _ _ found.2 hplan kind hselect

/-- After any statements, one that reads documents and succeeds with a scan of the collection has
the same result and leaves the same documents, indexes and identifiers with the plan that is made
for it, unless it looks for a zero where one of the other sign is stored. -/
theorem index_scans_agree (queries : List Query) (ids : IdSource) {source : String}
    (hparse : parse source = .ok query) (hexplain : query.explain = false)
    (hselected : selectedCollection query.command = some collection)
    (hrun : run = executeAll queries ⟨IndexedBackend.empty, ids, 0⟩)
    (hzeros : ZerosAgree run.backend query) {result : ExecutionResult}
    (hscan : executeScanning query collection run = (.ok result, last)) :
    ∃ examined, execute query run = (.ok result, { last with examined }) := by
  have hcoherent : run.backend.Coherent := by
    rw [hrun]
    exact IndexedBackend.callsKeep_coherent.executeAll admissible_true queries
      IndexedBackend.coherent_empty
  exact execute_of_executeScanning hparse hexplain hselected hcoherent hzeros.not_overlooks hscan

end Agreement

/-- A collection with an index and one document. -/
def pupils : List Query :=
  [⟨false, .createCollection "students", [], ⟨0, 0⟩⟩,
    ⟨false, .createIndex "by_age" "students" [⟨["age"], ⟨0, 0⟩⟩], [], ⟨0, 0⟩⟩,
    ⟨false, .insert "students"
      (.object [⟨"age", .literal (.integer 5) ⟨0, 0⟩, ⟨0, 0⟩⟩] ⟨0, 0⟩), [], ⟨0, 0⟩⟩]

/-- The store after two pupils have been inserted under an index. -/
def pupilsRun : Run (IndexedBackend MemoryBackend) :=
  let _ := CharacterTables.ascii
  executeAll pupils ⟨IndexedBackend.empty, fun _ => .ok (.filled 1), 0⟩

/-- The plan for the query below scans the index. -/
theorem index_scans_agree_pupils : let _ := CharacterTables.ascii
    ∃ query, parse "students.get\x7bage==5\x7d" = .ok query ∧ ∃ result last examined,
      executeScanning query "students" pupilsRun = (.ok result, last) ∧
        execute query pupilsRun = (.ok result, { last with examined }) := by
  intro _
  have hfacts : (parse "students.get\x7bage==5\x7d").toOption.map (fun query =>
      (query.explain, selectedCollection query.command,
        (executeScanning query "students" pupilsRun).1.toOption.isSome)) =
      some (false, some "students", true) := by
    decide +kernel
  have hkeys : (pupilsRun.backend.inner.collections.entries.all fun entry =>
      entry.2.values.all fun document => pupilsRun.backend.indexes.definitions.all fun definition =>
        decide (documentKey definition document = .ok (some (.int64 5)))) = true := by
    decide +kernel
  cases hparse : parse "students.get\x7bage==5\x7d" with
  | error fault =>
      rw [hparse] at hfacts
      cases hfacts
  | ok query =>
      rw [hparse] at hfacts
      have hfacts := Option.some.inj hfacts
      obtain ⟨hexplain, hrest⟩ := Prod.mk.inj hfacts
      obtain ⟨hselected, hok⟩ := Prod.mk.inj hrest
      rcases hscan : executeScanning query "students" pupilsRun with ⟨result, last⟩
      rw [hscan] at hok
      cases result with
      | error cause => cases hok
      | ok result =>
          have hzeros : ZerosAgree pupilsRun.backend query := by
            rintro collection index key - definition hdefinition - documents hdocuments document
              hdocument other hother ⟨zero, _, rfl, -⟩
            have hentry := (SortedMap.mem_entries _).mpr hdocuments
            have hkey := List.all_eq_true.mp (List.all_eq_true.mp
              (List.all_eq_true.mp hkeys _ hentry) document hdocument) definition hdefinition
            cases hother.symm.trans (of_decide_eq_true hkey)
          obtain ⟨examined, hexecute⟩ := index_scans_agree pupils (fun _ => .ok (.filled 1)) hparse
            hexplain hselected rfl hzeros hscan
          exact ⟨query, rfl, result, last, examined, hscan, hexecute⟩

end NovaBase.Executor
