import NovaBase.Executor.Contents
import NovaBase.Executor.Statements

/-!
# What statements do to a store

A store has contents and may have more beside them. Its laws say what a call does
to the contents when it succeeds, and that a call that fails changes nothing unless
there is an excuse. From the laws follows what statements do: the effect of one that
succeeds, and what is left by one that fails.
-/

namespace NovaBase.Executor

open Lib NovaQl Index

/-- How the contents of a store are seen. -/
structure StoreView (β : Type) where
  /-- What holds of the store between calls. -/
  Invariant : β → Prop
  contents : β → Contents
  /-- Nothing that can be observed has changed. -/
  Same : β → β → Prop
  /-- A failure after the documents have changed. -/
  Excused : Failure → Prop

/-- The laws of a store. -/
structure StoreView.Lawful {β : Type} [ExecutionBackend β] (view : StoreView β) : Prop where
  refl : ∀ store, view.Same store store
  /-- The planner sees the indexes that there are. -/
  defined : ∀ {store}, view.Invariant store →
    ∀ definition ∈ ExecutionBackend.indexDefinitions store,
    (view.contents store).indexes definition.name = some definition
  scan : ∀ {store} collection, view.Invariant store →
    (ExecutionBackend.scan collection).Ends store
      (fun list next => store = next ∧ ∃ stored,
        (view.contents store).documents collection = some stored ∧
          Lists stored (fun _ => True) list)
      (fun _ next => store = next)
  scanIndex : ∀ {store definition} key, view.Invariant store →
    (view.contents store).indexes definition.name = some definition →
      (ExecutionBackend.scanIndex definition.collection definition.name key).Ends store
        (fun list next => store = next ∧ ∃ stored,
          (view.contents store).documents definition.collection = some stored ∧
          Lists stored (fun document => documentKey definition document = .ok (some key)) list)
        (fun _ next => store = next)
  insert : ∀ {store} collection document, view.Invariant store →
    (ExecutionBackend.insert collection document).Ends store
      (fun id next => view.Invariant next ∧ id = document.id ∧
        Inserted collection document (view.contents store) (view.contents next))
      (fun cause next => view.Invariant next ∧ (view.Same store next ∨ view.Excused cause ∧
        Inserted collection document (view.contents store) (view.contents next)))
  replace : ∀ {store collection stored document old}, view.Invariant store →
    (view.contents store).documents collection = some stored → stored document.id = some old →
      (ExecutionBackend.replace collection document).Ends store
        (fun _ next => view.Invariant next ∧ view.contents next =
          (view.contents store).put collection (Function.update stored document.id (some document)))
        (fun cause next => view.Invariant next ∧
          (store = next ∧ ¬ (view.contents store).Accepts collection document ∨
            view.Excused cause ∧ view.contents next = (view.contents store).put collection
              (Function.update stored document.id (some document))))
  delete : ∀ {store collection stored id old}, view.Invariant store →
    (view.contents store).documents collection = some stored → stored id = some old →
      (ExecutionBackend.delete collection id).Ends store
        (fun _ next => view.Invariant next ∧ view.contents next =
          (view.contents store).put collection (Function.update stored id none))
        (fun cause next => view.Invariant next ∧ view.Excused cause ∧ view.contents next =
          (view.contents store).put collection (Function.update stored id none))
  createCollection : ∀ {store} name, view.Invariant store →
    (ExecutionBackend.createCollection name).Ends store
      (fun _ next => view.Invariant next ∧ (view.contents store).documents name = none ∧
        view.contents next = (view.contents store).put name fun _ => none)
      (fun _ next => view.Invariant next ∧ view.Same store next)
  dropCollection : ∀ {store} name, view.Invariant store →
    (ExecutionBackend.dropCollection name).Ends store
      (fun _ next => view.Invariant next ∧ (view.contents store).documents name ≠ none ∧
        view.contents next = (view.contents store).drop name)
      (fun _ next => view.Invariant next ∧ view.Same store next)
  createIndex : ∀ {store} name collection field, view.Invariant store →
    (ExecutionBackend.createIndex name collection field).Ends store
      (fun _ next => view.Invariant next ∧ (view.contents store).documents collection ≠ none ∧
        (view.contents store).indexes name = none ∧
        view.contents next = (view.contents store).define ⟨name, collection, field⟩)
      (fun _ next => view.Invariant next ∧ view.Same store next)
  dropIndex : ∀ {store} name, view.Invariant store →
    (ExecutionBackend.dropIndex name).Ends store
      (fun _ next => view.Invariant next ∧ (view.contents store).indexes name ≠ none ∧
        view.contents next = (view.contents store).forget name)
      (fun _ next => view.Invariant next ∧ view.Same store next)

section Effects

/-- Documents in the place of those with the same identifiers. -/
def replaceAll (stored : NovaId → Option Document) (documents : List Document) :
    NovaId → Option Document :=
  fun id => (documents.find? fun document => document.id = id).or (stored id)

/-- The documents but for those with the identifiers of some. -/
def removeAll (stored : NovaId → Option Document) (documents : List Document) :
    NovaId → Option Document :=
  fun id => if id ∈ documents.map DocumentOf.id then none else stored id

/-- What a pipeline leaves of the documents of a collection that are wanted. -/
def Selected (stages : List Stage) (ids : IdSource) (wanted : Document → Prop)
    (stored : NovaId → Option Document) (left : List Document) : Prop :=
  ∃ read ids', Lists stored wanted read ∧ runPipeline read stages ids = (.ok left, ids')

/-- Documents with identifiers of a collection, each of them once. Their fields may be new. -/
structure Chosen (stored : NovaId → Option Document) (documents : List Document) : Prop where
  nodup : (documents.map DocumentOf.id).Nodup
  present : ∀ document ∈ documents, ∃ old, stored document.id = some old

/-- What a statement that succeeds does to the contents, with the identifiers that come next and the
documents that its plan leads to. -/
inductive Effect (stages : List Stage) (ids : IdSource) (wanted : Document → Prop) :
    Command → Contents → ExecutionResult → Contents → Prop
  | get {collection contents stored left} (hstored : contents.documents collection = some stored)
      (hselected : Selected stages ids wanted stored left) :
      Effect stages ids wanted (.get collection) contents (.documents left) contents
  | insert {collection expression contents document ids' next}
      (hdocument : newDocument expression ids = (.ok document, ids'))
      (hinserted : Inserted collection document contents next) :
      Effect stages ids wanted (.insert collection expression) contents (.inserted document.id) next
  | update {collection contents stored left} (hstored : contents.documents collection = some stored)
      (hselected : Selected stages ids wanted stored left) (hchosen : Chosen stored left) :
      Effect stages ids wanted (.update collection) contents (.updated left.length)
        (contents.put collection (replaceAll stored left))
  | delete {collection contents stored left} (hstored : contents.documents collection = some stored)
      (hselected : Selected stages ids wanted stored left) (hchosen : Chosen stored left) :
      Effect stages ids wanted (.delete collection) contents (.deleted left.length)
        (contents.put collection (removeAll stored left))
  | createCollection {name} {contents : Contents} (hnew : contents.documents name = none) :
      Effect stages ids wanted (.createCollection name) contents (.collectionCreated name)
        (contents.put name fun _ => none)
  | dropCollection {name} {contents : Contents} (hstored : contents.documents name ≠ none) :
      Effect stages ids wanted (.dropCollection name) contents (.collectionDropped name)
        (contents.drop name)
  | createIndex {name collection} {field : Path} {contents : Contents}
      (hstored : contents.documents collection ≠ none) (hnew : contents.indexes name = none) :
      Effect stages ids wanted (.createIndex name collection [field]) contents (.indexCreated name)
        (contents.define ⟨name, collection, field.segments⟩)
  | dropIndex {name} {contents : Contents} (hdefined : contents.indexes name ≠ none) :
      Effect stages ids wanted (.dropIndex name) contents (.indexDropped name)
        (contents.forget name)

/-- An update that an index stops: the documents before the one that it refuses have been
replaced. -/
inductive Stopped (stages : List Stage) (ids : IdSource) (wanted : Document → Prop) :
    Command → Contents → Contents → Prop
  | update {collection contents stored done document rest}
      (hstored : contents.documents collection = some stored)
      (hselected : Selected stages ids wanted stored (done ++ document :: rest))
      (hrefused : ¬ contents.Accepts collection document) :
      Stopped stages ids wanted (.update collection) contents
        (contents.put collection (replaceAll stored done))

/-- A statement that has made a change with a failure: this change and those before it stay. -/
inductive Overrun (stages : List Stage) (ids : IdSource) (wanted : Document → Prop) :
    Command → Contents → Contents → Prop
  | insert {collection expression contents document ids' next}
      (hdocument : newDocument expression ids = (.ok document, ids'))
      (hinserted : Inserted collection document contents next) :
      Overrun stages ids wanted (.insert collection expression) contents next
  | update {collection contents stored done document rest}
      (hstored : contents.documents collection = some stored)
      (hselected : Selected stages ids wanted stored (done ++ document :: rest)) :
      Overrun stages ids wanted (.update collection) contents
        (contents.put collection (replaceAll stored (done ++ [document])))
  | delete {collection contents stored done document rest}
      (hstored : contents.documents collection = some stored)
      (hselected : Selected stages ids wanted stored (done ++ document :: rest)) :
      Overrun stages ids wanted (.delete collection) contents
        (contents.put collection (removeAll stored (done ++ [document])))

variable {stored : NovaId → Option Document} {documents done : List Document} {document : Document}

@[simp] theorem replaceAll_nil : replaceAll stored [] = stored := rfl

@[simp] theorem removeAll_nil : removeAll stored [] = stored := rfl

/-- Replacing one more document is an update at its identifier. -/
theorem replaceAll_append (hnew : document.id ∉ done.map DocumentOf.id) :
    replaceAll stored (done ++ [document]) =
      Function.update (replaceAll stored done) document.id (some document) := by
  funext id
  rw [replaceAll, List.find?_append, Function.update_apply]
  split
  · rename_i hid
    subst hid
    have hnone : (done.find? fun other => other.id = document.id) = none := by
      rw [List.find?_eq_none]
      intro other hother hsame
      rw [← of_decide_eq_true hsame] at hnew
      exact hnew (List.mem_map_of_mem hother)
    simp [hnone]
  · rename_i hid
    simp [replaceAll, Ne.symm hid]

/-- Deleting one more document is an update at its identifier. -/
theorem removeAll_append :
    removeAll stored (done ++ [document]) =
      Function.update (removeAll stored done) document.id none := by
  funext id
  rw [removeAll, Function.update_apply]
  by_cases hid : id = document.id
  · simp [hid]
  · simp [removeAll, hid]

/-- Documents derived from a listing are stored ones, each taken once. -/
theorem chosen_of_derives {wanted : Document → Prop} {read left : List Document}
    (hread : Lists stored wanted read) (hleft : Derives (fun _ => True) read left) :
    Chosen stored left := by
  constructor
  · obtain ⟨middle, hperm, hsublist⟩ := hleft.ids
    exact hperm.nodup_iff.mp (hread.nodup.sublist hsublist)
  · intro document hmem
    obtain ⟨old, hold, hid⟩ := List.mem_map.mp (hleft.ids.subset (List.mem_map_of_mem hmem))
    rw [← hid]
    exact ⟨old, ((hread.mem old).mp hold).1⟩

end Effects

section Loops

variable {β : Type} [ExecutionBackend β] {view : StoreView β} {store : β}
  {stored : NovaId → Option Document} {collection : String} {left : List Document}

/-- The documents that have been chosen are new at each step of a loop over them. -/
theorem Chosen.fresh {done rest : List Document} {document : Document}
    (h : Chosen stored (done ++ document :: rest)) :
    document.id ∉ done.map DocumentOf.id ∧ ∃ old, stored document.id = some old := by
  obtain ⟨hnodup, hpresent⟩ := h
  rw [List.map_append, List.map_cons] at hnodup
  refine ⟨fun hmem => ?_, hpresent document (by simp)⟩
  exact (List.nodup_append.mp hnodup).2.2 _ hmem _ List.mem_cons_self rfl

/-- Documents are replaced up to one that an index refuses, or with which there is an excuse. -/
theorem StoreView.Lawful.replaceAll_ends (h : view.Lawful) (hstore : view.Invariant store)
    (hstored : (view.contents store).documents collection = some stored)
    (hchosen : Chosen stored left) :
    (left.forM fun document => ExecutionBackend.replace collection document).Ends store
      (fun _ next => view.Invariant next ∧
        view.contents next = (view.contents store).put collection (replaceAll stored left))
      (fun cause next => view.Invariant next ∧ ∃ done document rest,
        left = done ++ document :: rest ∧
        (view.contents next = (view.contents store).put collection (replaceAll stored done) ∧
            ¬ (view.contents store).Accepts collection document ∨
          view.Excused cause ∧ view.contents next =
            (view.contents store).put collection (replaceAll stored (done ++ [document])))) := by
  apply @Action.Ends.forM _ _ _ _ _ _ left (fun done next => view.Invariant next ∧
    view.contents next = (view.contents store).put collection (replaceAll stored done))
  · exact ⟨hstore, (Contents.put_stored hstored).symm⟩
  · rintro done document rest next rfl ⟨hnext, hcontents⟩
    obtain ⟨hnew, old, hold⟩ := hchosen.fresh
    have hget : (view.contents next).documents collection = some (replaceAll stored done) := by
      rw [hcontents, Contents.put_documents]
    have hthere : ∃ found, replaceAll stored done document.id = some found := by
      rw [replaceAll, hold]
      cases done.find? fun other => other.id = document.id with
      | none => exact ⟨old, rfl⟩
      | some found => exact ⟨found, rfl⟩
    obtain ⟨found, hfound⟩ := hthere
    have hput : (view.contents next).put collection
        (Function.update (replaceAll stored done) document.id (some document)) =
        (view.contents store).put collection (replaceAll stored (done ++ [document])) := by
      rw [hcontents, Contents.put_put, replaceAll_append hnew]
    have haccepts : (view.contents next).Accepts collection document ↔
        (view.contents store).Accepts collection document := by
      rw [hcontents]
      rfl
    apply (h.replace hnext hget hfound).weaken
    · exact fun _ last hlast => ⟨hlast.1, hlast.2.trans hput⟩
    · rintro cause last ⟨hlast, ⟨rfl, hrefused⟩ | ⟨hexcused, hchanged⟩⟩
      · exact ⟨hlast, done, document, rest, rfl, .inl ⟨hcontents, mt haccepts.mpr hrefused⟩⟩
      · exact ⟨hlast, done, document, rest, rfl, .inr ⟨hexcused, hchanged.trans hput⟩⟩

/-- Deleting documents one by one removes them all, or stops at the first whose snapshot is too
large. -/
theorem StoreView.Lawful.deleteAll_ends (h : view.Lawful) (hstore : view.Invariant store)
    (hstored : (view.contents store).documents collection = some stored)
    (hchosen : Chosen stored left) :
    (left.forM fun document => ExecutionBackend.delete collection document.id).Ends store
      (fun _ next => view.Invariant next ∧
        view.contents next = (view.contents store).put collection (removeAll stored left))
      (fun cause next => view.Invariant next ∧ view.Excused cause ∧ ∃ done document rest,
        left = done ++ document :: rest ∧ view.contents next =
          (view.contents store).put collection (removeAll stored (done ++ [document]))) := by
  apply @Action.Ends.forM _ _ _ _ _ _ left (fun done next => view.Invariant next ∧
    view.contents next = (view.contents store).put collection (removeAll stored done))
  · exact ⟨hstore, (Contents.put_stored hstored).symm⟩
  · rintro done document rest next rfl ⟨hnext, hcontents⟩
    obtain ⟨hnew, old, hold⟩ := hchosen.fresh
    have hget : (view.contents next).documents collection = some (removeAll stored done) := by
      rw [hcontents, Contents.put_documents]
    have hthere : removeAll stored done document.id = some old := by
      rw [removeAll, if_neg hnew, hold]
    have hput : (view.contents next).put collection
        (Function.update (removeAll stored done) document.id none) =
        (view.contents store).put collection (removeAll stored (done ++ [document])) := by
      rw [hcontents, Contents.put_put, removeAll_append]
    apply (h.delete hnext hget hthere).weaken
    · exact fun _ last hlast => ⟨hlast.1, hlast.2.trans hput⟩
    · rintro cause last ⟨hlast, hexcused, hchanged⟩
      exact ⟨hlast, hexcused, done, document, rest, rfl, hchanged.trans hput⟩

end Loops

section Statements

variable {β : Type} [ExecutionBackend β] {view : StoreView β} {run : Run β} {query : Query}
  {collection : String}

omit [ExecutionBackend β] in
theorem Run.onBackend_forM_ends {γ : Type} {f : γ → Action Failure β PUnit} {xs : List γ}
    {Q : PUnit → β → Prop} {E : Failure → β → Prop} (h : (xs.forM f).Ends run.backend Q E) :
    (xs.forM fun a => Run.onBackend (f a)).Ends run (fun result next => Q result next.backend)
      (fun cause next => E cause next.backend) := by
  have hcall : ∀ a, (Run.onBackend (f a)).Projects Run.backend (f a) := fun _ _ => ⟨rfl, rfl⟩
  have hprojects : (xs.forM fun a => Run.onBackend (f a)).Projects Run.backend (xs.forM f) :=
    .forM hcall xs
  rcases hloop : (xs.forM fun a => Run.onBackend (f a)) run with ⟨result, next⟩
  have happly := hprojects.apply run
  rw [hloop] at happly
  rcases h with ⟨value, last, hok, hlast⟩ | ⟨cause, last, herror, hlast⟩
  · obtain ⟨rfl, rfl⟩ := Prod.mk.inj (happly.symm.trans hok)
    exact .inl ⟨value, next, hloop, hlast⟩
  · obtain ⟨rfl, rfl⟩ := Prod.mk.inj (happly.symm.trans herror)
    exact .inr ⟨cause, next, hloop, hlast⟩

/-- The documents that the plan of a query leads to. -/
def StoreView.Wanted (view : StoreView β) (query : Query) (store : β) : Document → Prop :=
  (view.contents store).Wants (plan query (ExecutionBackend.indexDefinitions store)).access

/-- A plan reads the documents that it leads to, all of them and in the order of their ids. -/
theorem StoreView.Lawful.accessDocuments_ends (h : view.Lawful)
    (hselected : selectedCollection query.command = some collection)
    (hrun : view.Invariant run.backend) :
    (accessDocuments (plan query (ExecutionBackend.indexDefinitions run.backend))
      collection).Ends run (fun read next => (next.backend = run.backend ∧ ∃ stored,
        (view.contents run.backend).documents collection = some stored ∧
        Lists stored (view.Wanted query run.backend) read) ∧ next.ids = run.ids)
      (fun _ next => next.backend = run.backend) := by
  rw [StoreView.Wanted]
  have hplan := @plan_access query collection (ExecutionBackend.indexDefinitions run.backend)
    hselected
  cases hfound : findIndexScan collection query.stages
      (ExecutionBackend.indexDefinitions run.backend) with
  | none =>
      rw [hfound] at hplan
      apply @Executor.accessDocuments_ends _ _ run
        (fun read next => next = run.backend ∧ ∃ stored,
          (view.contents run.backend).documents collection = some stored ∧ Lists stored _ read)
        (fun _ next => next = run.backend)
      · intro scanned index key haccess
        cases haccess.symm.trans hplan
      · intro _ _
        rw [hplan]
        apply (h.scan collection hrun).weaken
        · exact fun _ _ hlist => ⟨hlist.1.symm, hlist.2⟩
        · exact fun _ _ hsame => hsame.symm
      · exact fun _ => rfl
  | some found =>
      obtain ⟨index, key⟩ := found
      rw [hfound] at hplan
      obtain ⟨definition, hmem, rfl, rfl, -⟩ := exists_of_findIndexScan hfound
      have hdefined := h.defined hrun definition hmem
      have hwants : (view.contents run.backend).Wants
          (plan query (ExecutionBackend.indexDefinitions run.backend)).access =
          fun document => documentKey definition document = .ok (some key) := by
        funext document
        rw [hplan]
        apply propext
        constructor
        · rintro ⟨other, hother, hkey⟩
          exact Option.some.inj (hdefined.symm.trans hother) ▸ hkey
        · exact fun hkey => ⟨definition, hdefined, hkey⟩
      rw [hwants]
      apply @Executor.accessDocuments_ends _ _ run
        (fun read next => next = run.backend ∧ ∃ stored,
          (view.contents run.backend).documents definition.collection = some stored ∧
          Lists stored (fun document => documentKey definition document = .ok (some key)) read)
        (fun _ next => next = run.backend)
      · intro scanned index other haccess
        cases haccess.symm.trans hplan
        apply (h.scanIndex key hrun hdefined).weaken
        · exact fun _ _ hlist => ⟨hlist.1.symm, hlist.2⟩
        · exact fun _ _ hsame => hsame.symm
      · intro scanned haccess
        cases haccess.symm.trans hplan
      · exact fun _ => rfl

/-- What is selected has been read and gone through the pipeline. -/
theorem StoreView.Lawful.selectDocuments_ends (h : view.Lawful) (kind : CommandKind)
    (hselected : selectedCollection query.command = some collection)
    (hrun : view.Invariant run.backend) :
    (selectDocuments query (plan query (ExecutionBackend.indexDefinitions run.backend)) kind
        collection).Ends run
      (fun left next => next.backend = run.backend ∧ ∃ stored,
        (view.contents run.backend).documents collection = some stored ∧
        Selected query.stages run.ids (view.Wanted query run.backend) stored left ∧
        (kind = .update ∨ kind = .delete → Chosen stored left))
      (fun _ next => next.backend = run.backend) := by
  cases hvalid : validateStages query.stages kind with
  | error cause =>
      refine .inr ⟨.error cause, run, Action.bind_of_error ?_, rfl⟩
      rw [Action.ofExcept_apply, hvalid]
      rfl
  | ok _ =>
      have hchecked : (Action.ofExcept (validateStages query.stages kind).lift :
          Action Failure (Run β) Unit) run = (.ok (), run) := by
        rw [Action.ofExcept_apply, hvalid]
        rfl
      apply Action.Ends.after hchecked
      apply (h.accessDocuments_ends hselected hrun).bind
      rintro read next ⟨⟨hsame, stored, hstored, hread⟩, hids⟩
      have hpipeline : (runPipeline read query.stages).Ends next.ids
          (fun left ids' => runPipeline read query.stages next.ids = (.ok left, ids'))
          (fun _ _ => True) := by
        rcases hresult : runPipeline read query.stages next.ids with ⟨result, ids'⟩
        cases result with
        | ok left => exact .inl ⟨left, ids', hresult, rfl⟩
        | error cause => exact .inr ⟨cause, ids', hresult, trivial⟩
      apply (Run.onIds_ends hpipeline).weaken
      · rintro left last ⟨hlast, hleft⟩
        refine ⟨hlast.trans hsame, stored, hstored, ⟨read, _, hread, hids ▸ hleft⟩, ?_⟩
        intro hkind
        have hderives := @runPipeline_ends (fun _ => True) admissible_true.assigned _
          (writing_of_validateStages hvalid hkind) read next.ids
        exact chosen_of_derives hread (hderives.of_ok hleft)
      · exact fun _ _ hlast => hlast.1.trans hsame

/-- How a statement ends that succeeds. -/
def Succeeded (view : StoreView β) (query : Query) (run : Run β) (result : ExecutionResult)
    (next : Run β) : Prop :=
  view.Invariant next.backend ∧ Effect query.stages run.ids (view.Wanted query run.backend)
    query.command (view.contents run.backend) result (view.contents next.backend)

/-- How a statement ends that fails. -/
def Failed (view : StoreView β) (query : Query) (run : Run β) (cause : Failure) (next : Run β) :
    Prop :=
  view.Invariant next.backend ∧ (view.Same run.backend next.backend ∨
    Stopped query.stages run.ids (view.Wanted query run.backend) query.command
      (view.contents run.backend) (view.contents next.backend) ∨
    view.Excused cause ∧ Overrun query.stages run.ids (view.Wanted query run.backend) query.command
      (view.contents run.backend) (view.contents next.backend))

omit [ExecutionBackend β] in
/-- A run that fails with the contents unchanged is a failed one. -/
theorem Failed.of_same [ExecutionBackend β] {cause : Failure} {next : Run β}
    (hnext : view.Invariant next.backend) (hsame : view.Same run.backend next.backend) :
    Failed view query run cause next := ⟨hnext, .inl hsame⟩

/-- So is a run that has not called the store. -/
theorem StoreView.Lawful.failed_of_unread (h : view.Lawful) (hrun : view.Invariant run.backend)
    {cause : Failure} {next : Run β} (hnext : next.backend = run.backend) :
    Failed view query run cause next := by
  apply Failed.of_same
  · rw [hnext]
    exact hrun
  · rw [hnext]
    exact h.refl run.backend

/-- What an insertion does. -/
theorem StoreView.Lawful.insert_ends (h : view.Lawful) {document : Expression}
    (hcommand : query.command = .insert collection document) (hrun : view.Invariant run.backend) :
    Action.Ends (do
      let inserted ← Run.onIds (newDocument document)
      let id ← Run.onBackend (ExecutionBackend.insert collection inserted)
      return ExecutionResult.inserted id) run
      (Succeeded view query run) (Failed view query run) := by
  have hcreated : (newDocument document).Ends run.ids
      (fun inserted ids' => newDocument document run.ids = (.ok inserted, ids'))
      (fun _ _ => True) := by
    rcases hresult : newDocument document run.ids with ⟨result, ids'⟩
    cases result with
    | ok inserted => exact .inl ⟨inserted, ids', hresult, rfl⟩
    | error cause => exact .inr ⟨cause, ids', hresult, trivial⟩
  apply (Run.onIds_ends hcreated).seq
  · rintro inserted next ⟨hsame, hinserted⟩
    have hcall := h.insert collection inserted (hsame ▸ hrun)
    apply (Run.onBackend_ends hcall).seq
    · rintro _ last ⟨⟨hlast, rfl, hchanged⟩, -⟩
      rw [hsame] at hchanged
      refine .pure ⟨hlast, ?_⟩
      rw [hcommand]
      exact .insert hinserted hchanged
    · rintro cause last ⟨⟨hlast, hreason⟩, -⟩
      rw [hsame] at hreason
      rcases hreason with hkept | ⟨hexcused, hchanged⟩
      · exact .of_same hlast hkept
      · refine ⟨hlast, .inr (.inr ⟨hexcused, ?_⟩)⟩
        rw [hcommand]
        exact .insert hinserted hchanged
  · exact fun _ _ hlast => h.failed_of_unread hrun hlast.1

/-- What an update does. -/
theorem StoreView.Lawful.update_ends (h : view.Lawful)
    (hcommand : query.command = .update collection) (hrun : view.Invariant run.backend) :
    Action.Ends (do
      let documents ← selectDocuments query
        (plan query (ExecutionBackend.indexDefinitions run.backend)) .update collection
      documents.forM fun document =>
        Run.onBackend (ExecutionBackend.replace collection document)
      return ExecutionResult.updated documents.length) run
      (Succeeded view query run) (Failed view query run) := by
  have hselects := h.selectDocuments_ends .update (by rw [hcommand]; rfl) hrun
  apply hselects.seq
  · rintro left next ⟨hsame, stored, hstored, hselected, hchosen⟩
    have hloop := h.replaceAll_ends (hsame ▸ hrun) (hsame ▸ hstored) (hchosen (.inl rfl))
    apply (Run.onBackend_forM_ends hloop).seq
    · rintro _ last ⟨hlast, hcontents⟩
      refine .pure ⟨hlast, ?_⟩
      rw [hcommand, hcontents, hsame]
      exact .update hstored hselected (hchosen (.inl rfl))
    · rintro cause last ⟨hlast, done, document, rest, rfl, hreason⟩
      rw [hsame] at hreason
      rcases hreason with ⟨hcontents, hrefused⟩ | ⟨hexcused, hcontents⟩
      · refine ⟨hlast, .inr (.inl ?_)⟩
        rw [hcommand, hcontents]
        exact .update hstored hselected hrefused
      · refine ⟨hlast, .inr (.inr ⟨hexcused, ?_⟩)⟩
        rw [hcommand, hcontents]
        exact .update hstored hselected
  · exact fun _ _ hsame => h.failed_of_unread hrun hsame

/-- What a deletion does. -/
theorem StoreView.Lawful.delete_ends (h : view.Lawful)
    (hcommand : query.command = .delete collection) (hrun : view.Invariant run.backend) :
    Action.Ends (do
      let documents ← selectDocuments query
        (plan query (ExecutionBackend.indexDefinitions run.backend)) .delete collection
      documents.forM fun document =>
        Run.onBackend (ExecutionBackend.delete collection document.id)
      return ExecutionResult.deleted documents.length) run
      (Succeeded view query run) (Failed view query run) := by
  have hselects := h.selectDocuments_ends .delete (by rw [hcommand]; rfl) hrun
  apply hselects.seq
  · rintro left next ⟨hsame, stored, hstored, hselected, hchosen⟩
    have hloop := h.deleteAll_ends (hsame ▸ hrun) (hsame ▸ hstored) (hchosen (.inr rfl))
    apply (Run.onBackend_forM_ends hloop).seq
    · rintro _ last ⟨hlast, hcontents⟩
      refine .pure ⟨hlast, ?_⟩
      rw [hcommand, hcontents, hsame]
      exact .delete hstored hselected (hchosen (.inr rfl))
    · rintro cause last ⟨hlast, hexcused, done, document, rest, rfl, hcontents⟩
      refine ⟨hlast, .inr (.inr ⟨hexcused, ?_⟩)⟩
      rw [hcommand, hcontents, hsame]
      exact .delete hstored hselected
  · exact fun _ _ hsame => h.failed_of_unread hrun hsame

/-- A command on collections or indexes makes one call, which changes nothing if it fails. -/
theorem StoreView.Lawful.definition_ends {call : Action Failure β Unit} {result : ExecutionResult}
    {Q : β → Prop} (hcall : call.Ends run.backend (fun _ next => view.Invariant next ∧ Q next)
      (fun _ next => view.Invariant next ∧ view.Same run.backend next))
    (heffect : ∀ next, Q next → Effect query.stages run.ids (view.Wanted query run.backend)
      query.command (view.contents run.backend) result (view.contents next)) :
    Action.Ends (do
      Run.onBackend call
      return result) run (Succeeded view query run) (Failed view query run) := by
  apply (Run.onBackend_ends hcall).seq
  · rintro _ next ⟨⟨hnext, hchanged⟩, -⟩
    exact .pure ⟨hnext, heffect next.backend hchanged⟩
  · rintro _ next ⟨⟨hnext, hsame⟩, -⟩
    exact .of_same hnext hsame

/-- A command does what its success or failure says. -/
theorem StoreView.Lawful.executeCommand_ends (h : view.Lawful) (query : Query)
    (hrun : view.Invariant run.backend) :
    (executeCommand query (plan query (ExecutionBackend.indexDefinitions run.backend))
        query.command).Ends run (Succeeded view query run) (Failed view query run) := by
  cases hcommand : query.command with
  | get collection =>
      apply (h.selectDocuments_ends .get (by rw [hcommand]; rfl) hrun).seq
      · rintro left next ⟨hsame, stored, hstored, hselected, -⟩
        refine .pure ⟨hsame ▸ hrun, ?_⟩
        rw [hcommand, hsame]
        exact .get hstored hselected
      · exact fun _ _ hsame => h.failed_of_unread hrun hsame
  | insert collection document => exact h.insert_ends hcommand hrun
  | update collection => exact h.update_ends hcommand hrun
  | delete collection => exact h.delete_ends hcommand hrun
  | createCollection name =>
      apply definition_ends (h.createCollection name hrun)
      rintro next ⟨hnew, hcontents⟩
      rw [hcommand, hcontents]
      exact .createCollection hnew
  | dropCollection name =>
      apply definition_ends (h.dropCollection name hrun)
      rintro next ⟨hstored, hcontents⟩
      rw [hcommand, hcontents]
      exact .dropCollection hstored
  | createIndex name collection fields =>
      match fields with
      | [field] =>
          apply definition_ends (h.createIndex name collection field.segments hrun)
          rintro next ⟨hstored, hnew, hcontents⟩
          rw [hcommand, hcontents]
          exact .createIndex hstored hnew
      | [] => exact .inr ⟨_, run, rfl, h.failed_of_unread hrun rfl⟩
      | _ :: _ :: _ => exact .inr ⟨_, run, rfl, h.failed_of_unread hrun rfl⟩
  | dropIndex name =>
      apply definition_ends (h.dropIndex name hrun)
      rintro next ⟨hdefined, hcontents⟩
      rw [hcommand, hcontents]
      exact .dropIndex hdefined

/-- A statement that is explained shows its plan. Any other has its effect, or fails. -/
theorem StoreView.Lawful.execute_ends (h : view.Lawful) (query : Query)
    (hrun : view.Invariant run.backend) :
    (execute query).Ends run
      (fun result next => (query.explain = true ∧ next.backend = run.backend ∧
          result = .explained (plan query (ExecutionBackend.indexDefinitions run.backend))) ∨
        query.explain = false ∧ Succeeded view query run result next)
      (Failed view query run) := by
  change Action.Ends
    (executePlanned query (plan query (ExecutionBackend.indexDefinitions run.backend)))
    { run with examined := 0 } _ _
  rw [executePlanned]
  by_cases hexplain : query.explain = true
  · rw [if_pos hexplain]
    exact .pure (.inl ⟨hexplain, rfl, rfl⟩)
  · rw [if_neg hexplain]
    have hends := @StoreView.Lawful.executeCommand_ends β _ view { run with examined := 0 } h query
      hrun
    apply hends.weaken
    · exact fun _ _ hnext => .inr ⟨Bool.eq_false_iff.mpr hexplain, hnext⟩
    · exact fun _ _ hfailed => hfailed

theorem StoreView.Lawful.preserves_execute (h : view.Lawful) (query : Query) :
    (execute query).Preserves fun run : Run β => view.Invariant run.backend := by
  apply Action.Preserves.of_ends
  intro run hrun
  apply (h.execute_ends query hrun).weaken
  · rintro _ next (⟨-, hsame, -⟩ | ⟨-, hnext, -⟩)
    · rw [hsame]
      exact hrun
    · exact hnext
  · exact fun _ _ hfailed => hfailed.1

/-- Statements one after the other keep the invariant of the store. -/
theorem StoreView.Lawful.executeAll (h : view.Lawful) (queries : List Query)
    (hrun : view.Invariant run.backend) :
    view.Invariant (executeAll queries run).backend := by
  induction queries generalizing run with
  | nil => exact hrun
  | cons query queries ih => exact ih (h.preserves_execute query run hrun)

end Statements

namespace MemoryBackend

/-- A store in memory has no excuse. -/
def view : StoreView MemoryBackend where
  Invariant backend := Keyed backend.documents
  contents := contents
  Same backend next := backend = next
  Excused _ := False

theorem accepts (backend : MemoryBackend) (collection : String) (document : Document) :
    backend.contents.Accepts collection document := nofun

theorem contents_eq_put {backend next : MemoryBackend} {collection : String}
    {stored : NovaId → Option Document}
    (h : next.documents = Function.update backend.documents collection (some stored)) :
    next.contents = backend.contents.put collection stored :=
  congrArg (Contents.mk · _) h

/-- No index stops an update. -/
theorem not_stopped {stages : List Stage} {ids : IdSource} {wanted : Document → Prop}
    {command : Command} {backend : MemoryBackend} {next : Contents} :
    ¬ Stopped stages ids wanted command backend.contents next := by
  rintro ⟨-, -, hrefused⟩
  exact hrefused (accepts backend _ _)

/-- Without indexes every plan leads to all documents. -/
theorem wanted_eq (query : Query) (backend : MemoryBackend) :
    view.Wanted query backend = fun _ => True := by
  funext document
  apply propext
  refine ⟨fun _ => trivial, fun _ => ?_⟩
  rw [StoreView.Wanted]
  cases haccess : (plan query (ExecutionBackend.indexDefinitions backend)).access with
  | indexScan scanned index key =>
      obtain ⟨_, hmem, -⟩ := exists_of_findIndexScan (findIndexScan_of_access haccess).2
      cases hmem
  | _ => trivial

/-- The store in memory satisfies the laws of a store, without any index. -/
theorem lawful : view.Lawful where
  refl _ := rfl
  defined _ := nofun
  scan {backend} collection h := by
    apply (scan_ends h collection).weaken
    · rintro list _ ⟨rfl, stored, hstored, hlist, hsorted⟩
      exact ⟨rfl, stored, hstored, lists_all hlist hsorted⟩
    · exact fun _ _ hfailed => hfailed.1.symm
  scanIndex _ _ := nofun
  insert {backend} collection document h := by
    apply (insert_ends backend collection document).weaken
    · rintro _ next ⟨rfl, stored, hstored, hnew, hnext⟩
      refine ⟨?_, rfl, stored, hstored, hnew, contents_eq_put hnext⟩
      change Keyed next.documents
      rw [hnext]
      apply keyed_document backend h hstored
      rintro _ ⟨⟩
      rfl
    · rintro _ _ rfl
      exact ⟨h, .inl rfl⟩
  replace {backend} collection stored document old h hstored hold := by
    apply (replace_ends backend collection document).weaken
    · rintro _ next ⟨found, -, hfound, -, hnext⟩
      obtain rfl := Option.some.inj (hstored.symm.trans hfound)
      refine ⟨?_, contents_eq_put hnext⟩
      change Keyed next.documents
      rw [hnext]
      apply keyed_document backend h hstored
      rintro _ ⟨⟩
      rfl
    · rintro _ _ ⟨-, hlacks⟩
      cases (hlacks stored hstored).symm.trans hold
  delete {backend} collection stored id old h hstored hold := by
    apply (delete_ends backend collection id).weaken
    · rintro _ next ⟨found, -, hfound, -, hnext⟩
      obtain rfl := Option.some.inj (hstored.symm.trans hfound)
      refine ⟨?_, contents_eq_put hnext⟩
      change Keyed next.documents
      rw [hnext]
      apply keyed_document backend h hstored
      nofun
    · rintro _ _ ⟨-, hlacks⟩
      cases (hlacks stored hstored).symm.trans hold
  createCollection {backend} name h := by
    apply (createCollection_ends backend name).weaken
    · rintro _ next ⟨hnone, hnext⟩
      refine ⟨?_, hnone, contents_eq_put hnext⟩
      change Keyed next.documents
      rw [hnext]
      apply keyed_collection backend h
      rintro _ _ ⟨⟩
      rfl
    · rintro _ _ rfl
      exact ⟨h, rfl⟩
  dropCollection {backend} name h := by
    apply (dropCollection_ends backend name).weaken
    · rintro _ next ⟨hstored, hnext⟩
      refine ⟨?_, hstored, congrArg (Contents.mk · _) hnext⟩
      change Keyed next.documents
      rw [hnext]
      apply keyed_collection backend h
      nofun
    · rintro _ _ rfl
      exact ⟨h, rfl⟩
  createIndex name collection field h := .inr ⟨_, _, rfl, h, rfl⟩
  dropIndex name h := .inr ⟨_, _, rfl, h, rfl⟩

end MemoryBackend

end NovaBase.Executor
