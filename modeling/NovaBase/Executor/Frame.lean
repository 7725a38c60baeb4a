import NovaBase.Executor.Execute

/-!
# What a query leaves as it is

A query changes a backend only through the calls that its command makes. Calls
that read keep the whole backend, and calls that change documents keep which
collections and which indexes there are, whether they succeed or not.
-/

namespace NovaBase.Executor

open Lib NovaQl Index

section Queries

variable {β ν α : Type} {part : β → ν}

theorem Run.keeps_onBackend {call : Action Failure β α} (h : call.Keeps part) :
    (Run.onBackend call).Keeps fun run : Run β => part run.backend :=
  h.zoom fun _ _ hsame => hsame

theorem Run.keeps_onIds (call : Action Failure IdSource α) :
    (Run.onIds call).Keeps fun run : Run β => part run.backend :=
  fun _ => rfl

variable [ExecutionBackend β]

/-- The calls that read leave a part of the backend as it is. -/
structure ReadsKeep (part : β → ν) : Prop where
  scan : ∀ collection, (ExecutionBackend.scan collection).Keeps part
  scanIndex : ∀ collection index key,
    (ExecutionBackend.scanIndex collection index key).Keeps part

/-- The calls that change documents leave it as it is as well. -/
structure WritesKeep (part : β → ν) : Prop extends ReadsKeep part where
  insert : ∀ collection document, (ExecutionBackend.insert collection document).Keeps part
  replace : ∀ collection document, (ExecutionBackend.replace collection document).Keeps part
  delete : ∀ collection id, (ExecutionBackend.delete collection id).Keeps part

theorem ReadsKeep.accessDocuments (h : ReadsKeep part) (plan : QueryPlan) (collection : String) :
    (accessDocuments plan collection).Keeps fun run : Run β => part run.backend := by
  apply Action.Keeps.bind
  · apply Run.keeps_onBackend
    cases plan.access with
    | command => exact Action.Keeps.ofExcept _
    | collectionScan _ => exact h.scan collection
    | indexScan _ index key => exact h.scanIndex collection index key
  · exact fun _ _ => rfl

/-- Selecting documents keeps what reads keep. -/
theorem ReadsKeep.selectDocuments (h : ReadsKeep part) (query : Query) (plan : QueryPlan)
    (kind : CommandKind) (collection : String) :
    (selectDocuments query plan kind collection).Keeps fun run : Run β => part run.backend := by
  apply (Action.Keeps.ofExcept _).bind
  intro _
  apply (h.accessDocuments plan collection).bind
  exact fun _ => Run.keeps_onIds _

/-- A query that is not explained runs its command. -/
theorem keeps_execute {query : Query}
    (h : ∀ plan, (executeCommand query plan query.command).Keeps fun run : Run β =>
      part run.backend) :
    (execute query).Keeps fun run : Run β => part run.backend := by
  intro run
  rw [execute, executePlanned]
  split
  · rfl
  · exact h _ _

/-- A `get` keeps what reads keep. -/
theorem ReadsKeep.execute_get (h : ReadsKeep part) {query : Query} {collection : String}
    (hquery : query.command = .get collection) :
    (execute query).Keeps fun run : Run β => part run.backend := by
  apply keeps_execute
  intro plan
  rw [hquery]
  exact (h.selectDocuments query plan .get collection).bind fun _ => Action.Keeps.pure _

theorem WritesKeep.execute_insert (h : WritesKeep part) {query : Query} {collection : String}
    {document : Expression} (hquery : query.command = .insert collection document) :
    (execute query).Keeps fun run : Run β => part run.backend := by
  apply keeps_execute
  intro plan
  rw [hquery]
  apply (Run.keeps_onIds _).bind
  intro inserted
  exact (Run.keeps_onBackend (h.insert collection inserted)).bind fun _ => Action.Keeps.pure _

theorem WritesKeep.execute_update (h : WritesKeep part) {query : Query} {collection : String}
    (hquery : query.command = .update collection) :
    (execute query).Keeps fun run : Run β => part run.backend := by
  apply keeps_execute
  intro plan
  rw [hquery]
  apply (h.selectDocuments query plan .update collection).bind
  intro documents
  apply Action.Keeps.bind
  · apply Action.Keeps.forM
    exact fun document => Run.keeps_onBackend (h.replace collection document)
  · exact fun _ => Action.Keeps.pure _

theorem WritesKeep.execute_delete (h : WritesKeep part) {query : Query} {collection : String}
    (hquery : query.command = .delete collection) :
    (execute query).Keeps fun run : Run β => part run.backend := by
  apply keeps_execute
  intro plan
  rw [hquery]
  apply (h.selectDocuments query plan .delete collection).bind
  intro documents
  apply Action.Keeps.bind
  · apply Action.Keeps.forM
    exact fun document => Run.keeps_onBackend (h.delete collection document.id)
  · exact fun _ => Action.Keeps.pure _

end Queries

section Catalogs

/-- The definitions of a catalog, under the names that they are found by. -/
def labels (catalog : IndexCatalog) : List (String × IndexDefinition) :=
  catalog.indexes.entries.map fun entry => (entry.1, entry.2.definition)

theorem map_labels (catalog : IndexCatalog) :
    (labels catalog).map Prod.snd = catalog.definitions := by
  rw [labels, IndexCatalog.definitions, SortedMap.values, List.map_map, List.map_map]
  rfl

theorem keeps_definitions {α : Type} {change : Action Failure IndexCatalog α}
    (h : change.Keeps labels) : change.Keeps IndexCatalog.definitions := by
  have hdefinitions := h.comp (List.map Prod.snd)
  simpa only [map_labels] using hdefinitions

/-- Another tree does not change a definition. -/
theorem labels_setTree {catalog : IndexCatalog} {name : String} {index : OpenIndex}
    (h : catalog.indexes.get name = some index) (tree : BPlusTree) :
    labels (catalog.setTree name index tree) = labels catalog :=
  Entries.map_insert_of_get catalog.indexes.sorted h rfl

/-- Changing the tree of an index changes no definition. -/
theorem keeps_updateTree (name : String) (update : BPlusTree → Partial BPlusTree) :
    (IndexCatalog.updateTree name update).Keeps labels := by
  intro catalog
  rw [IndexCatalog.updateTree]
  split
  · rfl
  · rename_i index hindex
    split
    · rfl
    · exact labels_setTree hindex _

theorem keeps_syncIndex (name : String) :
    (IndexCatalog.syncIndex name).Keeps labels := by
  intro catalog
  rw [IndexCatalog.syncIndex]
  split
  · rfl
  · rename_i index hindex
    split
    · rfl
    · exact labels_setTree hindex _

theorem keeps_syncCollection (collection : String) :
    (IndexCatalog.syncCollection collection).Keeps labels :=
  fun catalog => Action.Keeps.forM keeps_syncIndex _ catalog

/-- Indexing a document changes no definition. -/
theorem keeps_insertDocument (collection : String) (document : Document) :
    (IndexCatalog.insertDocument collection document).Keeps labels := by
  apply (Action.Keeps.reads _).bind
  intro changes
  apply (Action.Keeps.forM (fun change => keeps_updateTree change.1 _) changes).bind
  exact fun _ => keeps_syncCollection collection

theorem keeps_replaceDocument (collection : String) (old new : Document) :
    (IndexCatalog.replaceDocument collection old new).Keeps labels := by
  apply (Action.Keeps.ofExcept _).bind
  intro _
  apply (Action.Keeps.reads _).bind
  intro oldKeys
  apply (Action.Keeps.reads _).bind
  intro newKeys
  apply Action.Keeps.bind
  · apply Action.Keeps.forM
    intro change
    exact (Action.Keeps.ofExcept _).bind fun _ => keeps_updateTree _ _
  · exact fun _ => keeps_syncCollection collection

theorem keeps_deleteDocument (collection : String) (document : Document) :
    (IndexCatalog.deleteDocument collection document).Keeps labels := by
  apply (Action.Keeps.reads _).bind
  intro changes
  apply (Action.Keeps.forM (fun change => keeps_updateTree change.1 _) changes).bind
  exact fun _ => keeps_syncCollection collection

end Catalogs

namespace MemoryBackend

/-- The collections of a store. -/
def names (backend : MemoryBackend) : List String := backend.collections.keys

theorem keeps_scan {ν : Type} (part : MemoryBackend → ν) (collection : String) :
    (scan collection).Keeps part :=
  Action.Keeps.reads _

theorem keeps_onCollection {α : Type} (name : String)
    (change : SortedMap NovaId Document → Result (α × SortedMap NovaId Document)) :
    (onCollection name change).Keeps names := by
  intro backend
  rw [onCollection]
  split
  · rfl
  · rename_i documents hdocuments
    split
    · rfl
    · exact SortedMap.keys_insert_of_get _ hdocuments

end MemoryBackend

namespace IndexedBackend

/-- Which collections and which indexes there are. -/
def schema (backend : IndexedBackend MemoryBackend) : List String × List IndexDefinition :=
  (backend.inner.names, backend.indexes.definitions)

section Parts

variable {α ν : Type} {call : Action Failure MemoryBackend α}
  {change : Action Failure IndexCatalog α}

theorem keeps_onInner (h : call.Keeps MemoryBackend.names) : (onInner call).Keeps schema :=
  h.zoom fun backend _ hsame => congrArg (Prod.mk · backend.indexes.definitions) hsame

theorem keeps_onIndexes (h : change.Keeps IndexCatalog.definitions) :
    (onIndexes change : Action Failure (IndexedBackend MemoryBackend) α).Keeps schema :=
  h.zoom fun backend _ hsame => congrArg (Prod.mk backend.inner.names) hsame

theorem keeps_scan (part : IndexedBackend MemoryBackend → ν) (collection : String) :
    (scan collection).Keeps part := by
  apply (MemoryBackend.keeps_scan id collection).zoom
  rintro backend _ rfl
  rfl

theorem keeps_findDocument (part : IndexedBackend MemoryBackend → ν) (collection : String)
    (id : NovaId) : (findDocument collection id).Keeps part :=
  (keeps_scan part collection).bind fun _ => Action.Keeps.ofExcept _

end Parts

variable [CharacterTables]

theorem readsKeep {ν : Type} (part : IndexedBackend MemoryBackend → ν) : ReadsKeep part where
  scan := keeps_scan part
  scanIndex collection index key := by
    apply (Action.Keeps.reads _).bind
    intro ids
    exact (keeps_scan part collection).bind fun _ => Action.Keeps.pure _

/-- Calls that change documents keep what their calls on the store and on the catalog keep. -/
theorem writesKeep {ν : Type} {part : IndexedBackend MemoryBackend → ν}
    (hinner : ∀ {α : Type} {call : Action Failure MemoryBackend α},
      call.Keeps MemoryBackend.names → (onInner call).Keeps part)
    (hindexes : ∀ {α : Type} {change : Action Failure IndexCatalog α},
      change.Keeps labels → (onIndexes change).Keeps part) : WritesKeep part where
  toReadsKeep := readsKeep part
  insert collection document := by
    apply (Action.Keeps.reads _).bind
    intro _
    apply (hinner (MemoryBackend.keeps_onCollection collection _)).bind
    intro _
    apply (hindexes (keeps_insertDocument collection document)).bind
    exact fun _ => Action.Keeps.pure _
  replace collection document := by
    apply (Action.Keeps.reads _).bind
    intro _
    apply (keeps_findDocument part collection document.id).bind
    intro old
    apply (hinner (MemoryBackend.keeps_onCollection collection _)).bind
    exact fun _ => hindexes (keeps_replaceDocument collection old document)
  delete collection id := by
    apply (keeps_findDocument part collection id).bind
    intro old
    apply (hinner (MemoryBackend.keeps_onCollection collection _)).bind
    exact fun _ => hindexes (keeps_deleteDocument collection old)

/-- Writes of documents change neither the collections nor the definitions. -/
theorem writesKeep_schema : WritesKeep schema :=
  writesKeep keeps_onInner fun h => keeps_onIndexes (keeps_definitions h)

end IndexedBackend

end NovaBase.Executor
