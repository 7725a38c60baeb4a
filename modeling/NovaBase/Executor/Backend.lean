import NovaBase.Index.Catalog
import NovaBase.Storage.Engine

/-!
# Backends

What the executor asks of a store, a store in memory, and a store with persistent
indexes around any other. The indexed store changes the documents first and its
indexes after them.
-/

namespace NovaBase.Executor

open Lib Index

/-- Storage operations required by the executor. -/
class ExecutionBackend (β : Type) where
  scan : String → Action Failure β (List Document)
  insert : String → Document → Action Failure β NovaId
  replace : String → Document → Action Failure β Unit
  delete : String → NovaId → Action Failure β Unit
  createCollection : String → Action Failure β Unit
  dropCollection : String → Action Failure β Unit
  createIndex (name collection : String) (field : List String) : Action Failure β Unit :=
    Action.ofExcept (.error (.error (.unsupported "backend does not provide persistent indexes")))
  dropIndex (name : String) : Action Failure β Unit :=
    Action.ofExcept (.error (.error (.unsupported "backend does not provide persistent indexes")))
  indexDefinitions : β → List IndexDefinition := fun _ => []
  scanIndex (collection index : String) (key : IndexKey) : Action Failure β (List Document) :=
    Action.ofExcept (.error (.error (.unsupported "backend does not provide index scans")))

/-- The error for a collection that does not exist. -/
def missingCollection (name : String) : NovaError :=
  .notFound [.text "collection ", .debug name]

/-- The error for a document that is not stored. -/
def missingDocument (id : NovaId) : NovaError := .notFound s!"document {id.display}"

/-- Collections of documents in memory. -/
structure MemoryBackend where
  collections : SortedMap String (SortedMap NovaId Document)

namespace MemoryBackend

/-- A store without collections. -/
def new : MemoryBackend := ⟨.empty⟩

/-- Change one collection, or leave everything as it is. -/
def onCollection {α : Type} (name : String)
    (change : SortedMap NovaId Document → Result (α × SortedMap NovaId Document)) :
    Action Failure MemoryBackend α := fun backend =>
  match backend.collections.get name with
  | none => (.error (.error (missingCollection name)), backend)
  | some documents =>
      match change documents with
      | .error cause => (.error (.error cause), backend)
      | .ok (result, documents) => (.ok result, ⟨backend.collections.insert name documents⟩)

def scan (collection : String) : Action Failure MemoryBackend (List Document) :=
  Action.reads fun backend =>
    match backend.collections.get collection with
    | none => .error (.error (missingCollection collection))
    | some documents => .ok documents.values

/-- Store a document under an identifier that is free. -/
def insert (collection : String) (document : Document) : Action Failure MemoryBackend NovaId :=
  onCollection collection fun documents =>
    if documents.contains document.id then
      .error (.alreadyExists s!"document {document.id.display}")
    else .ok (document.id, documents.insert document.id document)

/-- Store a document in the place of the one with its identifier. -/
def replace (collection : String) (document : Document) : Action Failure MemoryBackend Unit :=
  onCollection collection fun documents =>
    if documents.contains document.id then .ok ((), documents.insert document.id document)
    else .error (missingDocument document.id)

/-- Remove the document with an identifier. -/
def delete (collection : String) (id : NovaId) : Action Failure MemoryBackend Unit :=
  onCollection collection fun documents =>
    if documents.contains id then .ok ((), documents.remove id)
    else .error (missingDocument id)

def createCollection (name : String) : Action Failure MemoryBackend Unit := fun backend =>
  if backend.collections.contains name then
    (.error (.error (.alreadyExists [.text "collection ", .debug name])), backend)
  else (.ok (), ⟨backend.collections.insert name .empty⟩)

/-- Remove a collection with its documents. -/
def dropCollection (name : String) : Action Failure MemoryBackend Unit := fun backend =>
  if backend.collections.contains name then (.ok (), ⟨backend.collections.remove name⟩)
  else (.error (.error (missingCollection name)), backend)

instance executionBackend : ExecutionBackend MemoryBackend where
  scan := scan
  insert := insert
  replace := replace
  delete := delete
  createCollection := createCollection
  dropCollection := dropCollection

end MemoryBackend

/-- A store with an index catalog beside it. -/
structure IndexedBackend (β : Type) where
  inner : β
  indexes : IndexCatalog

namespace IndexedBackend

variable {β α : Type}

/-- Act on the documents only. -/
def onInner : Action Failure β α → Action Failure (IndexedBackend β) α :=
  Action.zoom inner fun backend inner => { backend with inner }

/-- Act on the indexes only. -/
def onIndexes : Action Failure IndexCatalog α → Action Failure (IndexedBackend β) α :=
  Action.zoom indexes fun backend indexes => { backend with indexes }

variable [ExecutionBackend β]

def scan (collection : String) : Action Failure (IndexedBackend β) (List Document) :=
  onInner (ExecutionBackend.scan collection)

/-- The stored document with an identifier. -/
def findDocument (collection : String) (id : NovaId) :
    Action Failure (IndexedBackend β) Document := do
  let documents ← scan collection
  Action.ofExcept <| match documents.find? fun document => document.id = id with
    | some document => .ok document
    | none => .error (.error (missingDocument id))

/-- Check that every index of the collection can take the keys of a document. -/
def validateDocument (collection : String) (document : Document) :
    Action Failure (IndexedBackend β) Unit :=
  Action.reads fun backend => (backend.indexes.validateDocument collection document).lift

/-- Insert a document that every index of its collection can take. -/
def insert (collection : String) (document : Document) :
    Action Failure (IndexedBackend β) NovaId := do
  validateDocument collection document
  let id ← onInner (ExecutionBackend.insert collection document)
  onIndexes (IndexCatalog.insertDocument collection document)
  return id

/-- Replace a document, in the collection and then in its indexes. -/
def replace (collection : String) (document : Document) :
    Action Failure (IndexedBackend β) Unit := do
  validateDocument collection document
  let old ← findDocument collection document.id
  onInner (ExecutionBackend.replace collection document)
  onIndexes (IndexCatalog.replaceDocument collection old document)

/-- Delete a document, from the collection and then from its indexes. -/
def delete (collection : String) (id : NovaId) : Action Failure (IndexedBackend β) Unit := do
  let old ← findDocument collection id
  onInner (ExecutionBackend.delete collection id)
  onIndexes (IndexCatalog.deleteDocument collection old)

def createCollection (name : String) : Action Failure (IndexedBackend β) Unit :=
  onInner (ExecutionBackend.createCollection name)

/-- Drop a collection, and then every index of it. -/
def dropCollection (name : String) : Action Failure (IndexedBackend β) Unit := do
  onInner (ExecutionBackend.dropCollection name)
  onIndexes (IndexCatalog.dropCollectionIndexes name)

/-- Build an index over the documents of a collection. -/
def createIndex [CharacterTables] (name collection : String) (field : List String) :
    Action Failure (IndexedBackend β) Unit := do
  let documents ← scan collection
  onIndexes (IndexCatalog.createIndex name collection field documents)

/-- Drop an index. The documents stay. -/
def dropIndex (name : String) : Action Failure (IndexedBackend β) Unit :=
  onIndexes (IndexCatalog.dropIndex name)

/-- The documents of a collection, in its order, that an index lists under a key. -/
def scanIndex (collection index : String) (key : IndexKey) :
    Action Failure (IndexedBackend β) (List Document) := do
  let ids ← Action.reads fun backend => backend.indexes.lookup index key
  let documents ← scan collection
  return documents.filter fun document => document.id ∈ ids

instance executionBackend [CharacterTables] : ExecutionBackend (IndexedBackend β) where
  scan := scan
  insert := insert
  replace := replace
  delete := delete
  createCollection := createCollection
  dropCollection := dropCollection
  createIndex := createIndex
  dropIndex := dropIndex
  indexDefinitions backend := backend.indexes.definitions
  scanIndex := scanIndex

end IndexedBackend

end NovaBase.Executor
