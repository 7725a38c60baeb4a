import NovaBase.Core.Directory
import NovaBase.Core.Path
import NovaBase.Index.Snapshot

/-!
# The index catalog

A directory holds two files for every index, its definition and the snapshot of
its tree. The catalog keeps all indexes open, in the order of their names, and
changes them with the documents of their collections. Files are named by their
paths inside the directory.
-/

namespace NovaBase.Index

open Lib Lib.Bytes

/-- Persistent metadata of one named index. -/
structure IndexDefinition where
  name : String
  collection : String
  field : List String
  deriving DecidableEq

/-- An index with its tree in memory. -/
structure OpenIndex where
  definition : IndexDefinition
  tree : BPlusTree
  deriving DecidableEq

/-- The named persistent indexes of a directory. -/
structure IndexCatalog where
  directory : Directory
  indexes : SortedMap String OpenIndex

/-- The file of the definition of an index. -/
def metaPath (name : String) : String := name ++ ".meta"

/-- The file of the tree of an index. -/
def treePath (name : String) : String := name ++ ".nvix"

namespace BPlusTree

/-- The snapshot of a tree that passes verification. -/
def snapshot (tree : BPlusTree) : Partial Bytes := do
  tree.verify
  (encodeTree tree.maxKeys tree.root tree.nodes).lift

/-- Write a tree that has changed to its file. -/
def sync (path : String) (tree : BPlusTree) : Action Failure Directory BPlusTree :=
  if tree.dirty then do
    let bytes ← Action.ofExcept tree.snapshot
    Directory.overwrite path bytes
    return { tree with dirty := false }
  else return tree

/-- A new tree in a new file. -/
def createFile (path : String) : Action Failure Directory BPlusTree := do
  let tree ← Action.ofExcept create.lift
  Directory.createNew path (.alreadyExists s!"index file {path}") []
  tree.sync path

end BPlusTree

section Definitions

/-- What a file with a definition starts with. -/
def metaMagic : Bytes := [0x4e, 0x56, 0x49, 0x4d]

/-- The only version that is read. -/
def metaVersion : Nat := 1

/-- The checksum of a definition covers all bytes before it. -/
def metaCrc32 (bytes : Bytes) : BitVec 32 :=
  ~~~Checksum.register 0xedb88320#32 (BitVec.allOnes 32) bytes

/-- A number in four bytes, if it fits. -/
def writeU32 (value : Nat) : Result Bytes := do
  require (value ≤ u32Max)
    (NovaError.storage "out of range integral type conversion attempted")
  return toBigEndian 4 value

/-- A text behind its length. -/
def writeText (value : String) : Result Bytes := do
  let length ← writeU32 (utf8 value).length
  return length ++ utf8 value

/-- Texts one after the other. -/
def writeTexts : List String → Result Bytes
  | [] => return []
  | value :: rest => do
      let first ← writeText value
      let others ← writeTexts rest
      return first ++ others

/-- The bytes of a definition. -/
def encodeDefinition (definition : IndexDefinition) : Result Bytes := do
  let name ← writeText definition.name
  let collection ← writeText definition.collection
  let count ← writeU32 definition.field.length
  let segments ← writeTexts definition.field
  let bytes := metaMagic ++ (toBigEndian 2 metaVersion ++ (name ++ (collection ++
    (count ++ segments))))
  return bytes ++ toBigEndian 4 (metaCrc32 bytes).toNat

/-- Write the file of a definition, which must not be there yet. -/
def writeDefinition (path : String) (definition : IndexDefinition) :
    Action Failure Directory Unit := do
  let bytes ← Action.ofExcept (encodeDefinition definition).lift
  Directory.createNew path .io bytes

end Definitions

section Keys

/-- The key under which an index keeps a document, if it keeps it. -/
def documentKey (definition : IndexDefinition) (document : Document) :
    Result (Option IndexKey) :=
  if definition.field = ["_id"] then return some (.novaId document.id)
  else
    match Document.lookup document (joinDots definition.field) with
    | none => return none
    | some .null => return none
    | some value =>
        match IndexKey.tryFrom value with
        | .ok key => return some key
        | .error error =>
            let field := joinDots definition.field
            .error (.invalidArgument ([.text "index ", .debug definition.name,
              .text s!" field {field}: "] ++ error.display))

/-- The keys of documents, with their ids. -/
def documentKeys (definition : IndexDefinition) :
    List Document → Result (List (Option IndexKey × NovaId))
  | [] => return []
  | document :: rest => do
      let key ← documentKey definition document
      let others ← documentKeys definition rest
      return (key, document.id) :: others

/-- The keys of a document in some indexes, with their names. -/
def keysFor (document : Document) : List OpenIndex → Result (List (String × Option IndexKey))
  | [] => return []
  | index :: rest => do
      let key ← documentKey index.definition document
      let others ← keysFor document rest
      return (index.definition.name, key) :: others

/-- Put a document's id under its key. -/
def insertKey (key : Option IndexKey) (id : NovaId) (tree : BPlusTree) : Partial BPlusTree :=
  match key with
  | some key => tree.insert key id
  | none => return tree

/-- Take a document's id from under its key. -/
def removeKey (key : Option IndexKey) (id : NovaId) (tree : BPlusTree) : Partial BPlusTree :=
  match key with
  | some key => Prod.snd <$> tree.remove key id
  | none => return tree

/-- Move an id from one key to another. -/
def moveKey (oldKey newKey : Option IndexKey) (id : NovaId) (tree : BPlusTree) :
    Partial BPlusTree :=
  if oldKey = newKey then return tree
  else do
    let tree ← removeKey oldKey id tree
    insertKey newKey id tree

/-- Put all documents into a new tree. -/
def backfill : List (Option IndexKey × NovaId) → BPlusTree → Partial BPlusTree
  | [], tree => return tree
  | (key, id) :: rest, tree => do
      let tree ← insertKey key id tree
      backfill rest tree

end Keys

section Identifiers

variable [CharacterTables]

/-- A name has at least one character, and letters, digits and underscores only. -/
def validateIdentifier (value kind : String) : Result Unit :=
  require (value ≠ "" ∧ value.toList.all fun c => c == '_' || isAlphanumeric c)
    (NovaError.invalidArgument [.text s!"invalid {kind} identifier ", .debug value])

/-- Every part of a path is a name. -/
def validateSegments : List String → Result Unit
  | [] => return ()
  | segment :: rest => do
      validateIdentifier segment "field"
      validateSegments rest

/-- A path has at least one part. -/
def validateField (field : List String) : Result Unit := do
  require (field ≠ []) (NovaError.invalidArgument "index field path cannot be empty")
  validateSegments field

end Identifiers

namespace IndexCatalog

/-- All definitions in the order of their names. -/
def definitions (catalog : IndexCatalog) : List IndexDefinition :=
  catalog.indexes.values.map OpenIndex.definition

/-- The indexes of a collection. -/
def indexesOf (collection : String) (catalog : IndexCatalog) : List OpenIndex :=
  catalog.indexes.values.filter fun index => index.definition.collection = collection

/-- The names of the indexes of a collection. -/
def namesOf (collection : String) (catalog : IndexCatalog) : List String :=
  (catalog.indexesOf collection).map fun index => index.definition.name

/-- A command on the files of the catalog. -/
def onDirectory {α : Type} : Action Failure Directory α → Action Failure IndexCatalog α :=
  Action.zoom directory fun catalog directory => { catalog with directory }

/-- Give an index another tree. -/
def setTree (name : String) (index : OpenIndex) (tree : BPlusTree) (catalog : IndexCatalog) :
    IndexCatalog :=
  { catalog with indexes := catalog.indexes.insert name { index with tree } }

/-- Change the tree of an index. -/
def updateTree (name : String) (update : BPlusTree → Partial BPlusTree) :
    Action Failure IndexCatalog Unit := fun catalog =>
  match catalog.indexes.get name with
  | none => (.error (.error (.internal "index disappeared")), catalog)
  | some index =>
      match update index.tree with
      | .error cause => (.error cause, catalog)
      | .ok tree => (.ok (), catalog.setTree name index tree)

/-- Write the tree of an index to its file, if the tree has changed. -/
def syncIndex (name : String) : Action Failure IndexCatalog Unit := fun catalog =>
  match catalog.indexes.get name with
  | none => (.ok (), catalog)
  | some index =>
      match index.tree.sync (treePath name) catalog.directory with
      | (.error cause, directory) => (.error cause, { catalog with directory })
      | (.ok tree, directory) => (.ok (), { catalog with directory }.setTree name index tree)

/-- Write the trees of all indexes of a collection. -/
def syncCollection (collection : String) : Action Failure IndexCatalog Unit := fun catalog =>
  (catalog.namesOf collection).forM syncIndex catalog

/-- The key of a document in each index of its collection. -/
def keysForDocument (collection : String) (document : Document) (catalog : IndexCatalog) :
    Result (List (String × Option IndexKey)) :=
  keysFor document (catalog.indexesOf collection)

/-- Check every indexed value of a document. -/
def validateDocument (collection : String) (document : Document) (catalog : IndexCatalog) :
    Result Unit := do
  let _ ← catalog.keysForDocument collection document
  return ()

/-- Add a new document to the indexes of its collection. -/
def insertDocument (collection : String) (document : Document) :
    Action Failure IndexCatalog Unit := do
  let changes ← Action.reads fun catalog => (catalog.keysForDocument collection document).lift
  changes.forM fun change => updateTree change.1 (insertKey change.2 document.id)
  syncCollection collection

/-- The change of one index when a document is replaced. -/
def replaceKey (id : NovaId) (change : (String × Option IndexKey) × (String × Option IndexKey)) :
    Action Failure IndexCatalog Unit := do
  Action.ofExcept (require (change.1.1 = change.2.1)
    (Failure.error (.internal "index ordering changed")))
  updateTree change.1.1 (moveKey change.1.2 change.2.2 id)

/-- Take the keys of the old document out of every index, and put those of the new one in. -/
def replaceDocument (collection : String) (old new : Document) :
    Action Failure IndexCatalog Unit := do
  Action.ofExcept (require (old.id = new.id)
    (Failure.error (.invalidArgument "replacement document id must not change")))
  let oldKeys ← Action.reads fun catalog => (catalog.keysForDocument collection old).lift
  let newKeys ← Action.reads fun catalog => (catalog.keysForDocument collection new).lift
  (oldKeys.zip newKeys).forM (replaceKey old.id)
  syncCollection collection

/-- Remove a document from the indexes of its collection. -/
def deleteDocument (collection : String) (document : Document) :
    Action Failure IndexCatalog Unit := do
  let changes ← Action.reads fun catalog => (catalog.keysForDocument collection document).lift
  changes.forM fun change => updateTree change.1 (removeKey change.2 document.id)
  syncCollection collection

/-- Remove both files of an index, and forget it. -/
def dropIndex (name : String) : Action Failure IndexCatalog Unit := do
  Action.reads fun catalog => require (catalog.indexes.contains name = true)
    (Failure.error (.notFound [.text "index ", .debug name]))
  onDirectory (Directory.removeFile (metaPath name))
  onDirectory (Directory.removeFile (treePath name))
  Action.modify fun catalog => { catalog with indexes := catalog.indexes.remove name }

/-- Drop every index of a collection. -/
def dropCollectionIndexes (collection : String) : Action Failure IndexCatalog Unit :=
  fun catalog => (catalog.namesOf collection).forM dropIndex catalog

/-- The ids of the documents with a key. -/
def lookup (name : String) (key : IndexKey) (catalog : IndexCatalog) : Partial (List NovaId) :=
  match catalog.indexes.get name with
  | none => .error (.error (.notFound [.text "index ", .debug name]))
  | some index => index.tree.get key

section Creation

variable [CharacterTables]

/-- The checks before an index is created, and the keys of the documents that it starts with. -/
def prepareIndex (definition : IndexDefinition) (documents : List Document)
    (catalog : IndexCatalog) : Result (List (Option IndexKey × NovaId)) := do
  validateIdentifier definition.name "index"
  validateIdentifier definition.collection "collection"
  validateField definition.field
  require (catalog.indexes.contains definition.name = false)
    (NovaError.alreadyExists [.text "index ", .debug definition.name])
  documentKeys definition documents

/-- Fill a new tree and write both files. -/
def fillIndex (definition : IndexDefinition) (keys : List (Option IndexKey × NovaId))
    (tree : BPlusTree) : Action Failure Directory BPlusTree := do
  let tree ← Action.ofExcept (backfill keys tree)
  let tree ← tree.sync (treePath definition.name)
  writeDefinition (metaPath definition.name) definition
  return tree

/-- Create an index of the documents that are there. Its files are removed again on errors. -/
def createIndex (name collection : String) (field : List String) (documents : List Document) :
    Action Failure IndexCatalog Unit := do
  let definition : IndexDefinition := ⟨name, collection, field⟩
  let keys ← Action.reads fun catalog => (catalog.prepareIndex definition documents).lift
  let tree ← onDirectory (BPlusTree.createFile (treePath name))
  fun catalog =>
    match fillIndex definition keys tree catalog.directory with
    | (.ok tree, directory) =>
        (.ok (), ⟨directory, catalog.indexes.insert name ⟨definition, tree⟩⟩)
    | (.error cause, directory) =>
        (.error cause,
          { catalog with directory := (directory.remove (treePath name)).remove (metaPath name) })

end Creation

end IndexCatalog

end NovaBase.Index
