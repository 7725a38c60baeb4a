import NovaBase.Index.Catalog
import NovaBase.Index.Multimap
import NovaBase.Lib.Postings

/-!
# Indexes mirror the documents

The store of the documents maps collections to partial functions from ids to
documents. A catalog mirrors the store when each of its trees holds the postings
of its definition. A snapshot that is too large to encode makes a command fail
after the trees have changed; no other failure changes the indexes.
-/

namespace NovaBase.Index

open Lib Lib.Bytes

/-- The documents of all collections. -/
abbrev Documents := String → Option (NovaId → Option Document)

/-- The key of a document in an index, if it has one. -/
def keyOf (definition : IndexDefinition) (document : Document) : Option IndexKey :=
  match documentKey definition document with
  | .ok key => key
  | .error _ => none

/-- The index can keep the document. -/
def Indexable (definition : IndexDefinition) (document : Document) : Prop :=
  documentKey definition document = .ok (keyOf definition document)

/-- Every document is stored under its own id. -/
def Keyed (documents : Documents) : Prop :=
  ∀ {collection stored id document}, documents collection = some stored →
    stored id = some document → document.id = id

/-- An open index holds the keys of the documents of its collection. -/
structure OpenIndex.Mirrors (index : OpenIndex) (stored : NovaId → Option Document) : Prop where
  indexable : ∀ {id document}, stored id = some document → Indexable index.definition document
  stores : index.tree.Stores (postings (keyOf index.definition) stored)

/-- The indexes of a catalog agree with the documents, and their files are there. -/
structure IndexCatalog.Mirrors (catalog : IndexCatalog) (documents : Documents) : Prop where
  named : ∀ {name index}, catalog.indexes.get name = some index → index.definition.name = name
  files : ∀ {name index}, catalog.indexes.get name = some index →
    catalog.directory.contains (metaPath name) ∧ catalog.directory.contains (treePath name)
  mirrored : ∀ {name index}, catalog.indexes.get name = some index →
    ∃ stored, documents index.definition.collection = some stored ∧ index.Mirrors stored

/-- The failure of an index command whose files can be written. -/
def Oversized (cause : Failure) : Prop := cause = .error sizeError

section Keys

variable {definition : IndexDefinition} {document : Document} {key : Option IndexKey}

/-- A document can be indexed when its key can be computed. -/
theorem indexable_iff : Indexable definition document ↔
    ∃ key, documentKey definition document = .ok key := by
  constructor
  · exact fun h => ⟨_, h⟩
  · rintro ⟨key, h⟩
    rw [Indexable, keyOf, h]

theorem keyOf_eq (h : documentKey definition document = .ok key) :
    keyOf definition document = key := by
  rw [keyOf, h]

/-- The keys of a document are those in each of the indexes. -/
theorem keysFor_eq_ok {indexes : List OpenIndex} {changes : List (String × Option IndexKey)} :
    keysFor document indexes = .ok changes ↔
      (∀ index ∈ indexes, Indexable index.definition document) ∧
        changes = indexes.map fun index =>
          (index.definition.name, keyOf index.definition document) := by
  induction indexes generalizing changes with
  | nil => simp [keysFor, eq_comm]
  | cons index rest ih =>
      simp only [keysFor, bind_eq_ok, pure_eq_ok, Except.ok.injEq, List.forall_mem_cons,
        List.map_cons]
      constructor
      · rintro ⟨key, hkey, others, hothers, rfl⟩
        obtain ⟨hrest, rfl⟩ := ih.mp hothers
        exact ⟨⟨indexable_iff.mpr ⟨key, hkey⟩, hrest⟩, by rw [keyOf_eq hkey]⟩
      · rintro ⟨⟨hindex, hrest⟩, rfl⟩
        exact ⟨_, hindex, _, ih.mpr ⟨hrest, rfl⟩, rfl⟩

/-- The keys of documents can be computed when each of them can be indexed. -/
theorem documentKeys_eq_ok {documents : List Document}
    {keys : List (Option IndexKey × NovaId)} :
    documentKeys definition documents = .ok keys ↔
      (∀ document ∈ documents, Indexable definition document) ∧
        keys = documents.map fun document => (keyOf definition document, document.id) := by
  induction documents generalizing keys with
  | nil => simp [documentKeys, eq_comm]
  | cons document rest ih =>
      simp only [documentKeys, bind_eq_ok, pure_eq_ok, Except.ok.injEq, List.forall_mem_cons,
        List.map_cons]
      constructor
      · rintro ⟨key, hkey, others, hothers, rfl⟩
        obtain ⟨hrest, rfl⟩ := ih.mp hothers
        exact ⟨⟨indexable_iff.mpr ⟨key, hkey⟩, hrest⟩, by rw [keyOf_eq hkey]⟩
      · rintro ⟨⟨hdocument, hrest⟩, rfl⟩
        exact ⟨_, hdocument, _, ih.mpr ⟨hrest, rfl⟩, rfl⟩

end Keys

section Trees

variable {tree : BPlusTree} {contents : Set (IndexKey × NovaId)}

/-- Posting a key stores it, or nothing where the document has none. -/
theorem BPlusTree.Stores.insertKey (h : tree.Stores contents) (key : Option IndexKey)
    (id : NovaId) : ∃ tree', Index.insertKey key id tree = .ok tree' ∧
      tree'.Stores (post key id contents) := by
  cases key with
  | none => exact ⟨tree, rfl, (post_none contents).symm ▸ h⟩
  | some key =>
      obtain ⟨tree', hinsert, hstores⟩ := h.insert key id
      exact ⟨tree', hinsert, (post_some key contents).symm ▸ hstores⟩

/-- Removing a key undoes this. -/
theorem BPlusTree.Stores.removeKey (h : tree.Stores contents) (key : Option IndexKey)
    (id : NovaId) : ∃ tree', Index.removeKey key id tree = .ok tree' ∧
      tree'.Stores (unpost key id contents) := by
  cases key with
  | none => exact ⟨tree, rfl, (unpost_none contents).symm ▸ h⟩
  | some key =>
      obtain ⟨removed, tree', hremove, -, hstores⟩ := h.remove key id
      refine ⟨tree', ?_, (unpost_some key contents).symm ▸ hstores⟩
      rw [Index.removeKey, hremove, map_ok]

/-- Moving an id stores what replacing its document does. -/
theorem BPlusTree.Stores.moveKey {definition : IndexDefinition}
    {stored : NovaId → Option Document} {id : NovaId} {old new : Document}
    (h : tree.Stores (postings (keyOf definition) stored)) (hold : stored id = some old) :
    ∃ tree', Index.moveKey (keyOf definition old) (keyOf definition new) id tree = .ok tree' ∧
      tree'.Stores (postings (keyOf definition) (Function.update stored id (some new))) := by
  rw [Index.moveKey]
  split
  · rename_i hsame
    exact ⟨tree, rfl, (postings_replace_same hold hsame).symm ▸ h⟩
  · obtain ⟨middle, hremove, hmiddle⟩ := h.removeKey (keyOf definition old) id
    obtain ⟨tree', hinsert, hstores⟩ := hmiddle.insertKey (keyOf definition new) id
    rw [← postings_replace hold] at hstores
    exact ⟨tree', by rw [hremove, ok_bind, hinsert], hstores⟩

/-- Filling a tree stores all keys that there are. -/
theorem BPlusTree.Stores.backfill (h : tree.Stores contents)
    (keys : List (Option IndexKey × NovaId)) :
    ∃ tree', Index.backfill keys tree = .ok tree' ∧
      tree'.Stores {p | (some p.1, p.2) ∈ keys ∨ p ∈ contents} := by
  induction keys generalizing tree contents with
  | nil => exact ⟨tree, rfl, by simpa using h⟩
  | cons entry rest ih =>
      obtain ⟨key, id⟩ := entry
      obtain ⟨middle, hinsert, hmiddle⟩ := h.insertKey key id
      obtain ⟨tree', hrest, hstores⟩ := ih hmiddle
      refine ⟨tree', by rw [Index.backfill, hinsert, ok_bind, hrest], ?_⟩
      have hsame : {p : IndexKey × NovaId | (some p.1, p.2) ∈ rest ∨ p ∈ post key id contents} =
          {p | (some p.1, p.2) ∈ (key, id) :: rest ∨ p ∈ contents} := by
        ext p
        simp only [post, Set.mem_ofPred_eq, List.mem_cons, Prod.mk.injEq, eq_comm]
        grind
      exact hsame ▸ hstores

/-- Whether a tree has been written does not matter for what it holds. -/
theorem BPlusTree.Stores.setDirty (h : tree.Stores contents) (dirty : Bool) :
    BPlusTree.Stores { tree with dirty } contents := by
  obtain ⟨height, cells, ids, ⟨hrepresents, hnodes, hordered, hlinked, hmax⟩, hcontents⟩ := h
  exact ⟨height, cells, ids, ⟨hrepresents, hnodes, hordered, hlinked, hmax⟩, hcontents⟩

end Trees

end NovaBase.Index
