import NovaBase.Executor.Contents
import NovaBase.Index.Upkeep

/-!
# The indexed store over one in memory

The documents of the indexed store are those that the store in memory would have
after the same calls, as long as they succeed, and its indexes mirror them after
every call. The files of the indexes are taken to be written and removed without
an I/O error. Then a call that fails changes nothing, unless the snapshot of a
tree is too large to be written: the documents and the trees have changed by then.
-/

namespace NovaBase.Executor

open Lib Index

namespace IndexedBackend

variable {α : Type} {backend next : IndexedBackend MemoryBackend} {collection : String}

/-- What is seen of an indexed store: its documents, and the definitions of its indexes. -/
def contents (backend : IndexedBackend MemoryBackend) : Contents where
  documents := backend.inner.documents
  indexes name := (backend.indexes.indexes.get name).map OpenIndex.definition

theorem contents_indexes (backend : IndexedBackend MemoryBackend) (name : String) :
    backend.contents.indexes name =
      (backend.indexes.indexes.get name).map OpenIndex.definition := rfl

/-- Documents are stored under their ids, and the indexes mirror them. -/
structure Coherent (backend : IndexedBackend MemoryBackend) : Prop where
  keyed : Keyed backend.inner.documents
  mirrors : backend.indexes.Mirrors backend.inner.documents

/-- The documents and the indexes are the same. The files of the catalog do not matter. -/
def SameContents (backend next : IndexedBackend MemoryBackend) : Prop :=
  next.inner = backend.inner ∧ next.indexes.indexes = backend.indexes.indexes

/-- The documents have changed as they do in memory, and there are the same indexes as before. -/
structure Changed (backend : IndexedBackend MemoryBackend)
    (inMemory : Action Failure MemoryBackend α) (result : α)
    (next : IndexedBackend MemoryBackend) : Prop where
  coherent : next.Coherent
  defines : backend.indexes.Defines next.indexes
  inner : inMemory backend.inner = (.ok result, next.inner)

/-- The call does to the documents what another does in memory. When it fails, nothing has
changed, or a snapshot was too large and the documents have changed as in memory. -/
def Follows (call : Action Failure (IndexedBackend MemoryBackend) α)
    (inMemory : Action Failure MemoryBackend α) : Prop :=
  ∀ backend, Coherent backend → call.Ends backend
    (fun result next => next.Coherent ∧ inMemory backend.inner = (.ok result, next.inner))
    (fun cause next => next.Coherent ∧ (backend.SameContents next ∨
      Index.Oversized cause ∧ ∃ result, inMemory backend.inner = (.ok result, next.inner)))

/-- A call that follows the store of documents keeps the backend coherent. -/
theorem Follows.preserves {call : Action Failure (IndexedBackend MemoryBackend) α}
    {inMemory : Action Failure MemoryBackend α} (h : Follows call inMemory) :
    call.Preserves Coherent := by
  apply Action.Preserves.of_ends
  intro backend hbackend
  apply (h backend hbackend).weaken
  · exact fun _ _ hnext => hnext.1
  · exact fun _ _ hfailed => hfailed.1

theorem SameContents.refl (backend : IndexedBackend MemoryBackend) : backend.SameContents backend :=
  ⟨rfl, rfl⟩

/-- A call that fails without a change, or with the change that it would have made in memory. -/
theorem Follows.of_changed {call : Action Failure (IndexedBackend MemoryBackend) α}
    {inMemory : Action Failure MemoryBackend α}
    {R : IndexedBackend MemoryBackend → Prop}
    (h : ∀ backend, Coherent backend → call.Ends backend (backend.Changed inMemory)
      (fun cause next => backend = next ∧ R backend ∨
        Index.Oversized cause ∧ ∃ result, backend.Changed inMemory result next)) :
    Follows call inMemory := by
  intro backend hbackend
  apply (h backend hbackend).weaken
  · exact fun _ _ hnext => ⟨hnext.coherent, hnext.inner⟩
  · rintro cause _ (⟨rfl, -⟩ | ⟨hover, result, hnext⟩)
    · exact ⟨hbackend, .inl (.refl backend)⟩
    · exact ⟨hnext.coherent, .inr ⟨hover, result, hnext.inner⟩⟩

/-- The same indexes, and other documents in one collection. -/
theorem contents_eq_put {stored : NovaId → Option Document}
    (hdefines : backend.indexes.Defines next.indexes)
    (hdocuments : next.inner.documents =
      Function.update backend.inner.documents collection (some stored)) :
    next.contents = backend.contents.put collection stored := by
  rw [contents, Contents.put, hdocuments]
  exact congrArg (Contents.mk _) (funext hdefines)

/-- What has the same documents and definitions has the same contents. -/
theorem SameContents.contents (h : backend.SameContents next) :
    next.contents = backend.contents := by
  rw [IndexedBackend.contents, h.1, h.2]
  rfl

/-- Every index of the collection can keep the document. -/
def Accepts (backend : IndexedBackend MemoryBackend) (collection : String) (document : Document) :
    Prop :=
  ∀ index ∈ backend.indexes.indexesOf collection, Indexable index.definition document

/-- Acceptance in terms of the contents is acceptance by the catalog. -/
theorem Coherent.accepts_iff (h : backend.Coherent) {document : Document} :
    backend.contents.Accepts collection document ↔ backend.Accepts collection document := by
  constructor
  · intro haccepts index hindex
    obtain ⟨hget, hcollection⟩ := h.mirrors.mem_indexesOf.mp hindex
    exact haccepts _ _ (Option.map_eq_some_iff.mpr ⟨index, hget, rfl⟩) hcollection
  · intro haccepts name definition hdefinition hcollection
    obtain ⟨index, hget, rfl⟩ := Option.map_eq_some_iff.mp hdefinition
    obtain rfl := h.mirrors.named hget
    exact haccepts index (h.mirrors.mem_indexesOf.mpr ⟨hget, hcollection⟩)

/-- The check of a document changes nothing and succeeds when all its indexes take it. -/
theorem validateDocument_ends (backend : IndexedBackend MemoryBackend) (collection : String)
    (document : Document) :
    (validateDocument collection document).Ends backend
      (fun _ next => backend = next ∧ backend.Accepts collection document)
      (fun _ next => backend = next ∧ ¬ backend.Accepts collection document) := by
  cases hkeys : backend.indexes.keysForDocument collection document with
  | error cause =>
      refine .inr ⟨.error cause, backend, ?_, rfl, fun haccepts => ?_⟩
      · rw [validateDocument, Action.reads_apply, IndexCatalog.validateDocument, hkeys]
        rfl
      · cases hkeys.symm.trans (IndexCatalog.keysForDocument_of_indexable haccepts)
  | ok changes =>
      refine .inl ⟨(), backend, ?_, rfl, (keysFor_eq_ok.mp hkeys).1⟩
      rw [validateDocument, Action.reads_apply, IndexCatalog.validateDocument, hkeys]
      rfl

/-- A scan lists all documents of a collection, each once. -/
theorem scan_ends (h : backend.Coherent) (collection : String) :
    (scan collection).Ends backend
      (fun list next => backend = next ∧ ∃ stored,
        backend.inner.documents collection = some stored ∧
        (∀ document, document ∈ list ↔ stored document.id = some document) ∧
        (list.map DocumentOf.id).Pairwise (· < ·) ∧
        MemoryBackend.scan collection backend.inner = (.ok list, backend.inner))
      (fun _ next => backend = next ∧ backend.inner.documents collection = none) := by
  rcases MemoryBackend.scan_ends h.keyed collection with
    ⟨list, _, hscan, rfl, stored, hstored, hlist, hsorted⟩ | ⟨cause, _, hscan, rfl, hnone⟩
  · refine .inl ⟨list, backend, ?_, rfl, stored, hstored, hlist, hsorted, hscan⟩
    change onInner (MemoryBackend.scan collection) backend = _
    rw [onInner, Action.zoom, hscan]
  · refine .inr ⟨cause, backend, ?_, rfl, hnone⟩
    change onInner (MemoryBackend.scan collection) backend = _
    rw [onInner, Action.zoom, hscan]

/-- A document is found when it is stored. -/
theorem findDocument_ends (h : backend.Coherent) (collection : String) (id : NovaId) :
    (findDocument collection id).Ends backend
      (fun document next => backend = next ∧ document.id = id ∧ ∃ stored,
        backend.inner.documents collection = some stored ∧ stored id = some document)
      (fun _ next => backend = next ∧ backend.inner.Lacks collection id) := by
  apply (scan_ends h collection).seq
  · rintro list _ ⟨rfl, stored, hstored, hlist, -⟩
    cases hfind : list.find? fun document => document.id = id with
    | none =>
        refine .inr ⟨.error (missingDocument id), backend, ?_, rfl, ?_⟩
        · rw [Action.ofExcept_apply]
        · intro other hother
          obtain rfl := Option.some.inj (hstored.symm.trans hother)
          cases hid : stored id with
          | none => rfl
          | some document =>
              obtain rfl := h.keyed hstored hid
              have hmem := (hlist document).mpr hid
              exact absurd (decide_eq_true rfl) (List.find?_eq_none.mp hfind document hmem)
    | some document =>
        have hid : decide (document.id = id) = true := @List.find?_some Document
          (fun document => document.id = id) document list hfind
        obtain rfl := of_decide_eq_true hid
        exact .inl ⟨document, _, rfl, rfl, rfl, stored, hstored,
          (hlist document).mp (List.mem_of_find?_eq_some hfind)⟩
  · rintro _ _ ⟨rfl, hnone⟩
    refine ⟨rfl, fun stored hstored => ?_⟩
    cases hnone.symm.trans hstored

theorem onIndexes_ends {change : Action Failure IndexCatalog α} {P : α → IndexCatalog → Prop}
    {F : Failure → IndexCatalog → Prop} (backend : IndexedBackend MemoryBackend)
    (hchange : change.Ends backend.indexes P F) :
    (onIndexes change).Ends backend
      (fun result next => ∃ indexes, next = { backend with indexes } ∧ P result indexes)
      (fun cause next => ∃ indexes, next = { backend with indexes } ∧ F cause indexes) :=
  hchange.zoom

/-- The documents change if they can, and the indexes follow them. -/
theorem change_ends (backend : IndexedBackend MemoryBackend) {call : Action Failure MemoryBackend α}
    {change : Action Failure IndexCatalog Unit} {P : α → MemoryBackend → Prop} {R : Prop}
    (hcall : call.Ends backend.inner P fun _ inner => inner = backend.inner ∧ R)
    (hchange : ∀ result inner, P result inner → Keyed inner.documents ∧
      change.Ends backend.indexes
        (fun _ next => backend.indexes.Follows inner.documents next)
        (fun cause next => Index.Oversized cause ∧ backend.indexes.Follows inner.documents next)) :
    Action.Ends (do
        let result ← onInner call
        onIndexes change
        return result) backend (backend.Changed call)
      (fun cause next => backend = next ∧ R ∨
        Index.Oversized cause ∧ ∃ result, backend.Changed call result next) := by
  rcases hcall with ⟨result, inner, hcall, hresult⟩ | ⟨cause, inner, hcall, rfl, hreason⟩
  · obtain ⟨hkeyed, hends⟩ := hchange result inner hresult
    have hinner : onInner call backend = (.ok result, { backend with inner }) := by
      rw [onInner, Action.zoom, hcall]
    apply Action.Ends.after hinner
    apply (onIndexes_ends { backend with inner } hends).seq
    · rintro _ _ ⟨indexes, rfl, hmirrors, hdefines⟩
      exact .pure ⟨⟨hkeyed, hmirrors⟩, hdefines, hcall⟩
    · rintro cause _ ⟨indexes, rfl, hover, hmirrors, hdefines⟩
      exact .inr ⟨hover, result, ⟨hkeyed, hmirrors⟩, hdefines, hcall⟩
  · have hinner : onInner call backend = (.error cause, backend) := by
      rw [onInner, Action.zoom, hcall]
    exact .inr ⟨cause, backend, Action.bind_of_error hinner, .inl ⟨rfl, hreason⟩⟩

/-- A call without a result. -/
theorem change_unit_ends (backend : IndexedBackend MemoryBackend)
    {call : Action Failure MemoryBackend Unit}
    {change : Action Failure IndexCatalog Unit} {P : Unit → MemoryBackend → Prop} {R : Prop}
    (hcall : call.Ends backend.inner P fun _ inner => inner = backend.inner ∧ R)
    (hchange : ∀ result inner, P result inner → Keyed inner.documents ∧
      change.Ends backend.indexes
        (fun _ next => backend.indexes.Follows inner.documents next)
        (fun cause next => Index.Oversized cause ∧ backend.indexes.Follows inner.documents next)) :
    Action.Ends (do
        onInner call
        onIndexes change) backend (backend.Changed call)
      (fun cause next => backend = next ∧ R ∨
        Index.Oversized cause ∧ ∃ result, backend.Changed call result next) := by
  have hends := change_ends backend hcall hchange
  simp only [Action.bind_pure_unit] at hends
  exact hends

/-- An insertion that fails has no effect, but for a snapshot that is too large: then the document
is stored and indexed. -/
theorem insert_ends (h : backend.Coherent) (collection : String) (document : Document) :
    (insert collection document).Ends backend
      (backend.Changed (MemoryBackend.insert collection document))
      (fun cause next => backend = next ∧ True ∨ Index.Oversized cause ∧ ∃ id,
        backend.Changed (MemoryBackend.insert collection document) id next) := by
  apply (validateDocument_ends backend collection document).seq
  · rintro _ _ ⟨rfl, haccepts⟩
    have hinsert := MemoryBackend.insert_ends backend.inner collection document
    apply change_ends backend (hinsert.weaken (fun _ _ h => h) fun _ _ hsame => ⟨hsame, trivial⟩)
    rintro _ inner ⟨rfl, stored, hstored, hnew, hinner⟩
    rw [hinner]
    constructor
    · apply MemoryBackend.keyed_document backend.inner h.keyed hstored
      rintro _ ⟨⟩
      rfl
    · exact h.mirrors.insertDocument hstored hnew haccepts
  · rintro cause _ ⟨rfl, -⟩
    exact .inl ⟨rfl, trivial⟩

/-- A document is not replaced when it is not there, or when an index cannot keep the other. -/
theorem replace_ends (h : backend.Coherent) (collection : String) (document : Document) :
    (replace collection document).Ends backend
      (backend.Changed (MemoryBackend.replace collection document))
      (fun cause next => backend = next ∧
          (¬ backend.Accepts collection document ∨ backend.inner.Lacks collection document.id) ∨
        Index.Oversized cause ∧ ∃ result,
          backend.Changed (MemoryBackend.replace collection document) result next) := by
  apply (validateDocument_ends backend collection document).seq
  · rintro _ _ ⟨rfl, haccepts⟩
    apply (findDocument_ends h collection document.id).seq
    · rintro old _ ⟨rfl, hid, stored, hstored, hold⟩
      have hreplace := MemoryBackend.replace_ends backend.inner collection document
      apply change_unit_ends backend (hreplace.weaken (fun _ _ h => h) fun _ _ hfailed =>
        ⟨hfailed.1, .inr hfailed.2⟩)
      rintro _ inner ⟨found, -, hfound, -, hinner⟩
      obtain rfl := Option.some.inj (hstored.symm.trans hfound)
      rw [hinner]
      constructor
      · apply MemoryBackend.keyed_document backend.inner h.keyed hstored
        rintro _ ⟨⟩
        rfl
      · rw [← hid] at hold ⊢
        exact h.mirrors.replaceDocument hstored hold hid haccepts
    · rintro cause _ ⟨rfl, hlacks⟩
      exact .inl ⟨rfl, .inr hlacks⟩
  · rintro cause _ ⟨rfl, hrefused⟩
    exact .inl ⟨rfl, .inl hrefused⟩

/-- The same for a deletion. -/
theorem delete_ends (h : backend.Coherent) (collection : String) (id : NovaId) :
    (delete collection id).Ends backend (backend.Changed (MemoryBackend.delete collection id))
      (fun cause next => backend = next ∧ backend.inner.Lacks collection id ∨
        Index.Oversized cause ∧ ∃ result,
          backend.Changed (MemoryBackend.delete collection id) result next) := by
  apply (findDocument_ends h collection id).seq
  · rintro old _ ⟨rfl, rfl, stored, hstored, hold⟩
    apply change_unit_ends backend (MemoryBackend.delete_ends backend.inner collection old.id)
    rintro _ inner ⟨found, -, hfound, -, hinner⟩
    obtain rfl := Option.some.inj (hstored.symm.trans hfound)
    rw [hinner]
    constructor
    · apply MemoryBackend.keyed_document backend.inner h.keyed hstored
      nofun
    · exact h.mirrors.deleteDocument hstored hold
  · rintro cause _ ⟨rfl, hlacks⟩
    exact .inl ⟨rfl, hlacks⟩

theorem onInner_createCollection {name : String} {result : Partial Unit} {inner : MemoryBackend}
    (h : MemoryBackend.createCollection name backend.inner = (result, inner)) :
    createCollection name backend = (result, { backend with inner }) := by
  change onInner (MemoryBackend.createCollection name) backend = _
  rw [onInner, Action.zoom, h]

/-- A new collection has no documents, and no index is for it. -/
theorem createCollection_ends (h : backend.Coherent) (name : String) :
    (createCollection name).Ends backend
      (backend.Changed (MemoryBackend.createCollection name)) (fun _ next => backend = next) := by
  rcases MemoryBackend.createCollection_ends backend.inner name with
    ⟨_, inner, hcreate, hnone, hinner⟩ | ⟨cause, _, hcreate, rfl⟩
  · refine .inl ⟨(), _, onInner_createCollection hcreate, ⟨?_, ?_⟩, fun _ => rfl, hcreate⟩
    · change Keyed inner.documents
      rw [hinner]
      apply MemoryBackend.keyed_collection backend.inner h.keyed
      rintro _ _ ⟨⟩
      rfl
    · change backend.indexes.Mirrors inner.documents
      rw [hinner]
      refine ⟨h.mirrors.named, h.mirrors.files, fun {other index} hindex => ?_⟩
      obtain ⟨stored, hstored, hmirrors⟩ := h.mirrors.mirrored hindex
      refine ⟨stored, ?_, hmirrors⟩
      rw [Function.update_of_ne, hstored]
      rintro rfl
      cases hnone.symm.trans hstored
  · exact .inr ⟨cause, backend, onInner_createCollection hcreate, rfl⟩

/-- A collection is dropped with all its indexes. -/
theorem dropCollection_ends (h : backend.Coherent) (name : String) :
    (dropCollection name).Ends backend
      (fun result next => next.Coherent ∧ backend.inner.documents name ≠ none ∧
        next.contents = backend.contents.drop name ∧
        MemoryBackend.dropCollection name backend.inner = (.ok result, next.inner))
      (fun _ next => backend = next) := by
  rcases MemoryBackend.dropCollection_ends backend.inner name with
    ⟨_, inner, hdrop, hstored, hinner⟩ | ⟨cause, _, hdrop, rfl⟩
  · have hfirst : onInner (MemoryBackend.dropCollection name) backend =
        (.ok (), { backend with inner }) := by
      rw [onInner, Action.zoom, hdrop]
    obtain ⟨indexes, hforgotten, hmirrors, hkept⟩ := h.mirrors.dropCollectionIndexes name
    have hsecond : onIndexes (IndexCatalog.dropCollectionIndexes name) { backend with inner } =
        (.ok (), ⟨inner, indexes⟩) := by
      rw [onIndexes, Action.zoom, hforgotten]
    refine .inl ⟨(), _, (Action.bind_of_ok hfirst).trans hsecond, ⟨?_, hinner ▸ hmirrors⟩,
      hstored, ?_, hdrop⟩
    · change Keyed inner.documents
      rw [hinner]
      apply MemoryBackend.keyed_collection backend.inner h.keyed
      intro stored id hnone
      cases hnone
    · rw [contents, Contents.drop]
      refine congrArg₂ Contents.mk hinner (funext fun other => ?_)
      rw [hkept, contents_indexes, Option.filter_map]
      rfl
  · have hfirst : onInner (MemoryBackend.dropCollection name) backend =
        (.error cause, backend) := by
      rw [onInner, Action.zoom, hdrop]
    exact .inr ⟨cause, backend, Action.bind_of_error hfirst, rfl⟩

/-- An index is made of the documents that are there. They stay as they are. -/
theorem createIndex_ends [CharacterTables] (h : backend.Coherent) (name collection : String)
    (field : List String) :
    (createIndex name collection field).Ends backend
      (fun _ next => next.Coherent ∧ next.inner = backend.inner ∧
        backend.inner.documents collection ≠ none ∧ backend.contents.indexes name = none ∧
        next.contents = backend.contents.define ⟨name, collection, field⟩)
      (fun _ next => next.Coherent ∧ backend.SameContents next) := by
  apply (scan_ends h collection).seq
  · rintro list _ ⟨rfl, stored, hstored, hlist, -, -⟩
    have hcreate := h.mirrors.createIndex hstored (h.keyed hstored) hlist name field
    apply (onIndexes_ends backend hcreate).weaken
    · rintro _ _ ⟨indexes, rfl, hmirrors, hnew, index, hindex, hadded⟩
      refine ⟨⟨h.keyed, hmirrors⟩, rfl, hstored ▸ Option.some_ne_none _, ?_, ?_⟩
      · rw [contents_indexes, hnew]
        rfl
      · rw [contents, Contents.define]
        refine congrArg (Contents.mk _) (funext fun other => ?_)
        rw [hadded, SortedMap.get_insert, Function.update_apply]
        by_cases hname : name = other
        · rw [if_pos hname, if_pos hname.symm, Option.map_some, hindex]
        · rw [if_neg hname, if_neg (Ne.symm hname)]
          rfl
    · rintro _ _ ⟨indexes, rfl, hmirrors, hsame⟩
      exact ⟨⟨h.keyed, hmirrors⟩, rfl, hsame⟩
  · rintro cause _ ⟨rfl, -⟩
    exact ⟨h, .refl backend⟩

/-- Dropping an index forgets its definition and keeps the documents. -/
theorem dropIndex_ends (h : backend.Coherent) (name : String) :
    (dropIndex name).Ends backend
      (fun _ next => next.Coherent ∧ next.inner = backend.inner ∧
        backend.contents.indexes name ≠ none ∧ next.contents = backend.contents.forget name)
      (fun _ next => backend = next) := by
  apply (onIndexes_ends backend (h.mirrors.dropIndex name)).weaken
  · rintro _ _ ⟨indexes, rfl, hmirrors, hremoved, index, hindex⟩
    refine ⟨⟨h.keyed, hmirrors⟩, rfl, ?_, ?_⟩
    · rw [contents_indexes, hindex]
      exact Option.some_ne_none _
    · rw [contents, Contents.forget]
      refine congrArg (Contents.mk _) (funext fun other => ?_)
      rw [hremoved, SortedMap.get_remove, Function.update_apply]
      by_cases hname : name = other
      · rw [if_pos hname, if_pos hname.symm, Option.map_none]
      · rw [if_neg hname, if_neg (Ne.symm hname)]
        rfl
  · rintro _ _ ⟨indexes, rfl, -, rfl⟩
    rfl

theorem follows_insert (collection : String) (document : Document) :
    Follows (insert collection document) (MemoryBackend.insert collection document) :=
  .of_changed fun _ h => insert_ends h collection document

theorem follows_replace (collection : String) (document : Document) :
    Follows (replace collection document) (MemoryBackend.replace collection document) :=
  .of_changed fun _ h => replace_ends h collection document

theorem follows_delete (collection : String) (id : NovaId) :
    Follows (delete collection id) (MemoryBackend.delete collection id) :=
  .of_changed fun _ h => delete_ends h collection id

theorem follows_createCollection (name : String) :
    Follows (createCollection name) (MemoryBackend.createCollection name) := by
  intro backend h
  apply (createCollection_ends h name).weaken
  · exact fun _ _ hnext => ⟨hnext.coherent, hnext.inner⟩
  · rintro _ _ rfl
    exact ⟨h, .inl (.refl backend)⟩

theorem follows_dropCollection (name : String) :
    Follows (dropCollection name) (MemoryBackend.dropCollection name) := by
  intro backend h
  apply (dropCollection_ends h name).weaken
  · exact fun _ _ hnext => ⟨hnext.1, hnext.2.2.2⟩
  · rintro _ _ rfl
    exact ⟨h, .inl (.refl backend)⟩

/-- Creating an index reads the documents and changes none. -/
theorem follows_createIndex [CharacterTables] (name collection : String) (field : List String) :
    Follows (createIndex name collection field) (do
      let _ ← MemoryBackend.scan collection
      return ()) := by
  intro backend h
  apply (createIndex_ends h name collection field).weaken
  · rintro _ next ⟨hnext, hinner, hstored, -⟩
    rcases MemoryBackend.scan_ends h.keyed collection with ⟨_, _, hscan, rfl, -⟩ |
      ⟨_, _, -, rfl, hnone⟩
    · rw [hinner]
      exact ⟨hnext, Action.bind_of_ok hscan⟩
    · exact absurd hnone hstored
  · exact fun _ _ hfailed => ⟨hfailed.1, .inl hfailed.2⟩

theorem follows_dropIndex (name : String) :
    Follows (dropIndex name) (pure ()) := by
  intro backend h
  apply (dropIndex_ends h name).weaken
  · rintro _ next ⟨hnext, hinner, -⟩
    exact ⟨hnext, by rw [hinner]; rfl⟩
  · rintro _ _ rfl
    exact ⟨h, .inl (.refl backend)⟩

end IndexedBackend

/-- A call that changes a store. -/
inductive BackendCall
  | insert (collection : String) (document : Document)
  | replace (collection : String) (document : Document)
  | delete (collection : String) (id : NovaId)
  | createCollection (name : String)
  | dropCollection (name : String)
  | createIndex (name collection : String) (field : List String)
  | dropIndex (name : String)

/-- Make a call and drop its answer. -/
def perform {β : Type} [ExecutionBackend β] : BackendCall → Action Failure β Unit
  | .insert collection document => do
      let _ ← ExecutionBackend.insert collection document
      return ()
  | .replace collection document => ExecutionBackend.replace collection document
  | .delete collection id => ExecutionBackend.delete collection id
  | .createCollection name => ExecutionBackend.createCollection name
  | .dropCollection name => ExecutionBackend.dropCollection name
  | .createIndex name collection field => ExecutionBackend.createIndex name collection field
  | .dropIndex name => ExecutionBackend.dropIndex name

/-- The store after calls of which some may fail. -/
def performAll {β : Type} [ExecutionBackend β] : List BackendCall → β → β
  | [], backend => backend
  | call :: calls, backend => performAll calls (perform call backend).2

/-- What a call does to the documents of a store in memory. -/
def inMemory : BackendCall → Action Failure MemoryBackend Unit
  | .createIndex _ collection _ => do
      let _ ← MemoryBackend.scan collection
      return ()
  | .dropIndex _ => return ()
  | call => perform call

namespace IndexedBackend

variable {α : Type} {backend next : IndexedBackend MemoryBackend}

theorem Follows.discard {call : Action Failure (IndexedBackend MemoryBackend) α}
    {inMemory : Action Failure MemoryBackend α} (h : Follows call inMemory) :
    Follows (do let _ ← call; return ()) (do let _ ← inMemory; return ()) := by
  intro backend hbackend
  rcases h backend hbackend with ⟨result, next, hcall, hnext, hmemory⟩ |
    ⟨cause, next, hcall, hnext, hfailed⟩
  · exact .inl ⟨(), next, Action.bind_of_ok hcall, hnext, Action.bind_of_ok hmemory⟩
  · refine .inr ⟨cause, next, Action.bind_of_error hcall, hnext, ?_⟩
    apply hfailed.imp_right
    rintro ⟨hover, result, hmemory⟩
    exact ⟨hover, (), Action.bind_of_ok hmemory⟩

variable [CharacterTables]

theorem follows_perform (call : BackendCall) : Follows (perform call) (inMemory call) := by
  cases call with
  | insert collection document => exact (follows_insert collection document).discard
  | replace collection document => exact follows_replace collection document
  | delete collection id => exact follows_delete collection id
  | createCollection name => exact follows_createCollection name
  | dropCollection name => exact follows_dropCollection name
  | createIndex name collection field => exact follows_createIndex name collection field
  | dropIndex name => exact follows_dropIndex name

/-- Every call keeps the indexes in step, and so does every run of calls. -/
theorem Coherent.performAll (h : backend.Coherent) (calls : List BackendCall) :
    (performAll calls backend).Coherent := by
  induction calls generalizing backend with
  | nil => exact h
  | cons call calls ih =>
      apply ih
      exact (follows_perform call).preserves backend h

/-- A store in memory with the indexes of a directory. -/
def openDirectory (inner : MemoryBackend) (directory : Directory) :
    Partial (IndexedBackend MemoryBackend) := do
  let indexes ← IndexCatalog.openDirectory directory
  return ⟨inner, indexes⟩

/-- An empty store in memory, with an empty directory of indexes. -/
def empty : IndexedBackend MemoryBackend := ⟨.new, .empty, .empty⟩

theorem openDirectory_empty : openDirectory .new .empty = .ok empty := rfl

omit [CharacterTables] in
theorem coherent_empty : empty.Coherent := by
  constructor
  · nofun
  · exact ⟨nofun, nofun, nofun⟩

/-- Each index answers a key with the ids of the documents of its collection that have it. -/
def Answers (backend : IndexedBackend MemoryBackend) : Prop :=
  ∀ definition ∈ backend.indexes.definitions, ∃ documents,
    backend.inner.collections.get definition.collection = some documents ∧
      (∀ document ∈ documents.values, ∃ key, documentKey definition document = .ok key) ∧
      ∀ key, ∃ ids, backend.indexes.lookup definition.name key = .ok ids ∧
        ids.Pairwise (· < ·) ∧ ∀ id, id ∈ ids ↔ ∃ document ∈ documents.values,
          document.id = id ∧ documentKey definition document = .ok (some key)

omit [CharacterTables] in
theorem Coherent.mem_values (h : backend.Coherent) {collection : String}
    {documents : SortedMap NovaId Document}
    (hdocuments : backend.inner.collections.get collection = some documents) {document : Document} :
    document ∈ documents.values ↔ documents.get document.id = some document := by
  rw [SortedMap.mem_values]
  constructor
  · rintro ⟨id, hid⟩
    rw [h.keyed (MemoryBackend.documents_eq_some.mpr ⟨documents, hdocuments, rfl⟩) hid]
    exact hid
  · exact fun hid => ⟨_, hid⟩

omit [CharacterTables] in
/-- In a coherent backend every index answers with the documents that have a key. -/
theorem Coherent.answers (h : backend.Coherent) : backend.Answers := by
  intro definition hdefinition
  obtain ⟨index, hindex, rfl⟩ := List.mem_map.mp hdefinition
  obtain ⟨name, hget⟩ := SortedMap.mem_values.mp hindex
  obtain rfl := h.mirrors.named hget
  obtain ⟨stored, hstored, hmirrors⟩ := h.mirrors.mirrored hget
  obtain ⟨documents, hdocuments, rfl⟩ := MemoryBackend.documents_eq_some.mp hstored
  have hmem : ∀ {document}, document ∈ documents.values ↔
      documents.get document.id = some document := h.mem_values hdocuments
  refine ⟨documents, hdocuments, ?_, fun key => ?_⟩
  · exact fun document hdocument => ⟨_, hmirrors.indexable (hmem.mp hdocument)⟩
  · obtain ⟨ids, hids, hsorted, hcontents⟩ := hmirrors.stores.get key
    refine ⟨ids, ?_, hsorted, fun id => ?_⟩
    · rw [IndexCatalog.lookup, hget]
      exact hids
    · rw [hcontents, mem_postings]
      constructor
      · rintro ⟨document, hdocument, hkey⟩
        have hid := h.keyed hstored hdocument
        refine ⟨document, hmem.mpr (hid.symm ▸ hdocument), hid, ?_⟩
        rw [hmirrors.indexable hdocument, hkey]
      · rintro ⟨document, hdocument, rfl, hkey⟩
        exact ⟨document, hmem.mp hdocument, keyOf_eq hkey⟩

omit [CharacterTables] in
/-- The catalog lists the definitions that there are. -/
theorem Coherent.defined (h : backend.Coherent) {definition : IndexDefinition}
    (hmem : definition ∈ backend.indexes.definitions) :
    backend.contents.indexes definition.name = some definition := by
  obtain ⟨index, hindex, rfl⟩ := List.mem_map.mp hmem
  obtain ⟨name, hget⟩ := SortedMap.mem_values.mp hindex
  obtain rfl := h.mirrors.named hget
  rw [contents_indexes, hget]
  rfl

omit [CharacterTables] in
theorem mem_definitions {name : String} {definition : IndexDefinition}
    (h : backend.contents.indexes name = some definition) :
    definition ∈ backend.indexes.definitions := by
  obtain ⟨index, hget, rfl⟩ := Option.map_eq_some_iff.mp h
  exact List.mem_map_of_mem (SortedMap.mem_values.mpr ⟨name, hget⟩)

omit [CharacterTables] in
theorem values_of_scan {documents : List Document}
    (h : scan collection backend = (.ok documents, backend)) :
    ∃ found, backend.inner.collections.get collection = some found ∧ found.values = documents := by
  change onInner (MemoryBackend.scan collection) backend = _ at h
  rw [onInner, Action.zoom, MemoryBackend.scan, Action.reads_apply] at h
  cases hfound : backend.inner.collections.get collection with
  | none =>
      rw [hfound] at h
      cases h
  | some found =>
      rw [hfound] at h
      exact ⟨found, rfl, Except.ok.inj (Prod.mk.inj h).1⟩

omit [CharacterTables] in
/-- An index scan reads the documents with a key, in the order of the collection. -/
theorem Coherent.scanIndex (h : backend.Coherent) {definition : IndexDefinition}
    (hmem : definition ∈ backend.indexes.definitions) {documents : List Document}
    (hscan : scan definition.collection backend = (.ok documents, backend)) (key : IndexKey) :
    IndexedBackend.scanIndex definition.collection definition.name key backend =
      (.ok (documents.filter fun document => documentKey definition document = .ok (some key)),
        backend) := by
  obtain ⟨found, hfound, -, hanswers⟩ := h.answers definition hmem
  obtain ⟨ids, hids, -, hkey⟩ := hanswers key
  obtain ⟨other, hother, hvalues⟩ := values_of_scan hscan
  obtain rfl := Option.some.inj (hfound.symm.trans hother)
  have hlookup : (Action.reads fun backend : IndexedBackend MemoryBackend =>
      backend.indexes.lookup definition.name key) backend = (.ok ids, backend) := by
    rw [Action.reads_apply, hids]
  have hfilter : (documents.filter fun document => document.id ∈ ids) =
      documents.filter fun document => documentKey definition document = .ok (some key) := by
    apply List.filter_congr
    intro document hdocument
    rw [← hvalues] at hdocument
    rw [decide_eq_decide, hkey]
    constructor
    · rintro ⟨other, hother, hid, hdocumentKey⟩
      have hget := (h.mem_values hfound).mp hother
      rw [hid, (h.mem_values hfound).mp hdocument] at hget
      exact Option.some.inj hget ▸ hdocumentKey
    · exact fun hdocumentKey => ⟨document, hdocument, rfl, hdocumentKey⟩
  rw [← hfilter, IndexedBackend.scanIndex, Action.bind_of_ok hlookup, Action.bind_of_ok hscan]
  rfl

omit [CharacterTables] in
/-- All the documents with the key are read, and no others. -/
theorem Coherent.scanIndex_ends (h : backend.Coherent) {definition : IndexDefinition}
    (hdefined : backend.contents.indexes definition.name = some definition) (key : IndexKey) :
    (IndexedBackend.scanIndex definition.collection definition.name key).Ends backend
      (fun list next => backend = next ∧ ∃ stored,
        backend.inner.documents definition.collection = some stored ∧
        Lists stored (fun document => documentKey definition document = .ok (some key)) list)
      (fun _ next => backend = next) := by
  have hmem := mem_definitions hdefined
  rcases scan_ends h definition.collection with
    ⟨list, _, hscan, rfl, stored, hstored, hlist, hsorted, -⟩ | ⟨_, _, -, rfl, hnone⟩
  · refine .inl ⟨_, backend, h.scanIndex hmem hscan key, rfl, stored, hstored,
      fun document => ?_, ?_⟩
    · rw [List.mem_filter, hlist, decide_eq_true_eq]
    · exact hsorted.sublist (List.filter_sublist.map _)
  · obtain ⟨found, hfound, -⟩ := h.answers definition hmem
    rw [MemoryBackend.documents, hfound] at hnone
    cases hnone

omit [CharacterTables] in
/-- Whatever index is asked, the documents that are read are those of the collection. -/
theorem scanIndex_ends (h : backend.Coherent) (collection index : String) (key : IndexKey) :
    (IndexedBackend.scanIndex collection index key).Ends backend
      (fun list next => backend = next ∧ ∃ stored,
        backend.inner.documents collection = some stored ∧
        ∀ document ∈ list, stored document.id = some document)
      (fun _ next => backend = next) := by
  have hlookup : (Action.reads fun backend : IndexedBackend MemoryBackend =>
      backend.indexes.lookup index key).Ends backend (fun _ next => backend = next)
      (fun _ next => backend = next) := by
    cases hresult : backend.indexes.lookup index key with
    | ok ids => exact .inl ⟨ids, backend, by rw [Action.reads_apply, hresult], rfl⟩
    | error cause => exact .inr ⟨cause, backend, by rw [Action.reads_apply, hresult], rfl⟩
  apply hlookup.bind
  rintro ids _ rfl
  apply (scan_ends h collection).seq
  · rintro list _ ⟨rfl, stored, hstored, hlist, -⟩
    refine .pure ⟨rfl, stored, hstored, fun document hmem => ?_⟩
    exact (hlist document).mp (List.mem_filter.mp hmem).1
  · exact fun _ _ hfailed => hfailed.1

/-- After any calls, of which some may have failed, every index answers exactly. -/
theorem indexes_mirror_documents (calls : List BackendCall) :
    ∃ backend, openDirectory .new .empty = .ok backend ∧ (performAll calls backend).Answers :=
  ⟨empty, openDirectory_empty, (coherent_empty.performAll calls).answers⟩

end IndexedBackend

end NovaBase.Executor
