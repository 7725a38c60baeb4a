import NovaBase.Index.Maintenance
import NovaBase.Index.Reopen

/-!
# The commands of the catalog

Each command on a catalog that mirrors the documents leaves one that mirrors them
as they are after the command, also when it fails. What can fail is stated with
it: apart from a size that is too large, only the checks before the first change.
-/

namespace NovaBase.Index

open Lib

namespace IndexCatalog

variable {catalog next : IndexCatalog} {documents : Documents} {collection name : String}
  {stored : NovaId → Option Document}

/-- A catalog for other documents, with the same definitions. -/
def Follows (catalog : IndexCatalog) (documents : Documents) (next : IndexCatalog) : Prop :=
  next.Mirrors documents ∧ catalog.Defines next

section Documents

/-- Every index of a collection mirrors its documents. -/
theorem Mirrors.of_mem (h : catalog.Mirrors documents)
    (hstored : documents collection = some stored)
    {index : OpenIndex} (hmem : index ∈ catalog.indexesOf collection) : index.Mirrors stored := by
  obtain ⟨hget, hcollection⟩ := h.mem_indexesOf.mp hmem
  obtain ⟨found, hfound, hmirrors⟩ := h.mirrored hget
  rw [hcollection, hstored] at hfound
  exact Option.some.inj hfound ▸ hmirrors

/-- The trees of a collection are changed and then written. -/
theorem Mirrors.maintain (h : catalog.Mirrors documents) (collection : String)
    (stored : NovaId → Option Document) (update : OpenIndex → BPlusTree → Partial BPlusTree)
    (hupdate : ∀ index ∈ catalog.indexesOf collection, ∃ tree,
      update index index.tree = .ok tree ∧ OpenIndex.Mirrors { index with tree } stored) :
    Action.Ends (do
        (catalog.indexesOf collection).forM fun index =>
          updateTree index.definition.name (update index)
        IndexCatalog.syncCollection collection) catalog
      (fun _ next => catalog.Follows (Function.update documents collection (some stored)) next)
      (fun cause next => Oversized cause ∧
        catalog.Follows (Function.update documents collection (some stored)) next) := by
  obtain ⟨middle, hrun, hmirrors, hdefines⟩ := h.rewrite hupdate
  have hfollows : ∀ next, middle.Resynced next →
      catalog.Follows (Function.update documents collection (some stored)) next :=
    fun next hresynced => ⟨hmirrors.resynced hresynced, hdefines.trans hresynced.defines⟩
  apply Action.Ends.after hrun
  apply (hmirrors.syncCollection collection).weaken
  · exact fun _ next hresynced => hfollows next hresynced
  · exact fun _ next hfailed => ⟨hfailed.1, hfollows next hfailed.2⟩

variable {document old new : Document}

/-- A document that every index can take has a key for each. -/
theorem keysForDocument_of_indexable
    (hindexable : ∀ index ∈ catalog.indexesOf collection, Indexable index.definition document) :
    catalog.keysForDocument collection document = .ok ((catalog.indexesOf collection).map
      fun index => (index.definition.name, keyOf index.definition document)) :=
  keysFor_eq_ok.mpr ⟨hindexable, rfl⟩

theorem reads_keysForDocument
    (hindexable : ∀ index ∈ catalog.indexesOf collection, Indexable index.definition document) :
    (Action.reads fun catalog => (catalog.keysForDocument collection document).lift :
      Action Failure IndexCatalog _) catalog =
        (.ok ((catalog.indexesOf collection).map
          fun index => (index.definition.name, keyOf index.definition document)), catalog) := by
  rw [Action.reads_apply, keysForDocument_of_indexable hindexable]
  rfl

/-- A document with a new id, which all indexes of its collection can keep. -/
theorem Mirrors.insertDocument (h : catalog.Mirrors documents)
    (hstored : documents collection = some stored) (hnew : stored document.id = none)
    (hindexable : ∀ index ∈ catalog.indexesOf collection, Indexable index.definition document) :
    (IndexCatalog.insertDocument collection document).Ends catalog
      (fun _ next => catalog.Follows (Function.update documents collection
        (some (Function.update stored document.id (some document)))) next)
      (fun cause next => Oversized cause ∧ catalog.Follows (Function.update documents collection
        (some (Function.update stored document.id (some document)))) next) := by
  have hchanges := h.maintain collection (Function.update stored document.id (some document))
    (fun index => insertKey (keyOf index.definition document) document.id) (by
      intro index hmem
      have hmirrors := h.of_mem hstored hmem
      obtain ⟨tree, hinsert, hstores⟩ :=
        hmirrors.stores.insertKey (keyOf index.definition document) document.id
      refine ⟨tree, hinsert, ?_, ?_⟩
      · intro id found hfound
        rw [Function.update_apply] at hfound
        split at hfound
        · exact Option.some.inj hfound ▸ hindexable index hmem
        · exact hmirrors.indexable hfound
      · rw [postings_add hnew]
        exact hstores)
  apply Action.Ends.after (reads_keysForDocument hindexable)
  rw [Action.forM_map]
  exact hchanges

/-- Another document with the same id. -/
theorem Mirrors.replaceDocument (h : catalog.Mirrors documents)
    (hstored : documents collection = some stored) (hold : stored old.id = some old)
    (hid : old.id = new.id)
    (hindexable : ∀ index ∈ catalog.indexesOf collection, Indexable index.definition new) :
    (IndexCatalog.replaceDocument collection old new).Ends catalog
      (fun _ next => catalog.Follows (Function.update documents collection
        (some (Function.update stored old.id (some new)))) next)
      (fun cause next => Oversized cause ∧ catalog.Follows (Function.update documents collection
        (some (Function.update stored old.id (some new)))) next) := by
  have hchanges := h.maintain collection (Function.update stored old.id (some new))
    (fun index => moveKey (keyOf index.definition old) (keyOf index.definition new) old.id) (by
      intro index hmem
      have hmirrors := h.of_mem hstored hmem
      obtain ⟨tree, hmove, hstores⟩ :=
        @BPlusTree.Stores.moveKey _ index.definition _ _ _ new hmirrors.stores hold
      refine ⟨tree, hmove, ?_, hstores⟩
      intro id found hfound
      rw [Function.update_apply] at hfound
      split at hfound
      · exact Option.some.inj hfound ▸ hindexable index hmem
      · exact hmirrors.indexable hfound)
  have holdIndexable : ∀ index ∈ catalog.indexesOf collection, Indexable index.definition old :=
    fun index hmem => (h.of_mem hstored hmem).indexable hold
  have hmove : ∀ index : OpenIndex, replaceKey old.id
      ((index.definition.name, keyOf index.definition old),
        (index.definition.name, keyOf index.definition new)) =
      updateTree index.definition.name
        (moveKey (keyOf index.definition old) (keyOf index.definition new) old.id) := by
    intro index
    funext catalog
    exact Action.bind_of_ok (by rw [Action.ofExcept_apply, require_of _ rfl])
  apply Action.Ends.after (by rw [Action.ofExcept_apply, require_of _ hid])
  apply Action.Ends.after (reads_keysForDocument holdIndexable)
  apply Action.Ends.after (reads_keysForDocument hindexable)
  rw [List.zip_map', Action.forM_map]
  simp only [hmove]
  exact hchanges

/-- A document that is no longer there. -/
theorem Mirrors.deleteDocument (h : catalog.Mirrors documents)
    (hstored : documents collection = some stored) (hold : stored old.id = some old) :
    (IndexCatalog.deleteDocument collection old).Ends catalog
      (fun _ next => catalog.Follows (Function.update documents collection
        (some (Function.update stored old.id none))) next)
      (fun cause next => Oversized cause ∧ catalog.Follows (Function.update documents collection
        (some (Function.update stored old.id none))) next) := by
  have hchanges := h.maintain collection (Function.update stored old.id none)
    (fun index => removeKey (keyOf index.definition old) old.id) (by
      intro index hmem
      have hmirrors := h.of_mem hstored hmem
      obtain ⟨tree, hremove, hstores⟩ :=
        hmirrors.stores.removeKey (keyOf index.definition old) old.id
      refine ⟨tree, hremove, ?_, ?_⟩
      · intro id found hfound
        rw [Function.update_apply] at hfound
        split at hfound
        · cases hfound
        · exact hmirrors.indexable hfound
      · rw [postings_remove hold]
        exact hstores)
  have hindexable : ∀ index ∈ catalog.indexesOf collection, Indexable index.definition old :=
    fun index hmem => (h.of_mem hstored hmem).indexable hold
  apply Action.Ends.after (reads_keysForDocument hindexable)
  rw [Action.forM_map]
  exact hchanges

end Documents

section Removal

/-- An index is forgotten, and the files of the others are still there. -/
theorem Mirrors.forget (h : catalog.Mirrors documents) {directory : Directory}
    (hfiles : ∀ path, path ≠ metaPath name → path ≠ treePath name →
      catalog.directory.contains path → directory.contains path) :
    IndexCatalog.Mirrors ⟨directory, catalog.indexes.remove name⟩ documents := by
  have hget : ∀ {other index}, (catalog.indexes.remove name).get other = some index →
      name ≠ other ∧ catalog.indexes.get other = some index := by
    intro other index hindex
    rwa [SortedMap.get_remove, Option.ite_none_left_eq_some] at hindex
  refine ⟨fun hindex => h.named (hget hindex).2, ?_, fun hindex => h.mirrored (hget hindex).2⟩
  intro other index hindex
  obtain ⟨hne, hold⟩ := hget hindex
  obtain ⟨hmeta, htree⟩ := h.files hold
  constructor
  · exact hfiles _ (fun hsame => hne (metaPath_injective hsame).symm)
      (metaPath_ne_treePath other name) hmeta
  · exact hfiles _ (metaPath_ne_treePath name other).symm
      (fun hsame => hne (treePath_injective hsame).symm) htree

theorem onDirectory_removeFile {path : String} (h : catalog.directory.contains path) :
    onDirectory (Directory.removeFile path) catalog =
      (.ok (), { catalog with directory := catalog.directory.remove path }) := by
  rw [onDirectory, Action.zoom, Directory.removeFile_of_contains h]

/-- Dropping an index leaves the others as they are. -/
theorem Mirrors.dropIndex (h : catalog.Mirrors documents) (name : String) :
    (IndexCatalog.dropIndex name).Ends catalog
      (fun _ next => next.Mirrors documents ∧ next.indexes = catalog.indexes.remove name ∧
        ∃ index, catalog.indexes.get name = some index)
      (fun _ next => catalog.indexes.get name = none ∧ next = catalog) := by
  cases hindex : catalog.indexes.get name with
  | none =>
      have hmissing : (Action.reads fun catalog : IndexCatalog =>
          require (catalog.indexes.contains name = true)
            (Failure.error (.notFound [.text "index ", .debug name]))) catalog =
          (.error (.error (.notFound [.text "index ", .debug name])), catalog) := by
        rw [Action.reads_apply, SortedMap.contains, hindex]
        rfl
      exact .inr ⟨_, catalog, Action.bind_of_error hmissing, rfl, rfl⟩
  | some index =>
      obtain ⟨hmeta, htree⟩ := h.files hindex
      have hpresent : (Action.reads fun catalog : IndexCatalog =>
          require (catalog.indexes.contains name = true)
            (Failure.error (.notFound [.text "index ", .debug name]))) catalog =
          (.ok (), catalog) := by
        rw [Action.reads_apply, SortedMap.contains, hindex]
        rfl
      have hrest : (catalog.directory.remove (metaPath name)).contains (treePath name) := by
        rw [Directory.contains_remove]
        exact ⟨metaPath_ne_treePath name name, htree⟩
      apply Action.Ends.after hpresent
      apply Action.Ends.after (onDirectory_removeFile hmeta)
      apply Action.Ends.after (onDirectory_removeFile hrest)
      refine .inl ⟨(), _, rfl, h.forget ?_, rfl, index, rfl⟩
      intro path hpathMeta hpathTree hpath
      rw [Directory.contains_remove, Directory.contains_remove]
      exact ⟨hpathTree.symm, hpathMeta.symm, hpath⟩

/-- All indexes of a collection are forgotten with it. -/
theorem Mirrors.dropCollectionIndexes (h : catalog.Mirrors documents) (collection : String) :
    ∃ next, IndexCatalog.dropCollectionIndexes collection catalog = (.ok (), next) ∧
      next.Mirrors (Function.update documents collection none) ∧
      ∀ name, next.indexes.get name = (catalog.indexes.get name).filter fun index =>
        index.definition.collection ≠ collection := by
  have hnodup := h.nodup_namesOf collection
  have hloop : Action.Ends ((catalog.namesOf collection).forM IndexCatalog.dropIndex) catalog
      (fun _ next => next.Mirrors documents ∧ ∀ name, next.indexes.get name =
        if name ∈ catalog.namesOf collection then none else catalog.indexes.get name)
      (fun _ _ => False) := by
    refine Action.Ends.forM (I := fun done (next : IndexCatalog) => next.Mirrors documents ∧ ∀ name,
      next.indexes.get name = if name ∈ done then none else catalog.indexes.get name) ?_ ?_
    · exact ⟨h, fun name => (if_neg List.not_mem_nil).symm⟩
    · rintro done name rest middle hsplit ⟨hmiddle, hdone⟩
      have hfresh : name ∉ done := by
        rw [hsplit] at hnodup
        exact fun hmem => (List.nodup_append.mp hnodup).2.2 name hmem name List.mem_cons_self rfl
      have hname : name ∈ catalog.namesOf collection := by
        rw [hsplit]
        simp
      obtain ⟨index, hindex, rfl⟩ := List.mem_map.mp hname
      obtain ⟨hget, -⟩ := h.mem_indexesOf.mp hindex
      apply (hmiddle.dropIndex index.definition.name).weaken
      · rintro _ next ⟨hnext, hremoved, -⟩
        refine ⟨hnext, fun other => ?_⟩
        rw [hremoved, SortedMap.get_remove, hdone other]
        by_cases hother : index.definition.name = other
        · rw [if_pos hother, if_pos (by simp [hother])]
        · have hmem : other ∈ done ++ [index.definition.name] ↔ other ∈ done := by
            simp [Ne.symm hother]
          rw [if_neg hother]
          exact if_congr hmem.symm rfl rfl
      · rintro _ next ⟨hnone, -⟩
        rw [hdone, if_neg hfresh, hget] at hnone
        cases hnone
  rcases hloop with ⟨⟨⟩, next, hrun, hnext, hgone⟩ | ⟨_, _, _, hfalse⟩
  · have hkept : ∀ name, next.indexes.get name = (catalog.indexes.get name).filter fun index =>
        index.definition.collection ≠ collection := by
      intro name
      rw [hgone]
      by_cases hname : name ∈ catalog.namesOf collection
      · obtain ⟨index, hindex, hcollection⟩ := h.mem_namesOf.mp hname
        rw [if_pos hname, hindex, Option.filter_some_neg (by simp [hcollection])]
      · rw [if_neg hname]
        cases hindex : catalog.indexes.get name with
        | none => rfl
        | some index =>
            have hother : index.definition.collection ≠ collection := fun hcollection =>
              hname (h.mem_namesOf.mpr ⟨index, hindex, hcollection⟩)
            exact (Option.filter_some_pos (by simpa using hother)).symm
    refine ⟨next, hrun, ⟨hnext.named, hnext.files, ?_⟩, hkept⟩
    intro name index hindex
    rw [hkept] at hindex
    have hother := of_decide_eq_true (Option.filter_eq_some_iff.mp hindex).2
    rw [Function.update_of_ne hother]
    exact hnext.mirrored ((hkept name).trans hindex)
  · exact hfalse.elim

end Removal

section Creation

/-- No file but those of one index has been removed. -/
def Undisturbed (name : String) (before after : Directory) : Prop :=
  ∀ path, path ≠ metaPath name → path ≠ treePath name → before.contains path → after.contains path

theorem Undisturbed.refl (name : String) (directory : Directory) :
    Undisturbed name directory directory := fun _ _ _ h => h

theorem Undisturbed.trans {before middle after : Directory}
    (hfirst : Undisturbed name before middle)
    (hsecond : Undisturbed name middle after) : Undisturbed name before after :=
  fun path hmeta htree h => hsecond path hmeta htree (hfirst path hmeta htree h)

theorem Undisturbed.of_contains {before after : Directory}
    (h : ∀ path, before.contains path → after.contains path) : Undisturbed name before after :=
  fun path _ _ hpath => h path hpath

theorem undisturbed_insert (name path : String) (directory : Directory) (bytes : Bytes) :
    Undisturbed name directory (directory.insert path bytes) :=
  .of_contains fun _ hpath => (Directory.contains_insert ..).mpr (.inr hpath)

/-- Files of an index that is not open are of no concern. -/
theorem Mirrors.frame (h : catalog.Mirrors documents) (hname : catalog.indexes.get name = none)
    {directory : Directory} (hfiles : Undisturbed name catalog.directory directory) :
    IndexCatalog.Mirrors { catalog with directory } documents := by
  have hforgotten := h.forget hfiles
  have hsame : catalog.indexes.remove name = catalog.indexes := by
    ext other
    rw [SortedMap.get_remove]
    split
    · rename_i heq
      rw [← heq, hname]
    · rfl
  rw [hsame] at hforgotten
  exact hforgotten

/-- Another index of a collection that is there. -/
theorem Mirrors.add (h : catalog.Mirrors documents) {index : OpenIndex}
    (hnamed : index.definition.name = name)
    (hfiles : catalog.directory.contains (metaPath name) ∧
      catalog.directory.contains (treePath name))
    (hstored : documents index.definition.collection = some stored)
    (hmirrors : index.Mirrors stored) :
    IndexCatalog.Mirrors
      { catalog with indexes := catalog.indexes.insert name index } documents := by
  constructor
  · intro other found hfound
    obtain ⟨rfl, rfl⟩ | ⟨-, hold⟩ := SortedMap.get_insert_eq_some.mp hfound
    · exact hnamed
    · exact h.named hold
  · intro other found hfound
    obtain ⟨rfl, rfl⟩ | ⟨-, hold⟩ := SortedMap.get_insert_eq_some.mp hfound
    · exact hfiles
    · exact h.files hold
  · intro other found hfound
    obtain ⟨rfl, rfl⟩ | ⟨-, hold⟩ := SortedMap.get_insert_eq_some.mp hfound
    · exact ⟨stored, hstored, hmirrors⟩
    · exact h.mirrored hold

/-- A new tree is empty, and the other files are left alone. -/
theorem createFile_ends (name : String) (directory : Directory) :
    (BPlusTree.createFile (treePath name)).Ends directory
      (fun tree after => tree.Stores ∅ ∧ after.contains (treePath name) ∧
        Undisturbed name directory after)
      (fun _ after => Undisturbed name directory after) := by
  cases hcreate : BPlusTree.create with
  | error cause =>
      refine .inr ⟨.error cause, directory, Action.bind_of_error ?_, .refl name directory⟩
      rw [Action.ofExcept_apply, hcreate]
      rfl
  | ok tree =>
      have hstores : tree.Stores ∅ := stores_createWithMaxKeys hcreate
      have hfirst : (Action.ofExcept BPlusTree.create.lift : Action Failure Directory BPlusTree)
          directory = (.ok tree, directory) := by
        rw [Action.ofExcept_apply, hcreate]
        rfl
      apply Action.Ends.after hfirst
      by_cases hpresent : directory.contains (treePath name)
      · exact .inr ⟨_, directory, Action.bind_of_error (if_pos hpresent), .refl name directory⟩
      · apply Action.Ends.after (Directory.createNew_of_not_contains hpresent)
        have hpath : (directory.insert (treePath name) []).contains (treePath name) :=
          (Directory.contains_insert ..).mpr (.inl rfl)
        have hinserted := undisturbed_insert name (treePath name) directory []
        apply (hstores.sync hpath).weaken
        · rintro _ after ⟨⟨dirty, rfl⟩, hkept⟩
          exact ⟨hstores.setDirty dirty, hkept _ hpath, hinserted.trans (.of_contains hkept)⟩
        · rintro _ after ⟨-, rfl⟩
          exact hinserted

/-- The tree holds what the keys say, and both files are written. -/
theorem fillIndex_ends {definition : IndexDefinition} {tree : BPlusTree} {directory : Directory}
    (hstores : tree.Stores ∅) (hpath : directory.contains (treePath definition.name))
    (keys : List (Option IndexKey × NovaId)) :
    (fillIndex definition keys tree).Ends directory
      (fun filled after => filled.Stores {p | (some p.1, p.2) ∈ keys ∨ p ∈ (∅ : Set _)} ∧
        after.contains (metaPath definition.name) ∧ after.contains (treePath definition.name) ∧
        Undisturbed definition.name directory after)
      (fun _ after => Undisturbed definition.name directory after) := by
  obtain ⟨filled, hfill, hfilled⟩ := hstores.backfill keys
  apply Action.Ends.after (by rw [Action.ofExcept_apply, hfill])
  apply (hfilled.sync hpath).seq
  · rintro _ written ⟨⟨dirty, rfl⟩, hkept⟩
    have hwritten := hfilled.setDirty dirty
    have hundisturbed : Undisturbed definition.name directory written := .of_contains hkept
    cases hencode : encodeDefinition definition with
    | error cause =>
        refine .inr ⟨.error cause, written, Action.bind_of_error (Action.bind_of_error ?_),
          hundisturbed⟩
        rw [Action.ofExcept_apply, hencode]
        rfl
    | ok bytes =>
        have hencoded : (Action.ofExcept (encodeDefinition definition).lift :
            Action Failure Directory Bytes) written = (.ok bytes, written) := by
          rw [Action.ofExcept_apply, hencode]
          rfl
        by_cases hpresent : written.contains (metaPath definition.name)
        · exact .inr ⟨_, written, Action.bind_of_error
            ((Action.bind_of_ok hencoded).trans (if_pos hpresent)), hundisturbed⟩
        · refine .inl ⟨_, written.insert (metaPath definition.name) bytes, ?_, hwritten, ?_, ?_,
            hundisturbed.trans (undisturbed_insert _ _ _ _)⟩
          · exact Action.bind_of_ok ((Action.bind_of_ok hencoded).trans
              (Directory.createNew_of_not_contains hpresent))
          · exact (Directory.contains_insert ..).mpr (.inl rfl)
          · exact (Directory.contains_insert ..).mpr (.inr (hkept _ hpath))
  · rintro _ written ⟨-, rfl⟩
    exact .refl _ _

/-- The keys of a list of documents are the postings of the store that it lists. -/
theorem postings_of_list {definition : IndexDefinition} {list : List Document}
    (hkeyed : ∀ {id document}, stored id = some document → document.id = id)
    (hlist : ∀ document, document ∈ list ↔ stored document.id = some document) :
    {p : IndexKey × NovaId | (some p.1, p.2) ∈ list.map (fun document =>
      (keyOf definition document, document.id)) ∨ p ∈ (∅ : Set _)} =
        postings (keyOf definition) stored := by
  ext ⟨key, id⟩
  simp only [Set.mem_ofPred_eq, Set.mem_empty_iff_false, or_false, List.mem_map, Prod.mk.injEq,
    mem_postings]
  constructor
  · rintro ⟨document, hmem, hkey, rfl⟩
    exact ⟨document, (hlist document).mp hmem, hkey⟩
  · rintro ⟨document, hdocument, hkey⟩
    have hid := hkeyed hdocument
    refine ⟨document, (hlist document).mpr ?_, hkey, hid⟩
    rw [hid]
    exact hdocument

/-- A new index starts with the documents of its collection. -/
theorem Mirrors.createIndex [CharacterTables] (h : catalog.Mirrors documents)
    (hstored : documents collection = some stored) {list : List Document}
    (hkeyed : ∀ {id document}, stored id = some document → document.id = id)
    (hlist : ∀ document, document ∈ list ↔ stored document.id = some document)
    (name : String) (field : List String) :
    (IndexCatalog.createIndex name collection field list).Ends catalog
      (fun _ next => next.Mirrors documents ∧ catalog.indexes.get name = none ∧ ∃ index,
        index.definition = ⟨name, collection, field⟩ ∧
        next.indexes = catalog.indexes.insert name index)
      (fun _ next => next.Mirrors documents ∧ next.indexes = catalog.indexes) := by
  cases hprepare : catalog.prepareIndex ⟨name, collection, field⟩ list with
  | error cause =>
      refine .inr ⟨.error cause, catalog, Action.bind_of_error ?_, h, rfl⟩
      rw [Action.reads_apply, hprepare]
      rfl
  | ok keys =>
      have hread : (Action.reads fun catalog : IndexCatalog =>
          (catalog.prepareIndex ⟨name, collection, field⟩ list).lift) catalog =
          (.ok keys, catalog) := by
        rw [Action.reads_apply, hprepare]
        rfl
      simp only [prepareIndex, bind_eq_ok, require_eq_ok] at hprepare
      obtain ⟨_, -, _, -, _, -, _, hnew, hkeys⟩ := hprepare
      obtain ⟨hindexable, rfl⟩ := documentKeys_eq_ok.mp hkeys
      have hname : catalog.indexes.get name = none := by
        simpa [SortedMap.contains] using hnew
      apply Action.Ends.after hread
      have hcreate : (onDirectory (BPlusTree.createFile (treePath name))).Ends catalog _ _ :=
        (createFile_ends name catalog.directory).zoom
      apply hcreate.seq
      · rintro tree _ ⟨created, rfl, hstores, hpath, hcreated⟩
        have hfills := @fillIndex_ends ⟨name, collection, field⟩ tree created hstores hpath
          (list.map fun document => (keyOf ⟨name, collection, field⟩ document, document.id))
        rw [postings_of_list hkeyed hlist] at hfills
        rcases hfills with ⟨filled, written, hfill, hfilled, hmeta, htree, hwritten⟩ |
          ⟨cause, written, hfill, hwritten⟩
        · have hindex : OpenIndex.Mirrors ⟨⟨name, collection, field⟩, filled⟩ stored := by
            refine ⟨fun {id document} hdocument => hindexable document ?_, hfilled⟩
            rw [hlist, hkeyed hdocument]
            exact hdocument
          have hframed := h.frame hname (hcreated.trans hwritten)
          exact .inl ⟨(), _, by simp only [hfill],
            @Mirrors.add _ _ name stored hframed ⟨⟨name, collection, field⟩, filled⟩ rfl
              ⟨hmeta, htree⟩ hstored hindex, hname, _, rfl, rfl⟩
        · have hremoved : Undisturbed name written
              ((written.remove (treePath name)).remove (metaPath name)) := by
            intro path hmeta htree hpresent
            rw [Directory.contains_remove, Directory.contains_remove]
            exact ⟨hmeta.symm, htree.symm, hpresent⟩
          exact .inr ⟨cause, _, by simp only [hfill],
            h.frame hname ((hcreated.trans hwritten).trans hremoved), rfl⟩
      · rintro _ _ ⟨created, rfl, hcreated⟩
        exact ⟨h.frame hname hcreated, rfl⟩

end Creation

end IndexCatalog

end NovaBase.Index
