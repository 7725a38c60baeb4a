import NovaBase.Index.Reopen
import NovaBase.Lib.Run

/-!
# Commands keep the files of the catalog

Every command on the catalog rewrites the snapshots of the trees that it changes.
After commands that all succeed the files are those of the indexes in memory.
-/

namespace NovaBase.Index

open Lib Lib.Bytes

/-- A command that changes a catalog. -/
inductive CatalogCall
  | createIndex (name collection : String) (field : List String) (documents : List Document)
  | insertDocument (collection : String) (document : Document)
  | replaceDocument (collection : String) (old new : Document)
  | deleteDocument (collection : String) (document : Document)
  | dropIndex (name : String)
  | dropCollectionIndexes (collection : String)

namespace IndexCatalog

variable [CharacterTables]

/-- Make a call of the catalog. -/
def perform : CatalogCall → Action Failure IndexCatalog Unit
  | .createIndex name collection field documents => createIndex name collection field documents
  | .insertDocument collection document => insertDocument collection document
  | .replaceDocument collection old new => replaceDocument collection old new
  | .deleteDocument collection document => deleteDocument collection document
  | .dropIndex name => dropIndex name
  | .dropCollectionIndexes collection => dropCollectionIndexes collection

/-- The catalog after a command that succeeds. -/
def succeed (catalog : IndexCatalog) (call : CatalogCall) : Option IndexCatalog :=
  match perform call catalog with
  | (.ok (), next) => some next
  | (.error _, _) => none

end IndexCatalog

/-- An update keeps trees valid, and marks those that it changes. -/
def Marks (update : BPlusTree → Partial BPlusTree) : Prop :=
  ∀ {tree tree'}, (∃ contents, tree.Stores contents) → update tree = .ok tree' →
    (∃ contents, tree'.Stores contents) ∧ (tree' = tree ∨ tree'.dirty = true)

section Updates

/-- Two updates one after the other mark the tree if each of them does. -/
theorem Marks.bind {first second : BPlusTree → Partial BPlusTree} (hfirst : Marks first)
    (hsecond : Marks second) : Marks fun tree => first tree >>= second := by
  intro tree last hvalid hupdate
  obtain ⟨middle, hmiddle, hlast⟩ := bind_eq_ok.mp hupdate
  obtain ⟨hmiddleValid, hmarked⟩ := hfirst hvalid hmiddle
  obtain ⟨hlastValid, hlastMarked⟩ := hsecond hmiddleValid hlast
  refine ⟨hlastValid, ?_⟩
  rcases hlastMarked with rfl | hdirty
  · exact hmarked
  · exact .inr hdirty

theorem marks_pure : Marks pure := by
  rintro tree tree' hvalid hupdate
  obtain rfl : tree = tree' := by simpa using hupdate
  exact ⟨hvalid, .inl rfl⟩

theorem marks_insertKey (key : Option IndexKey) (id : NovaId) : Marks (insertKey key id) := by
  cases key with
  | none => exact marks_pure
  | some key =>
      rintro tree tree' ⟨contents, hstores⟩ hupdate
      obtain ⟨last, hinsert, hlast⟩ := hstores.insert key id
      obtain rfl := Except.ok.inj (hinsert.symm.trans hupdate)
      exact ⟨⟨_, hlast⟩, .inr (BPlusTree.insert_dirty hinsert)⟩

theorem marks_removeKey (key : Option IndexKey) (id : NovaId) : Marks (removeKey key id) := by
  cases key with
  | none => exact marks_pure
  | some key =>
      rintro tree tree' ⟨contents, hstores⟩ hupdate
      obtain ⟨removed, last, hremove, -, hlast⟩ := hstores.remove key id
      rw [removeKey, hremove, map_ok] at hupdate
      obtain rfl := Except.ok.inj hupdate
      exact ⟨⟨_, hlast⟩, BPlusTree.remove_dirty hremove⟩

theorem marks_moveKey (oldKey newKey : Option IndexKey) (id : NovaId) :
    Marks (moveKey oldKey newKey id) := by
  by_cases hsame : oldKey = newKey
  · have hmove : moveKey oldKey newKey id = pure := funext fun tree => if_pos hsame
    rw [hmove]
    exact marks_pure
  · have hmove : moveKey oldKey newKey id =
        fun tree => removeKey oldKey id tree >>= insertKey newKey id :=
      funext fun tree => if_neg hsame
    rw [hmove]
    exact Marks.bind (marks_removeKey oldKey id) (marks_insertKey newKey id)

theorem marks_backfill (keys : List (Option IndexKey × NovaId)) : Marks (backfill keys) := by
  induction keys with
  | nil => exact marks_pure
  | cons entry rest ih => exact Marks.bind (marks_insertKey entry.1 entry.2) ih

end Updates

section Frames

variable {path : String} {directory directory' : Directory} {tree : BPlusTree}

/-- Other files do not matter for a saved tree. -/
theorem BPlusTree.Saved.frame (h : tree.Saved path directory)
    (hsame : directory'.get path = directory.get path) : tree.Saved path directory' := by
  refine ⟨h.valid, ?_, fun hclean => ?_⟩
  · rw [SortedMap.contains, hsame]
    exact h.present
  · rw [hsame]
    exact h.current hclean

variable [CharacterTables] {index : OpenIndex} {name : String}

/-- Whether an index is filed depends on its own two files only. -/
theorem OpenIndex.Filed.frame (h : index.Filed name directory)
    (hmeta : directory'.get (metaPath name) = directory.get (metaPath name))
    (htree : directory'.get (treePath name) = directory.get (treePath name)) :
    index.Filed name directory' where
  named := h.named
  identifier := h.identifier
  collection := h.collection
  field := h.field
  described := by
    rw [hmeta]
    exact h.described
  saved := h.saved.frame htree

end Frames

namespace IndexCatalog

variable {catalog next last : IndexCatalog} {index : OpenIndex} {name collection : String}

theorem setTree_defines (hindex : catalog.indexes.get name = some index) (tree : BPlusTree)
    (directory : Directory) :
    catalog.Defines ({ catalog with directory }.setTree name index tree) := by
  intro other
  rw [setTree, SortedMap.get_insert]
  split
  · rename_i hsame
    subst hsame
    rw [hindex]
    rfl
  · rfl

section Changes

variable [CharacterTables]

/-- One tree is replaced, and its file at most with it. -/
theorem Filed.replaceTree (h : catalog.Filed) (hindex : catalog.indexes.get name = some index)
    {tree : BPlusTree} {directory : Directory} (hsaved : tree.Saved (treePath name) directory)
    (hothers : ∀ path, path ≠ treePath name → directory.get path = catalog.directory.get path) :
    ({ catalog with directory }.setTree name index tree).Filed := by
  have hfiled := h.indexes hindex
  constructor
  · intro other found hfound
    rcases SortedMap.get_insert_eq_some.mp hfound with ⟨rfl, rfl⟩ | ⟨hne, hold⟩
    · obtain ⟨bytes, hfile, hencode⟩ := hfiled.described
      refine ⟨hfiled.named, hfiled.identifier, hfiled.collection, hfiled.field,
        ⟨bytes, ?_, hencode⟩, hsaved⟩
      exact (hothers _ (metaPath_ne_treePath name name)).trans hfile
    · apply (h.indexes hold).frame
      · exact hothers _ (metaPath_ne_treePath other name)
      · exact hothers _ fun hsame => hne (treePath_injective hsame).symm
  · intro path hpath
    have hcontains : ∀ other, catalog.indexes.contains other = true →
        ((catalog.indexes.insert name { index with tree }).contains other) = true := by
      intro other hother
      rw [SortedMap.contains, SortedMap.get_insert]
      split
      · rfl
      · exact hother
    by_cases hsame : path = treePath name
    · refine ⟨name, hcontains name ?_, .inr hsame⟩
      rw [SortedMap.contains, hindex]
      rfl
    · have hold : catalog.directory.contains path = true := by
        rw [SortedMap.contains, ← hothers path hsame]
        exact hpath
      obtain ⟨other, hother, hpaths⟩ := h.files hold
      exact ⟨other, hcontains other hother, hpaths⟩

/-- Only trees of the collection have changed, and not the written ones of them. -/
structure Pending (catalog next : IndexCatalog) (collection : String) (written : List String) :
    Prop where
  filed : next.Filed
  defines : catalog.Defines next
  dirty : ∀ {name index}, next.indexes.get name = some index → index.tree.dirty = true →
    index.definition.collection = collection ∧ name ∉ written

/-- Before anything is changed, nothing waits to be written. -/
theorem Filed.pending (h : catalog.Filed) (hclean : catalog.Clean) (collection : String) :
    catalog.Pending catalog collection [] where
  filed := h
  defines _ := rfl
  dirty hindex hdirty := by
    rw [hclean _ _ hindex] at hdirty
    cases hdirty

/-- A change of a tree of the collection. -/
theorem Pending.updateTree (h : catalog.Pending next collection [])
    {update : BPlusTree → Partial BPlusTree} (hmarks : Marks update)
    (hname : ∀ index, catalog.indexes.get name = some index →
      index.definition.collection = collection)
    (hok : IndexCatalog.updateTree name update next = (.ok (), last)) :
    catalog.Pending last collection [] := by
  rw [IndexCatalog.updateTree] at hok
  split at hok
  · cases hok
  rename_i index hindex
  split at hok
  · cases hok
  rename_i tree htree
  obtain ⟨-, rfl⟩ := Prod.mk.inj hok
  have hfiled := h.filed.indexes hindex
  obtain ⟨hvalid, hmarked⟩ := hmarks hfiled.saved.valid htree
  have hcollection : index.definition.collection = collection := by
    have hdefinition := h.defines name
    rw [hindex] at hdefinition
    obtain ⟨old, hold, hsame⟩ := Option.map_eq_some_iff.mp hdefinition.symm
    rw [← hsame]
    exact hname old hold
  refine ⟨h.filed.replaceTree hindex (hfiled.saved.changed hvalid hmarked) (fun _ _ => rfl),
    h.defines.trans (setTree_defines hindex tree next.directory), fun hfound hdirty => ?_⟩
  rcases SortedMap.get_insert_eq_some.mp hfound with ⟨rfl, rfl⟩ | ⟨-, hold⟩
  · exact ⟨hcollection, List.not_mem_nil⟩
  · exact h.dirty hold hdirty

/-- Writing one tree leaves the other changed trees to be written. -/
theorem Pending.syncIndex {written : List String} (h : catalog.Pending next collection written)
    (hok : IndexCatalog.syncIndex name next = (.ok (), last)) :
    catalog.Pending last collection (written ++ [name]) := by
  rw [IndexCatalog.syncIndex] at hok
  split at hok
  · rename_i habsent
    obtain ⟨-, rfl⟩ := Prod.mk.inj hok
    refine ⟨h.filed, h.defines, fun {other index} hindex hdirty => ?_⟩
    obtain ⟨hcollection, hunwritten⟩ := h.dirty hindex hdirty
    refine ⟨hcollection, ?_⟩
    rw [List.mem_append, List.mem_singleton, not_or]
    refine ⟨hunwritten, ?_⟩
    rintro rfl
    rw [habsent] at hindex
    cases hindex
  · rename_i index hindex
    have hfiled := h.filed.indexes hindex
    rcases hfiled.saved.sync with ⟨tree, directory, hsync, rfl, hsaved, hothers⟩ |
      ⟨cause, directory, hsync, -⟩
    · rw [hsync] at hok
      obtain ⟨-, rfl⟩ := Prod.mk.inj hok
      refine ⟨h.filed.replaceTree hindex hsaved hothers,
        h.defines.trans (setTree_defines hindex _ directory), fun {other found} hfound hdirty => ?_⟩
      rcases SortedMap.get_insert_eq_some.mp hfound with ⟨rfl, rfl⟩ | ⟨hne, hold⟩
      · cases hdirty
      · obtain ⟨hcollection, hunwritten⟩ := h.dirty hold hdirty
        refine ⟨hcollection, ?_⟩
        rw [List.mem_append, List.mem_singleton, not_or]
        exact ⟨hunwritten, hne.symm⟩
    · rw [hsync] at hok
      cases hok

end Changes

section Commands

theorem lift_reads_eq_ok {α : Type} {f : IndexCatalog → Result α} {a : α}
    (hok : (Action.reads fun catalog => (f catalog).lift : Action Failure IndexCatalog α) catalog =
      (.ok a, next)) : f catalog = .ok a ∧ next = catalog := by
  obtain ⟨hvalue, rfl⟩ := Prod.mk.inj hok
  exact ⟨Result.lift_eq_ok.mp hvalue, rfl⟩

theorem onDirectory_eq_ok {α : Type} {x : Action Failure Directory α} {a : α}
    (hok : onDirectory x catalog = (.ok a, next)) :
    ∃ directory, x catalog.directory = (.ok a, directory) ∧ { catalog with directory } = next := by
  obtain ⟨hvalue, hnext⟩ := Prod.mk.inj hok
  exact ⟨(x catalog.directory).2, Prod.ext hvalue rfl, hnext⟩

/-- A new tree is filled and written, and its definition beside it. -/
theorem fillIndex_eq_ok {definition : IndexDefinition} {keys : List (Option IndexKey × NovaId)}
    {tree tree' : BPlusTree} {directory directory' : Directory}
    (hsaved : tree.Saved (treePath definition.name) directory)
    (hok : fillIndex definition keys tree directory = (.ok tree', directory')) :
    tree'.Saved (treePath definition.name) directory' ∧ tree'.dirty = false ∧
      (∃ bytes, directory'.get (metaPath definition.name) = some bytes ∧
        encodeDefinition definition = .ok bytes) ∧
      ∀ path, path ≠ treePath definition.name → path ≠ metaPath definition.name →
        directory'.get path = directory.get path := by
  obtain ⟨filled, middle, hfill, hsyncs⟩ := Action.bind_eq_ok.mp hok
  obtain ⟨hfilled, rfl⟩ := Prod.mk.inj hfill
  obtain ⟨hvalid, hmarked⟩ := marks_backfill keys hsaved.valid hfilled
  obtain ⟨synced, written, hsync, hwrites⟩ := Action.bind_eq_ok.mp hsyncs
  rcases (hsaved.changed hvalid hmarked).sync with ⟨clean, last, hclean, rfl, hlast, hothers⟩ |
    ⟨cause, last, herror, -⟩
  · obtain ⟨hsame, rfl⟩ := Prod.mk.inj (hclean.symm.trans hsync)
    obtain rfl := Except.ok.inj hsame
    obtain ⟨_, described, hwrite, hreturn⟩ := Action.bind_eq_ok.mp hwrites
    obtain ⟨htree, rfl⟩ := Prod.mk.inj hreturn
    obtain rfl := Except.ok.inj htree
    obtain ⟨bytes, encoded, hencode, hcreate⟩ := Action.bind_eq_ok.mp hwrite
    obtain ⟨hbytes, rfl⟩ := Prod.mk.inj hencode
    rw [Directory.createNew] at hcreate
    split at hcreate
    · cases hcreate
    · obtain ⟨-, rfl⟩ := Prod.mk.inj hcreate
      refine ⟨?_, rfl, ⟨bytes, ?_, Result.lift_eq_ok.mp hbytes⟩, fun path htree hmeta => ?_⟩
      · apply hlast.frame
        rw [SortedMap.get_insert, if_neg (metaPath_ne_treePath _ _)]
      · rw [SortedMap.get_insert, if_pos rfl]
      · rw [SortedMap.get_insert, if_neg hmeta.symm]
        exact hothers path htree
  · cases herror.symm.trans hsync

theorem onDirectory_removeFile_eq_ok {path : String}
    (hok : onDirectory (Directory.removeFile path) catalog = (.ok (), next)) :
    { catalog with directory := catalog.directory.remove path } = next := by
  simp only [onDirectory, Action.zoom, Directory.removeFile] at hok
  split at hok
  · exact (Prod.mk.inj hok).2
  · cases hok

variable [CharacterTables]

/-- The names of the indexes of a collection. -/
theorem Filed.mem_namesOf (h : catalog.Filed) :
    name ∈ catalog.namesOf collection ↔
      ∃ index, catalog.indexes.get name = some index ∧
        index.definition.collection = collection := by
  simp only [namesOf, indexesOf, SortedMap.values, List.mem_map, List.mem_filter, Prod.exists,
    exists_eq_right, decide_eq_true_eq]
  constructor
  · rintro ⟨index, ⟨⟨stored, hmem⟩, hcollection⟩, rfl⟩
    have hindex := catalog.indexes.mem_entries.mp hmem
    rw [(h.indexes hindex).named]
    exact ⟨index, hindex, hcollection⟩
  · rintro ⟨index, hindex, hcollection⟩
    exact ⟨index, ⟨⟨name, catalog.indexes.mem_entries.mpr hindex⟩, hcollection⟩,
      (h.indexes hindex).named⟩

/-- Writing the snapshots of the collection leaves no tree unwritten. -/
theorem Pending.syncCollection (h : catalog.Pending next collection [])
    (hok : IndexCatalog.syncCollection collection next = (.ok (), last)) :
    last.Filed ∧ last.Clean := by
  have hlast : next.Pending last collection (next.namesOf collection) := by
    have hstart : next.Pending next collection [] := ⟨h.filed, fun _ => rfl, h.dirty⟩
    refine Action.forM_ok (I := fun written middle => next.Pending middle collection written) hok
      hstart ?_
    intro written name rest middle middle' _ hpending hsync
    exact hpending.syncIndex hsync
  refine ⟨hlast.filed, fun name index hindex => ?_⟩
  rw [Bool.eq_false_iff]
  intro hdirty
  obtain ⟨hcollection, hunwritten⟩ := hlast.dirty hindex hdirty
  have hdefinition := hlast.defines name
  rw [hindex] at hdefinition
  obtain ⟨old, hold, hsame⟩ := Option.map_eq_some_iff.mp hdefinition.symm
  exact hunwritten (h.filed.mem_namesOf.mpr ⟨old, hold, by rw [hsame, hcollection]⟩)

/-- A loop over changes of trees of the collection, and then the snapshots. -/
theorem Filed.changes {γ : Type} (h : catalog.Filed) (hclean : catalog.Clean) {changes : List γ}
    {change : γ → Action Failure IndexCatalog Unit}
    (hchange : ∀ a ∈ changes, ∀ middle middle', catalog.Pending middle collection [] →
      change a middle = (.ok (), middle') → catalog.Pending middle' collection [])
    (hloop : changes.forM change catalog = (.ok (), next))
    (hsync : IndexCatalog.syncCollection collection next = (.ok (), last)) :
    last.Filed ∧ last.Clean := by
  have hpending : catalog.Pending next collection [] := by
    refine Action.forM_ok (I := fun _ middle => catalog.Pending middle collection []) hloop
      (h.pending hclean collection) ?_
    intro done a rest middle middle' hsplit hmiddle hstep
    exact hchange a (by simp [hsplit]) middle middle' hmiddle hstep
  exact hpending.syncCollection hsync

/-- The names in the keys of a document are those of indexes of the collection. -/
theorem Filed.keysForDocument (h : catalog.Filed) {document : Document}
    {keys : List (String × Option IndexKey)}
    (hkeys : catalog.keysForDocument collection document = .ok keys)
    {change : String × Option IndexKey}
    (hmem : change ∈ keys) (hindex : catalog.indexes.get change.1 = some index) :
    index.definition.collection = collection := by
  obtain ⟨-, rfl⟩ := keysFor_eq_ok.mp hkeys
  obtain ⟨found, hfound, rfl⟩ := List.mem_map.mp hmem
  have hname : found.definition.name ∈ catalog.namesOf collection := List.mem_map_of_mem hfound
  obtain ⟨stored, hstored, hcollection⟩ := h.mem_namesOf.mp hname
  obtain rfl := Option.some.inj (hindex.symm.trans hstored)
  exact hcollection

/-- A successful insertion leaves every index filed and no tree changed. -/
theorem Filed.insertDocument (h : catalog.Filed) (hclean : catalog.Clean) {document : Document}
    (hok : IndexCatalog.insertDocument collection document catalog = (.ok (), last)) :
    last.Filed ∧ last.Clean := by
  obtain ⟨keys, middle, hread, hchanged⟩ := Action.bind_eq_ok.mp hok
  obtain ⟨hkeys, rfl⟩ := lift_reads_eq_ok hread
  obtain ⟨_, next, hloop, hsync⟩ := Action.bind_eq_ok.mp hchanged
  apply h.changes hclean _ hloop hsync
  intro change hmem middle middle' hpending hstep
  exact hpending.updateTree (marks_insertKey change.2 document.id)
    (fun index hindex => h.keysForDocument hkeys hmem hindex) hstep

theorem Filed.deleteDocument (h : catalog.Filed) (hclean : catalog.Clean) {document : Document}
    (hok : IndexCatalog.deleteDocument collection document catalog = (.ok (), last)) :
    last.Filed ∧ last.Clean := by
  obtain ⟨keys, middle, hread, hchanged⟩ := Action.bind_eq_ok.mp hok
  obtain ⟨hkeys, rfl⟩ := lift_reads_eq_ok hread
  obtain ⟨_, next, hloop, hsync⟩ := Action.bind_eq_ok.mp hchanged
  apply h.changes hclean _ hloop hsync
  intro change hmem middle middle' hpending hstep
  exact hpending.updateTree (marks_removeKey change.2 document.id)
    (fun index hindex => h.keysForDocument hkeys hmem hindex) hstep

theorem Filed.replaceDocument (h : catalog.Filed) (hclean : catalog.Clean) {old new : Document}
    (hok : IndexCatalog.replaceDocument collection old new catalog = (.ok (), last)) :
    last.Filed ∧ last.Clean := by
  obtain ⟨_, checked, hsame, hreads⟩ := Action.bind_eq_ok.mp hok
  obtain ⟨-, rfl⟩ := Prod.mk.inj hsame
  obtain ⟨oldKeys, middle, holdRead, hnewReads⟩ := Action.bind_eq_ok.mp hreads
  obtain ⟨holdKeys, rfl⟩ := lift_reads_eq_ok holdRead
  obtain ⟨newKeys, middle, hnewRead, hchanged⟩ := Action.bind_eq_ok.mp hnewReads
  obtain ⟨-, rfl⟩ := lift_reads_eq_ok hnewRead
  obtain ⟨_, next, hloop, hsync⟩ := Action.bind_eq_ok.mp hchanged
  apply h.changes hclean _ hloop hsync
  intro change hmem middle middle' hpending hstep
  obtain ⟨_, checked, hcheck, hmove⟩ := Action.bind_eq_ok.mp hstep
  obtain ⟨-, rfl⟩ := Prod.mk.inj hcheck
  exact hpending.updateTree (marks_moveKey change.1.2 change.2.2 old.id)
    (fun index hindex => h.keysForDocument holdKeys (List.of_mem_zip hmem).1 hindex) hmove

theorem Filed.dropIndex (h : catalog.Filed) (hclean : catalog.Clean)
    (hok : IndexCatalog.dropIndex name catalog = (.ok (), last)) : last.Filed ∧ last.Clean := by
  obtain ⟨_, checked, hpresent, hremovals⟩ := Action.bind_eq_ok.mp hok
  obtain ⟨-, rfl⟩ := Prod.mk.inj hpresent
  obtain ⟨_, middle, hmeta, hremoval⟩ := Action.bind_eq_ok.mp hremovals
  obtain ⟨_, next, htree, hforget⟩ := Action.bind_eq_ok.mp hremoval
  obtain ⟨-, rfl⟩ := Prod.mk.inj hforget
  obtain rfl := onDirectory_removeFile_eq_ok hmeta
  obtain rfl := onDirectory_removeFile_eq_ok htree
  constructor
  · constructor
    · intro other index hindex
      rw [SortedMap.get_remove, Option.ite_none_left_eq_some] at hindex
      obtain ⟨hne, hindex⟩ := hindex
      apply (h.indexes hindex).frame
      · rw [SortedMap.get_remove, SortedMap.get_remove,
          if_neg (metaPath_ne_treePath other name).symm,
          if_neg fun hsame => hne (metaPath_injective hsame)]
      · rw [SortedMap.get_remove, SortedMap.get_remove,
          if_neg fun hsame => hne (treePath_injective hsame),
          if_neg (metaPath_ne_treePath name other)]
    · intro path hpath
      simp only [Directory.contains_remove] at hpath
      obtain ⟨htreePath, hmetaPath, hold⟩ := hpath
      obtain ⟨other, hother, hpaths⟩ := h.files hold
      have hne : name ≠ other := by
        rintro rfl
        rcases hpaths with rfl | rfl
        · exact hmetaPath rfl
        · exact htreePath rfl
      refine ⟨other, ?_, hpaths⟩
      rw [SortedMap.contains, SortedMap.get_remove, if_neg hne]
      exact hother
  · intro other index hindex
    rw [SortedMap.get_remove, Option.ite_none_left_eq_some] at hindex
    exact hclean other index hindex.2

theorem Filed.dropCollectionIndexes (h : catalog.Filed) (hclean : catalog.Clean)
    (hok : IndexCatalog.dropCollectionIndexes collection catalog = (.ok (), last)) :
    last.Filed ∧ last.Clean := by
  refine Action.forM_ok (I := fun _ middle => middle.Filed ∧ middle.Clean) hok ⟨h, hclean⟩ ?_
  rintro done name rest middle middle' - ⟨hfiled, hmiddle⟩ hdrop
  exact hfiled.dropIndex hmiddle hdrop

/-- A new index is filed as soon as it is made. -/
theorem Filed.createIndex (h : catalog.Filed) (hclean : catalog.Clean) {field : List String}
    {documents : List Document}
    (hok : IndexCatalog.createIndex name collection field documents catalog = (.ok (), last)) :
    last.Filed ∧ last.Clean := by
  obtain ⟨keys, middle, hread, hfiles⟩ := Action.bind_eq_ok.mp hok
  obtain ⟨hkeys, rfl⟩ := lift_reads_eq_ok hread
  obtain ⟨tree, created, hcreate, hfill⟩ := Action.bind_eq_ok.mp hfiles
  simp only [prepareIndex, bind_eq_ok] at hkeys
  obtain ⟨_, hidentifier, _, hcollection, _, hfield, -⟩ := hkeys
  obtain ⟨directory, hfile, rfl⟩ := onDirectory_eq_ok hcreate
  obtain ⟨hsaved, -, -, hothers⟩ := BPlusTree.saved_createFileWithMaxKeys hfile
  simp only at hfill
  split at hfill
  · rename_i filled directory' hfilled
    obtain ⟨-, rfl⟩ := Prod.mk.inj hfill
    obtain ⟨hfilledSaved, hdirty, hdescribed, hrest⟩ := fillIndex_eq_ok hsaved hfilled
    have hframe : ∀ path, path ≠ treePath name → path ≠ metaPath name →
        directory'.get path = middle.directory.get path := by
      intro path htree hmeta
      exact (hrest path htree hmeta).trans (hothers path htree)
    constructor
    · constructor
      · intro other found hfound
        rcases SortedMap.get_insert_eq_some.mp hfound with ⟨rfl, rfl⟩ | ⟨hne, hold⟩
        · exact ⟨rfl, hidentifier, hcollection, hfield, hdescribed, hfilledSaved⟩
        · apply (h.indexes hold).frame
          · exact hframe _ (metaPath_ne_treePath other name)
              fun hsame => hne (metaPath_injective hsame).symm
          · exact hframe _ (fun hsame => hne (treePath_injective hsame).symm)
              (metaPath_ne_treePath name other).symm
      · intro path hpath
        by_cases hpaths : path = metaPath name ∨ path = treePath name
        · refine ⟨name, ?_, hpaths⟩
          rw [SortedMap.contains, SortedMap.get_insert, if_pos rfl]
          rfl
        · rw [not_or] at hpaths
          have hold : middle.directory.contains path = true := by
            rw [SortedMap.contains, ← hframe path hpaths.2 hpaths.1]
            exact hpath
          obtain ⟨other, hother, hnames⟩ := h.files hold
          refine ⟨other, ?_, hnames⟩
          rw [SortedMap.contains, SortedMap.get_insert]
          split
          · rfl
          · exact hother
    · intro other found hfound
      rcases SortedMap.get_insert_eq_some.mp hfound with ⟨rfl, rfl⟩ | ⟨-, hold⟩
      · exact hdirty
      · exact hclean other found hold
  · cases hfill

/-- Every command that succeeds keeps the files of the catalog. -/
theorem Filed.succeed (h : catalog.Filed) (hclean : catalog.Clean) {call : CatalogCall}
    (hcall : catalog.succeed call = some last) : last.Filed ∧ last.Clean := by
  have hok : perform call catalog = (.ok (), last) := by
    rw [IndexCatalog.succeed] at hcall
    split at hcall
    · rename_i hperform
      rw [hperform, Option.some.inj hcall]
    · cases hcall
  cases call with
  | createIndex name collection field documents => exact h.createIndex hclean hok
  | insertDocument collection document => exact h.insertDocument hclean hok
  | replaceDocument collection old new => exact h.replaceDocument hclean hok
  | deleteDocument collection document => exact h.deleteDocument hclean hok
  | dropIndex name => exact h.dropIndex hclean hok
  | dropCollectionIndexes collection => exact h.dropCollectionIndexes hclean hok

theorem filed_empty : (⟨.empty, .empty⟩ : IndexCatalog).Filed where
  indexes hindex := by cases hindex
  files hpath := by cases hpath

/-- After commands that succeed, the directory opens as the catalog exactly if it is short. -/
theorem decodes_openDirectory {calls : List CatalogCall}
    (hrun : run succeed calls ⟨.empty, .empty⟩ = some catalog) :
    Decodes (openDirectory catalog.directory) catalog catalog.Short := by
  have hstart : (⟨.empty, .empty⟩ : IndexCatalog).Filed ∧ (⟨.empty, .empty⟩ : IndexCatalog).Clean :=
    ⟨filed_empty, fun _ _ hindex => by cases hindex⟩
  have hkeeps : ∀ {before : IndexCatalog} {call next}, before.Filed ∧ before.Clean →
      before.succeed call = some next → next.Filed ∧ next.Clean :=
    fun h hcall => h.1.succeed h.2 hcall
  obtain ⟨hfiled, hclean⟩ := run_invariant hkeeps hstart hrun
  exact hfiled.openDirectory hclean

end Commands

end IndexCatalog

end NovaBase.Index
