import NovaBase.Index.Torn

/-!
# Commands that are interrupted

A process can stop between two file operations of a command, or in the middle of writing a file.
What it leaves is a directory that opens with every index as it was before the command or as it is
after it, or one that is refused because a file was torn.
-/

namespace NovaBase.Index

open Lib Lib.Bytes

/-- An operation on a file. A put writes the file whole, from its start. -/
inductive FileOp
  | put (path : String) (bytes : Bytes)
  | remove (path : String)

/-- The file that an operation is about. -/
def FileOp.path : FileOp → String
  | put path _ => path
  | remove path => path

/-- The directory after an operation. -/
def FileOp.apply (directory : Directory) : FileOp → Directory
  | put path bytes => directory.insert path bytes
  | remove path => directory.remove path

/-- What a process leaves that stops in a list of operations. Of a put that is under way it has
written a front. -/
inductive Stops : List FileOp → Directory → Bool → Directory → Prop
  | between {operations : List FileOp} {directory : Directory} :
      Stops operations directory false directory
  | within {path : String} {bytes : Bytes} {rest : List FileOp} {directory : Directory}
      {length : Nat} (cut : length < bytes.length) :
      Stops (.put path bytes :: rest) directory true (directory.insert path (bytes.take length))
  | after {operation : FileOp} {rest : List FileOp} {directory left : Directory} {torn : Bool}
      (stops : Stops rest (operation.apply directory) torn left) :
      Stops (operation :: rest) directory torn left

section Operations

variable {first second operations : List FileOp} {directory left : Directory} {torn : Bool}
  {path : String}

/-- An operation concerns one file only. -/
theorem FileOp.apply_elsewhere (operation : FileOp) (hpath : path ≠ operation.path) :
    (operation.apply directory).get path = directory.get path := by
  cases operation with
  | put written bytes =>
      have hne : written ≠ path := Ne.symm hpath
      rw [apply, SortedMap.get_insert, if_neg hne]
  | remove removed =>
      have hne : removed ≠ path := Ne.symm hpath
      rw [apply, SortedMap.get_remove, if_neg hne]

/-- A process stops in the first operations, or after all of them in the rest. -/
theorem Stops.append (h : Stops (first ++ second) directory torn left) :
    Stops first directory torn left ∨
      Stops second (first.foldl FileOp.apply directory) torn left := by
  induction first generalizing directory with
  | nil => exact .inr h
  | cons operation rest ih =>
      cases h with
      | between => exact .inl .between
      | within cut => exact .inl (.within cut)
      | after stops =>
          rcases ih stops with hfirst | hsecond
          · exact .inl (.after hfirst)
          · exact .inr hsecond

/-- Other files are as they were. -/
theorem Stops.elsewhere (h : Stops operations directory torn left)
    (hpath : ∀ operation ∈ operations, path ≠ operation.path) :
    left.get path = directory.get path := by
  induction h with
  | between => rfl
  | within cut =>
      have hne := Ne.symm (hpath _ List.mem_cons_self)
      rw [FileOp.path] at hne
      rw [SortedMap.get_insert, if_neg hne]
  | after stops ih =>
      obtain ⟨hfirst, hrest⟩ := List.forall_mem_cons.mp hpath
      rw [ih hrest, FileOp.apply_elsewhere _ hfirst]

/-- A process that stops after its last operation has done them all. -/
theorem Stops.all : Stops operations directory false (operations.foldl FileOp.apply directory) := by
  induction operations generalizing directory with
  | nil => exact .between
  | cons operation rest ih => exact .after ih

end Operations

section Journals

/-- The operations of `sync`. -/
def BPlusTree.writes (path : String) (tree : BPlusTree) : List FileOp :=
  if tree.dirty then
    match tree.snapshot with
    | .ok bytes => [.put path bytes]
    | .error _ => []
  else []

namespace IndexCatalog

/-- The files that are written when indexes are synchronized one after the other. -/
def syncWrites : List String → IndexCatalog → List FileOp
  | [], _ => []
  | name :: names, catalog =>
      (match catalog.indexes.get name with
        | some index => index.tree.writes (treePath name)
        | none => []) ++ syncWrites names (syncIndex name catalog).2

/-- The files that are removed when indexes are dropped one after the other. -/
def dropWrites : List String → IndexCatalog → List FileOp
  | [], _ => []
  | name :: names, catalog =>
      (if catalog.indexes.contains name then [.remove (metaPath name), .remove (treePath name)]
        else []) ++ dropWrites names (dropIndex name catalog).2

/-- The changes of trees in memory when a document is inserted. -/
def insertKeys (collection : String) (document : Document) : Action Failure IndexCatalog Unit := do
  let changes ← Action.reads fun catalog => (catalog.keysForDocument collection document).lift
  changes.forM fun change => updateTree change.1 (insertKey change.2 document.id)

/-- What replacing a document does to the trees, before any file is written. -/
def replaceKeys (collection : String) (old new : Document) : Action Failure IndexCatalog Unit := do
  let oldKeys ← Action.reads fun catalog => (catalog.keysForDocument collection old).lift
  let newKeys ← Action.reads fun catalog => (catalog.keysForDocument collection new).lift
  (oldKeys.zip newKeys).forM (replaceKey old.id)

/-- What deleting a document does to the trees, before any file is written. -/
def deleteKeys (collection : String) (document : Document) : Action Failure IndexCatalog Unit := do
  let changes ← Action.reads fun catalog => (catalog.keysForDocument collection document).lift
  changes.forM fun change => updateTree change.1 (removeKey change.2 document.id)

/-- The operations of a command that changes trees and then writes those of a collection. -/
def changeWrites (collection : String) (change : Action Failure IndexCatalog Unit)
    (catalog : IndexCatalog) : List FileOp :=
  match change catalog with
  | (.ok (), next) => syncWrites (next.namesOf collection) next
  | (.error _, _) => []

/-- The operations that fill a new tree and write its definition. -/
def fillWrites (definition : IndexDefinition) (keys : List (Option IndexKey × NovaId))
    (tree : BPlusTree) : List FileOp :=
  match backfill keys tree with
  | .error _ => []
  | .ok filled =>
      filled.writes (treePath definition.name) ++
        match encodeDefinition definition with
        | .ok bytes => [.put (metaPath definition.name) bytes]
        | .error _ => []

/-- The files that are written when an index is created over some keys. -/
def createWrites (definition : IndexDefinition) (keys : List (Option IndexKey × NovaId)) :
    List FileOp :=
  match BPlusTree.create with
  | .error _ => []
  | .ok tree =>
      .put (treePath definition.name) [] :: (tree.writes (treePath definition.name) ++
        fillWrites definition keys tree.clean)

variable [CharacterTables]

/-- The operations on files of a command that succeeds, in their order. -/
def journal (catalog : IndexCatalog) : CatalogCall → List FileOp
  | .createIndex name collection field documents =>
      match catalog.prepareIndex ⟨name, collection, field⟩ documents with
      | .ok keys => createWrites ⟨name, collection, field⟩ keys
      | .error _ => []
  | .insertDocument collection document =>
      changeWrites collection (insertKeys collection document) catalog
  | .replaceDocument collection old new =>
      changeWrites collection (replaceKeys collection old new) catalog
  | .deleteDocument collection document =>
      changeWrites collection (deleteKeys collection document) catalog
  | .dropIndex name => dropWrites [name] catalog
  | .dropCollectionIndexes collection => dropWrites (catalog.namesOf collection) catalog

end IndexCatalog

end Journals

section Trees

variable {path : String} {tree tree' : BPlusTree} {directory directory' : Directory}
  {bytes : Bytes}

theorem BPlusTree.snapshot_eq_ok (h : tree.snapshot = .ok bytes) :
    tree.verify = .ok () ∧ encodeTree tree.maxKeys tree.root tree.nodes = .ok bytes := by
  obtain ⟨_, hverify, hencode⟩ := bind_eq_ok.mp h
  exact ⟨hverify, Result.lift_eq_ok.mp hencode⟩

/-- A tree that has changed is put into its file, and another is left alone. -/
theorem BPlusTree.sync_eq_ok (h : tree.sync path directory = (.ok tree', directory')) :
    (tree.dirty = false ∧ tree.writes path = [] ∧ tree' = tree ∧ directory' = directory) ∨
      tree.dirty = true ∧ ∃ bytes, tree.snapshot = .ok bytes ∧
        tree.writes path = [.put path bytes] ∧ tree' = tree.clean ∧
          directory' = directory.insert path bytes := by
  cases hdirty : tree.dirty with
  | false =>
      have hsync : tree.sync path = pure tree := if_neg (by simp [hdirty])
      have hwrites : tree.writes path = [] := if_neg (by simp [hdirty])
      rw [hsync] at h
      obtain ⟨htree, rfl⟩ := Prod.mk.inj h
      exact .inl ⟨rfl, hwrites, (Except.ok.inj htree).symm, rfl⟩
  | true =>
      rw [BPlusTree.sync, if_pos hdirty] at h
      obtain ⟨bytes, middle, hsnapshot, hwrite⟩ := Action.bind_eq_ok.mp h
      obtain ⟨hbytes, rfl⟩ := Prod.mk.inj hsnapshot
      obtain ⟨_, written, hoverwrite, hreturn⟩ := Action.bind_eq_ok.mp hwrite
      obtain ⟨htree, rfl⟩ := Prod.mk.inj hreturn
      have hwrites : tree.writes path = [.put path bytes] := by
        rw [BPlusTree.writes, if_pos hdirty, hbytes]
      refine .inr ⟨rfl, bytes, hbytes, hwrites, (Except.ok.inj htree).symm, ?_⟩
      rw [Directory.overwrite] at hoverwrite
      split at hoverwrite
      · exact (Prod.mk.inj hoverwrite).2.symm
      · cases hoverwrite

/-- The operations of a successful write lead to the directory that it leaves. -/
theorem BPlusTree.foldl_writes (h : tree.sync path directory = (.ok tree', directory')) :
    (tree.writes path).foldl FileOp.apply directory = directory' := by
  rcases BPlusTree.sync_eq_ok h with ⟨-, hwrites, -, rfl⟩ | ⟨-, bytes, -, hwrites, -, rfl⟩
  · rw [hwrites]
    rfl
  · rw [hwrites]
    rfl

theorem BPlusTree.path_writes {operation : FileOp} (h : operation ∈ tree.writes path) :
    operation.path = path := by
  rw [BPlusTree.writes] at h
  split at h
  · split at h
    · rw [List.mem_singleton.mp h, FileOp.path]
    · cases h
  · cases h

/-- A front of a snapshot is not opened. -/
theorem BPlusTree.openBytes_take {length : Nat} (h : tree.snapshot = .ok bytes)
    (hlength : length < bytes.length) :
    ∃ cause, BPlusTree.openBytes (bytes.take length) = .error cause := by
  obtain ⟨hverify, hencode⟩ := snapshot_eq_ok h
  obtain ⟨hmax, -, hvalid⟩ := valid_of_verify hverify
  obtain ⟨cause, hcause⟩ := decodeTree_take hmax hvalid hencode hlength
  exact ⟨.error cause, by simp only [openBytes, hcause, Result.lift, error_bind]⟩

end Trees

namespace IndexCatalog

variable {memory catalog next last : IndexCatalog} {directory : Directory} {index : OpenIndex}
  {name : String}

section Writes

variable {collection : String} {names : List String} {definition : IndexDefinition}
  {keys : List (Option IndexKey × NovaId)}

theorem syncIndex_eq_ok (hindex : memory.indexes.get name = some index)
    (hok : syncIndex name memory = (.ok (), next)) :
    ∃ tree directory, index.tree.sync (treePath name) memory.directory = (.ok tree, directory) ∧
      next = { memory with directory }.setTree name index tree := by
  rw [syncIndex] at hok
  simp only [hindex] at hok
  split at hok
  · cases hok
  · rename_i tree directory hsync
    exact ⟨tree, directory, hsync, (Prod.mk.inj hok).2.symm⟩

/-- Writing leaves a tree alone that has not changed. -/
theorem syncs_keep (hok : names.forM syncIndex memory = (.ok (), last))
    (hindex : memory.indexes.get name = some index) (hclean : index.tree.dirty = false) :
    last.indexes.get name = some index := by
  refine Action.forM_ok (I := fun _ middle => middle.indexes.get name = some index) hok hindex ?_
  rintro done other rest middle middle' - hmiddle hsync
  cases hother : middle.indexes.get other with
  | none =>
      have hsame : syncIndex other middle = (.ok (), middle) := by
        rw [syncIndex]
        simp only [hother]
      obtain ⟨-, rfl⟩ := Prod.mk.inj (hsync.symm.trans hsame)
      exact hmiddle
  | some found =>
      obtain ⟨tree, directory, htree, rfl⟩ := syncIndex_eq_ok hother hsync
      rw [setTree, SortedMap.get_insert]
      split
      · rename_i hsame
        subst hsame
        obtain rfl : found = index := Option.some.inj (hother.symm.trans hmiddle)
        rcases BPlusTree.sync_eq_ok htree with ⟨-, -, rfl, -⟩ | ⟨hdirty, -⟩
        · rfl
        · rw [hclean] at hdirty
          cases hdirty
      · exact hmiddle

/-- The operations of the writes give the files that the writes give. -/
theorem foldl_syncWrites (hok : names.forM syncIndex memory = (.ok (), last)) :
    (syncWrites names memory).foldl FileOp.apply memory.directory = last.directory := by
  induction names generalizing memory with
  | nil =>
      obtain ⟨-, rfl⟩ := Prod.mk.inj hok
      rfl
  | cons name rest ih =>
      obtain ⟨_, next, hfirst, hrest⟩ := Action.bind_eq_ok.mp hok
      rw [syncWrites, List.foldl_append, hfirst]
      calc
        _ = (syncWrites rest next).foldl FileOp.apply next.directory := by
          congr 1
          cases hindex : memory.indexes.get name with
          | none =>
              rw [syncIndex] at hfirst
              simp only [hindex] at hfirst
              obtain ⟨-, rfl⟩ := Prod.mk.inj hfirst
              rfl
          | some index =>
              obtain ⟨tree, directory, hsync, rfl⟩ := syncIndex_eq_ok hindex hfirst
              exact BPlusTree.foldl_writes hsync
        _ = last.directory := ih hrest

/-- An insertion that succeeds changes the trees first, and then writes them. -/
theorem insertDocument_eq_ok {document : Document} :
    insertDocument collection document catalog = (.ok (), last) ↔
      ∃ next, insertKeys collection document catalog = (.ok (), next) ∧
        syncCollection collection next = (.ok (), last) := by
  constructor
  · intro hok
    obtain ⟨keys, middle, hread, hchanged⟩ := Action.bind_eq_ok.mp hok
    obtain ⟨_, next, hloop, hsync⟩ := Action.bind_eq_ok.mp hchanged
    exact ⟨next, Action.bind_eq_ok.mpr ⟨keys, middle, hread, hloop⟩, hsync⟩
  · rintro ⟨next, hchange, hsync⟩
    obtain ⟨keys, middle, hread, hloop⟩ := Action.bind_eq_ok.mp hchange
    exact Action.bind_eq_ok.mpr
      ⟨keys, middle, hread, Action.bind_eq_ok.mpr ⟨(), next, hloop, hsync⟩⟩

theorem deleteDocument_eq_ok {document : Document} :
    deleteDocument collection document catalog = (.ok (), last) ↔
      ∃ next, deleteKeys collection document catalog = (.ok (), next) ∧
        syncCollection collection next = (.ok (), last) := by
  constructor
  · intro hok
    obtain ⟨keys, middle, hread, hchanged⟩ := Action.bind_eq_ok.mp hok
    obtain ⟨_, next, hloop, hsync⟩ := Action.bind_eq_ok.mp hchanged
    exact ⟨next, Action.bind_eq_ok.mpr ⟨keys, middle, hread, hloop⟩, hsync⟩
  · rintro ⟨next, hchange, hsync⟩
    obtain ⟨keys, middle, hread, hloop⟩ := Action.bind_eq_ok.mp hchange
    exact Action.bind_eq_ok.mpr
      ⟨keys, middle, hread, Action.bind_eq_ok.mpr ⟨(), next, hloop, hsync⟩⟩

theorem replaceDocument_eq_ok {old new : Document} :
    replaceDocument collection old new catalog = (.ok (), last) ↔
      old.id = new.id ∧ ∃ next, replaceKeys collection old new catalog = (.ok (), next) ∧
        syncCollection collection next = (.ok (), last) := by
  constructor
  · intro hok
    obtain ⟨_, checked, hsame, hreads⟩ := Action.bind_eq_ok.mp hok
    obtain ⟨hid, rfl⟩ := Prod.mk.inj hsame
    obtain ⟨oldKeys, middle, holdRead, hnewReads⟩ := Action.bind_eq_ok.mp hreads
    obtain ⟨newKeys, middle', hnewRead, hchanged⟩ := Action.bind_eq_ok.mp hnewReads
    obtain ⟨_, next, hloop, hsync⟩ := Action.bind_eq_ok.mp hchanged
    exact ⟨require_eq_ok.mp hid, next, Action.bind_eq_ok.mpr ⟨oldKeys, middle, holdRead,
      Action.bind_eq_ok.mpr ⟨newKeys, middle', hnewRead, hloop⟩⟩, hsync⟩
  · rintro ⟨hid, next, hchange, hsync⟩
    obtain ⟨oldKeys, middle, holdRead, hnewReads⟩ := Action.bind_eq_ok.mp hchange
    obtain ⟨newKeys, middle', hnewRead, hloop⟩ := Action.bind_eq_ok.mp hnewReads
    refine Action.bind_eq_ok.mpr ⟨(), catalog, Prod.ext (require_of _ hid) rfl, ?_⟩
    exact Action.bind_eq_ok.mpr ⟨oldKeys, middle, holdRead, Action.bind_eq_ok.mpr
      ⟨newKeys, middle', hnewRead, Action.bind_eq_ok.mpr ⟨(), next, hloop, hsync⟩⟩⟩

theorem keeps_updateTree (name : String) (update : BPlusTree → Partial BPlusTree) :
    (updateTree name update).Keeps IndexCatalog.directory := by
  intro catalog
  rw [updateTree]
  split
  · rfl
  · split
    · rfl
    · rfl

/-- Trees are changed in memory only. -/
theorem keeps_insertKeys (collection : String) (document : Document) :
    (insertKeys collection document).Keeps IndexCatalog.directory :=
  (Action.Keeps.reads _).bind fun keys => .forM (fun _ => keeps_updateTree _ _) keys

theorem keeps_deleteKeys (collection : String) (document : Document) :
    (deleteKeys collection document).Keeps IndexCatalog.directory :=
  (Action.Keeps.reads _).bind fun keys => .forM (fun _ => keeps_updateTree _ _) keys

theorem keeps_replaceKeys (collection : String) (old new : Document) :
    (replaceKeys collection old new).Keeps IndexCatalog.directory := by
  refine (Action.Keeps.reads _).bind fun oldKeys => (Action.Keeps.reads _).bind fun newKeys =>
    .forM (fun change => ?_) _
  exact (Action.Keeps.ofExcept _).bind fun _ => keeps_updateTree _ _

/-- A command that changes trees in memory, and then writes those of the collection. -/
theorem changeWrites_eq {change : Action Failure IndexCatalog Unit}
    (hchange : change catalog = (.ok (), next)) :
    changeWrites collection change catalog = syncWrites (next.namesOf collection) next := by
  rw [changeWrites, hchange]

/-- The operations of a change lead to the directory that it leaves. -/
theorem foldl_changeWrites {change : Action Failure IndexCatalog Unit}
    (hkeeps : change.Keeps IndexCatalog.directory) (hchange : change catalog = (.ok (), next))
    (hsync : syncCollection collection next = (.ok (), last)) :
    (changeWrites collection change catalog).foldl FileOp.apply catalog.directory =
      last.directory := by
  have hdirectory := hkeeps catalog
  rw [hchange] at hdirectory
  rw [changeWrites_eq hchange, ← hdirectory]
  exact foldl_syncWrites hsync

theorem removeFile_eq_ok {path : String} :
    onDirectory (Directory.removeFile path) catalog = (.ok (), next) ↔
      catalog.directory.contains path ∧
        next = { catalog with directory := catalog.directory.remove path } := by
  simp only [onDirectory, Action.zoom, Directory.removeFile]
  constructor
  · intro hok
    split at hok
    · rename_i hpath
      exact ⟨hpath, (Prod.mk.inj hok).2.symm⟩
    · cases hok
  · rintro ⟨hpath, rfl⟩
    rw [if_pos hpath]

/-- An index is dropped when it is open and both its files are there. -/
theorem dropIndex_eq_ok :
    dropIndex name catalog = (.ok (), next) ↔ catalog.indexes.contains name ∧
      catalog.directory.contains (metaPath name) ∧ catalog.directory.contains (treePath name) ∧
      next = ⟨(catalog.directory.remove (metaPath name)).remove (treePath name),
        catalog.indexes.remove name⟩ := by
  have htree : (catalog.directory.remove (metaPath name)).contains (treePath name) ↔
      catalog.directory.contains (treePath name) := by
    rw [Directory.contains_remove]
    exact and_iff_right (metaPath_ne_treePath name name)
  constructor
  · intro hok
    obtain ⟨_, checked, hpresent, hremovals⟩ := Action.bind_eq_ok.mp hok
    obtain ⟨hname, rfl⟩ := Prod.mk.inj hpresent
    obtain ⟨_, middle, hmetaFile, hremoval⟩ := Action.bind_eq_ok.mp hremovals
    obtain ⟨_, removed, htreeFile, hforget⟩ := Action.bind_eq_ok.mp hremoval
    obtain ⟨-, rfl⟩ := Prod.mk.inj hforget
    obtain ⟨hmeta, rfl⟩ := removeFile_eq_ok.mp hmetaFile
    obtain ⟨htreePath, rfl⟩ := removeFile_eq_ok.mp htreeFile
    exact ⟨require_eq_ok.mp hname, hmeta, htree.mp htreePath, rfl⟩
  · rintro ⟨hname, hmeta, htreePath, rfl⟩
    apply Action.bind_eq_ok.mpr
    refine ⟨(), catalog, Prod.ext (require_of _ hname) rfl, ?_⟩
    apply Action.bind_eq_ok.mpr
    refine ⟨(), _, removeFile_eq_ok.mpr ⟨hmeta, rfl⟩, ?_⟩
    apply Action.bind_eq_ok.mpr
    exact ⟨(), _, removeFile_eq_ok.mpr ⟨htree.mpr htreePath, rfl⟩, rfl⟩

/-- The operations of a drop lead to the directory that it leaves. -/
theorem foldl_dropWrites (hok : names.forM dropIndex memory = (.ok (), last)) :
    (dropWrites names memory).foldl FileOp.apply memory.directory = last.directory := by
  induction names generalizing memory with
  | nil =>
      obtain ⟨-, rfl⟩ := Prod.mk.inj hok
      rfl
  | cons name rest ih =>
      obtain ⟨_, next, hfirst, hrest⟩ := Action.bind_eq_ok.mp hok
      rw [dropWrites, List.foldl_append, hfirst]
      obtain ⟨hname, -, -, rfl⟩ := dropIndex_eq_ok.mp hfirst
      rw [if_pos hname]
      exact ih hrest

theorem createFile_eq_ok {path : String} {tree : BPlusTree} {directory directory' : Directory}
    (hok : BPlusTree.createFile path directory = (.ok tree, directory')) :
    ∃ new, BPlusTree.create = .ok new ∧ tree = new.clean ∧ ¬ directory.contains path ∧
      new.sync path (directory.insert path []) = (.ok tree, directory') := by
  obtain ⟨new, start, hcreate, hfile⟩ := Action.bind_eq_ok.mp hok
  obtain ⟨hnew, rfl⟩ := Prod.mk.inj hcreate
  obtain ⟨_, made, hmade, hsync⟩ := Action.bind_eq_ok.mp hfile
  rw [Directory.createNew] at hmade
  split at hmade
  · cases hmade
  · rename_i hfresh
    obtain ⟨-, rfl⟩ := Prod.mk.inj hmade
    have hcreated := Result.lift_eq_ok.mp hnew
    have hdirty : new.dirty = true := by
      obtain ⟨_, -, hreturn⟩ := bind_eq_ok.mp hcreated
      cases hreturn
      rfl
    rcases BPlusTree.sync_eq_ok hsync with ⟨hclean, -⟩ | ⟨-, bytes, -, -, rfl, -⟩
    · rw [hdirty] at hclean
      cases hclean
    · exact ⟨new, hcreated, rfl, hfresh, hsync⟩

/-- The definition is written behind all writes of the tree. -/
theorem fillIndex_writes {tree tree' : BPlusTree} {directory directory' : Directory}
    (hok : fillIndex definition keys tree directory = (.ok tree', directory')) :
    ∃ (filled : BPlusTree) (bytes : Bytes), encodeDefinition definition = .ok bytes ∧
      fillWrites definition keys tree =
        filled.writes (treePath definition.name) ++ [.put (metaPath definition.name) bytes] ∧
      ((filled.writes (treePath definition.name)).foldl FileOp.apply directory).insert
        (metaPath definition.name) bytes = directory' := by
  obtain ⟨filled, start, hfill, hsyncs⟩ := Action.bind_eq_ok.mp hok
  obtain ⟨hfilled, rfl⟩ := Prod.mk.inj hfill
  obtain ⟨synced, written, hsync, hwrites⟩ := Action.bind_eq_ok.mp hsyncs
  obtain ⟨_, described, hwrite, hreturn⟩ := Action.bind_eq_ok.mp hwrites
  obtain ⟨-, rfl⟩ := Prod.mk.inj hreturn
  obtain ⟨bytes, encoded, hencode, hcreate⟩ := Action.bind_eq_ok.mp hwrite
  obtain ⟨hbytes, rfl⟩ := Prod.mk.inj hencode
  have hdefinition : encodeDefinition definition = .ok bytes := Result.lift_eq_ok.mp hbytes
  rw [Directory.createNew] at hcreate
  split at hcreate
  · cases hcreate
  · obtain ⟨-, rfl⟩ := Prod.mk.inj hcreate
    refine ⟨filled, bytes, hdefinition, ?_, ?_⟩
    · simp only [fillWrites, hfilled, hdefinition]
    · rw [BPlusTree.foldl_writes hsync]

variable [CharacterTables]

/-- A new tree is written, and then its definition. -/
theorem createIndex_eq_ok {field : List String} {documents : List Document}
    (hok : createIndex name collection field documents catalog = (.ok (), last)) :
    ∃ (keys : List (Option IndexKey × NovaId)) (new filled : BPlusTree) (bytes : Bytes),
      catalog.prepareIndex ⟨name, collection, field⟩ documents = .ok keys ∧
      ¬ catalog.directory.contains (treePath name) ∧
      encodeDefinition ⟨name, collection, field⟩ = .ok bytes ∧
      journal catalog (.createIndex name collection field documents) =
        (.put (treePath name) [] :: (new.writes (treePath name) ++ filled.writes (treePath name)))
          ++ [.put (metaPath name) bytes] ∧
      ((.put (treePath name) [] :: (new.writes (treePath name) ++
        filled.writes (treePath name))).foldl FileOp.apply catalog.directory).insert (metaPath name)
          bytes = last.directory := by
  obtain ⟨keys, middle, hread, hfiles⟩ := Action.bind_eq_ok.mp hok
  obtain ⟨hkeys, rfl⟩ := lift_reads_eq_ok hread
  obtain ⟨tree, created, hcreate, hfill⟩ := Action.bind_eq_ok.mp hfiles
  obtain ⟨directory, hfile, rfl⟩ := onDirectory_eq_ok hcreate
  obtain ⟨new, hnew, rfl, habsent, hsync⟩ := createFile_eq_ok hfile
  simp only at hfill
  split at hfill
  · rename_i filledTree directory' hfilled
    obtain ⟨-, rfl⟩ := Prod.mk.inj hfill
    obtain ⟨filled, bytes, hencode, hwrites, hlast⟩ := fillIndex_writes hfilled
    refine ⟨keys, new, filled, bytes, hkeys, habsent, hencode, ?_, ?_⟩
    · simp only [journal, hkeys, createWrites, hnew, hwrites, List.cons_append, List.append_assoc]
    · rw [← hlast, List.foldl_cons, List.foldl_append, FileOp.apply, BPlusTree.foldl_writes hsync]
  · cases hfill

/-- A call succeeds when the model of its success has a result. -/
theorem perform_eq_ok {call : CatalogCall} :
    catalog.succeed call = some last ↔ perform call catalog = (.ok (), last) := by
  rw [IndexCatalog.succeed]
  constructor
  · intro hcall
    split at hcall
    · rename_i hperform
      rw [hperform, Option.some.inj hcall]
    · cases hcall
  · intro hok
    rw [hok]

/-- The operations of a command that succeeds give its files. -/
theorem foldl_journal {call : CatalogCall} (hcall : catalog.succeed call = some last) :
    (journal catalog call).foldl FileOp.apply catalog.directory = last.directory := by
  have hok : perform call catalog = (.ok (), last) := perform_eq_ok.mp hcall
  cases call with
  | createIndex name collection field documents =>
      obtain ⟨keys, new, filled, bytes, -, -, -, hjournal, hlast⟩ := createIndex_eq_ok hok
      rw [hjournal, List.foldl_append, ← hlast]
      rfl
  | insertDocument collection document =>
      obtain ⟨next, hchange, hsync⟩ := insertDocument_eq_ok.mp hok
      exact foldl_changeWrites (keeps_insertKeys collection document) hchange hsync
  | replaceDocument collection old new =>
      obtain ⟨-, next, hchange, hsync⟩ := replaceDocument_eq_ok.mp hok
      exact foldl_changeWrites (keeps_replaceKeys collection old new) hchange hsync
  | deleteDocument collection document =>
      obtain ⟨next, hchange, hsync⟩ := deleteDocument_eq_ok.mp hok
      exact foldl_changeWrites (keeps_deleteKeys collection document) hchange hsync
  | dropIndex name =>
      have hdrop : [name].forM IndexCatalog.dropIndex catalog = (.ok (), last) :=
        Action.bind_eq_ok.mpr ⟨(), last, hok, rfl⟩
      exact foldl_dropWrites hdrop
  | dropCollectionIndexes collection => exact foldl_dropWrites hok

end Writes

end IndexCatalog

section Opening

variable {directory kept : Directory} {path : String}

/-- The same files, except for trees that only the first directory has. -/
def Spare (directory kept : Directory) : Prop :=
  ∀ path, directory.get path = kept.get path ∨
    kept.get path = none ∧ ∃ name, path = treePath name

theorem Spare.insert (h : Spare directory kept) (path : String) (bytes : Bytes) :
    Spare (directory.insert path bytes) (kept.insert path bytes) := by
  intro other
  rw [SortedMap.get_insert, SortedMap.get_insert]
  split
  · exact .inl rfl
  · exact h other

theorem Spare.remove (h : Spare directory kept) (path : String) :
    Spare (directory.remove path) (kept.remove path) := by
  intro other
  rw [SortedMap.get_remove, SortedMap.get_remove]
  split
  · exact .inl rfl
  · exact h other

theorem Spare.lacks (h : Spare directory kept) (hpath : ¬ directory.contains path) :
    ¬ kept.contains path := by
  intro hkept
  rcases h path with hsame | ⟨hnone, -⟩
  · rw [SortedMap.contains, hsame] at hpath
    exact hpath hkept
  · rw [SortedMap.contains, hnone] at hkept
    cases hkept

theorem Spare.get_eq (h : Spare directory kept) (hpath : kept.contains path) :
    directory.get path = kept.get path := by
  rcases h path with hsame | ⟨hnone, -⟩
  · exact hsame
  · rw [SortedMap.contains, hnone] at hpath
    cases hpath

/-- A file that is no tree. -/
theorem Spare.get_meta (h : Spare directory kept) (hpath : ∀ name, path ≠ treePath name) :
    directory.get path = kept.get path := by
  rcases h path with hsame | ⟨-, name, rfl⟩
  · exact hsame
  · exact (hpath name rfl).elim

theorem Spare.refl (directory : Directory) : Spare directory directory := fun _ => .inl rfl

theorem Spare.trans {last : Directory} (hfirst : Spare directory kept) (hsecond : Spare kept last) :
    Spare directory last := by
  intro path
  rcases hfirst path with hsame | ⟨hnone, htree⟩
  · rw [hsame]
    exact hsecond path
  · rcases hsecond path with hlast | ⟨hlast, -⟩
    · exact .inr ⟨hlast.symm.trans hnone, htree⟩
    · exact .inr ⟨hlast, htree⟩

/-- The tree of an index whose definition has been removed is a further one. -/
theorem spare_remove (directory : Directory) (name : String) :
    Spare directory (directory.remove (treePath name)) := by
  intro path
  rw [SortedMap.get_remove]
  split
  · rename_i hsame
    exact .inr ⟨rfl, name, hsame.symm⟩
  · exact .inl rfl

theorem Spare.metaFiles (h : Spare directory kept) :
    directory.keys.filter isMetaFile = kept.keys.filter isMetaFile := by
  have hsorted : ∀ files : Directory, (files.keys.filter isMetaFile).Pairwise (· < ·) :=
    fun files => (List.pairwise_map.mpr files.sorted).filter _
  have hsame : ∀ path, isMetaFile path → directory.get path = kept.get path := by
    intro path hpath
    apply h.get_meta
    rintro name rfl
    rw [isMetaFile_treePath] at hpath
    cases hpath
  apply (hsorted directory).eq_of_mem_iff (hsorted kept)
  intro path
  rw [List.mem_filter, List.mem_filter, SortedMap.mem_keys, SortedMap.mem_keys]
  constructor
  · rintro ⟨hfile, hmeta⟩
    rw [SortedMap.contains, hsame path hmeta] at hfile
    exact ⟨hfile, hmeta⟩
  · rintro ⟨hfile, hmeta⟩
    rw [SortedMap.contains, ← hsame path hmeta] at hfile
    exact ⟨hfile, hmeta⟩

namespace IndexCatalog

variable [CharacterTables] {catalog : IndexCatalog} {index : OpenIndex} {name : String}

/-- Opening reads the definitions and the trees that they name, and no other files. -/
theorem openIndex_of_spare (h : Spare directory kept) (hindex : index.Filed name kept)
    (indexes : SortedMap String OpenIndex) :
    openIndex directory (metaPath name) indexes = openIndex kept (metaPath name) indexes := by
  have hdefinition : readDefinition (metaPath name) directory =
      readDefinition (metaPath name) kept := by
    rw [readDefinition, h.get_meta (metaPath_ne_treePath name)]
    rfl
  have htree : BPlusTree.openFile (treePath name) directory =
      BPlusTree.openFile (treePath name) kept := by
    rw [BPlusTree.openFile, h.get_eq hindex.saved.present]
    rfl
  rw [openIndex, openIndex, hdefinition, hindex.readDefinition]
  simp only [Result.lift, ok_bind, hindex.named, htree]

theorem openIndexes_of_spare (h : Spare directory catalog.directory) (hfiled : catalog.Filed)
    {paths : List String} (hpaths : ∀ path ∈ paths, ∃ name index, path = metaPath name ∧
      catalog.indexes.get name = some index) (indexes : SortedMap String OpenIndex) :
    openIndexes directory paths indexes = openIndexes catalog.directory paths indexes := by
  induction paths generalizing indexes with
  | nil => rfl
  | cons path rest ih =>
      obtain ⟨name, index, rfl, hindex⟩ := hpaths path List.mem_cons_self
      rw [openIndexes, openIndexes, openIndex_of_spare h (hfiled.indexes hindex)]
      exact bind_congr fun next =>
        ih (fun path hpath => hpaths path (List.mem_cons_of_mem _ hpath)) next

/-- Further trees do not matter when a directory is opened. -/
theorem openDirectory_of_spare (h : Spare directory catalog.directory) (hfiled : catalog.Filed)
    (hclean : catalog.Clean) :
    Decodes (openDirectory directory) ⟨directory, catalog.indexes⟩ catalog.Short := by
  have hopen := hfiled.openDirectory hclean
  have hsame : openDirectory directory =
      (fun opened => (⟨directory, opened.indexes⟩ : IndexCatalog)) <$>
        openDirectory catalog.directory := by
    rw [openDirectory, openDirectory, h.metaFiles,
      openIndexes_of_spare h hfiled fun path hpath => hfiled.mem_metaFiles.mp hpath]
    cases openIndexes catalog.directory (catalog.directory.keys.filter isMetaFile) .empty <;> rfl
  rw [hsame]
  constructor
  · intro hshort
    rw [hopen.1 hshort]
    rfl
  · intro hlong
    obtain ⟨cause, hcause⟩ := hopen.2 hlong
    exact ⟨cause, by rw [hcause]; rfl⟩

theorem openIndexes_refuses {path : String} {paths : List String} (hmem : path ∈ paths)
    (hrefuses : ∀ indexes, ∃ cause, IndexCatalog.openIndex directory path indexes = .error cause)
    (indexes : SortedMap String OpenIndex) :
    ∃ cause, openIndexes directory paths indexes = .error cause := by
  induction paths generalizing indexes with
  | nil => cases hmem
  | cons first rest ih =>
      rw [IndexCatalog.openIndexes]
      cases hfirst : IndexCatalog.openIndex directory first indexes with
      | error cause => exact ⟨cause, rfl⟩
      | ok next =>
          rcases List.mem_cons.mp hmem with rfl | hrest
          · obtain ⟨cause, hcause⟩ := hrefuses indexes
            rw [hfirst] at hcause
            cases hcause
          · exact ih hrest next

/-- A definition that cannot be read, or one whose tree cannot be. -/
def Torn (directory : Directory) : Prop :=
  ∃ name ≠ "", ∃ described, directory.get (metaPath name) = some described ∧
    ((∃ cause, decodeDefinition described = .error cause) ∨
      ∃ definition, decodeDefinition described = .ok definition ∧ definition.name = name ∧
        ∃ bytes cause, directory.get (treePath name) = some bytes ∧
          BPlusTree.openBytes bytes = .error cause)

/-- A torn file keeps the directory from being opened. -/
theorem Torn.refuses (h : Torn directory) :
    ∃ cause, IndexCatalog.openDirectory directory = .error cause := by
  obtain ⟨name, hname, described, hfile, htorn⟩ := h
  have hmem : metaPath name ∈ directory.keys.filter isMetaFile := by
    refine List.mem_filter.mpr ⟨SortedMap.mem_keys.mpr ?_, isMetaFile_metaPath hname⟩
    rw [SortedMap.contains, hfile]
    rfl
  have hrefuses : ∀ indexes, ∃ cause,
      IndexCatalog.openIndex directory (metaPath name) indexes = .error cause := by
    intro indexes
    cases hopen : IndexCatalog.openIndex directory (metaPath name) indexes with
    | error cause => exact ⟨cause, rfl⟩
    | ok next =>
        exfalso
        simp only [IndexCatalog.openIndex, bind_eq_ok] at hopen
        obtain ⟨found, hread, _, -, _, -, _, -, tree, htree, -⟩ := hopen
        have hfound : decodeDefinition described = .ok found := by
          have hdefinition := Result.lift_eq_ok.mp hread
          rw [readDefinition, hfile] at hdefinition
          exact hdefinition
        rcases htorn with ⟨cause, hcause⟩ |
          ⟨definition, hdefinition, rfl, bytes, cause, hbytes, hcause⟩
        · cases hcause.symm.trans hfound
        · obtain rfl := Except.ok.inj (hdefinition.symm.trans hfound)
          rw [BPlusTree.openFile, hbytes] at htree
          cases hcause.symm.trans htree
  obtain ⟨cause, hcause⟩ := openIndexes_refuses hmem hrefuses .empty
  exact ⟨cause, by rw [IndexCatalog.openDirectory, hcause]; rfl⟩

end IndexCatalog

theorem Spare.torn_of (h : Spare directory kept) (htorn : IndexCatalog.Torn kept) :
    IndexCatalog.Torn directory := by
  obtain ⟨name, hname, described, hmeta, hcause⟩ := htorn
  refine ⟨name, hname, described, ?_, hcause.imp_right ?_⟩
  · rw [h.get_meta (metaPath_ne_treePath name), hmeta]
  · rintro ⟨definition, hdefinition, hnamed, bytes, cause, htree, hopen⟩
    refine ⟨definition, hdefinition, hnamed, bytes, cause, ?_, hopen⟩
    rw [h.get_eq (by rw [SortedMap.contains, htree]; rfl), htree]

end Opening

end NovaBase.Index
