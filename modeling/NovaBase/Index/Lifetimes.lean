import NovaBase.Index.Persistence
import NovaBase.Index.Recovery

/-!
# Lives of a catalog

A directory that an interrupted command has left may hold trees that no definition names. They
change nothing but that no index of their names can be created. So a command that succeeds, or is
interrupted, does on such a directory what it does without these trees, over any number of
interruptions.
-/

namespace NovaBase.Index

open Lib Lib.Bytes

section Files

variable {directory directory' kept left : Directory} {operations : List FileOp} {torn : Bool}
  {path : String} {bytes : Bytes} {tree tree' : BPlusTree}

/-- An operation does the same where there are further trees. -/
theorem Spare.apply (h : Spare directory kept) (operation : FileOp) :
    Spare (operation.apply directory) (operation.apply kept) := by
  cases operation with
  | put path bytes => exact h.insert path bytes
  | remove path => exact h.remove path

/-- An interruption leaves the same files. -/
theorem Spare.stops (h : Spare directory kept) (hstops : Stops operations directory torn left) :
    ∃ left', Stops operations kept torn left' ∧ Spare left left' := by
  induction hstops generalizing kept with
  | between => exact ⟨kept, .between, h⟩
  | within cut => exact ⟨_, .within cut, h.insert _ _⟩
  | @after operation rest directory left torn stops ih =>
      obtain ⟨left', hstops, hleft⟩ := ih (h.apply operation)
      exact ⟨left', .after hstops, hleft⟩

/-- A tree is written to its file, which is there. -/
theorem Spare.sync (h : Spare directory kept) (hpath : kept.contains path)
    (hok : tree.sync path directory = (.ok tree', directory')) :
    ∃ kept', tree.sync path kept = (.ok tree', kept') ∧ Spare directory' kept' ∧
      ∀ other, kept.contains other → kept'.contains other := by
  rcases BPlusTree.sync_eq_ok hok with ⟨hclean, -, rfl, rfl⟩ | ⟨hdirty, bytes, hbytes, -, rfl, rfl⟩
  · have hsync : tree'.sync path = pure tree' := if_neg (by simp [hclean])
    refine ⟨kept, ?_, h, fun _ hother => hother⟩
    rw [hsync]
    rfl
  · refine ⟨kept.insert path bytes, ?_, h.insert path bytes, fun other hother => ?_⟩
    · rw [BPlusTree.sync, if_pos hdirty, hbytes]
      exact (Action.bind_of_ok (Action.ofExcept_apply _ _)).trans
        (Action.bind_of_ok (Directory.overwrite_of_contains hpath))
    · exact (Directory.contains_insert ..).mpr (.inr hother)

theorem Spare.createNew {cause : NovaError} (h : Spare directory kept)
    (hok : Directory.createNew path cause bytes directory = (.ok (), directory')) :
    Directory.createNew path cause bytes kept = (.ok (), kept.insert path bytes) ∧
      directory' = directory.insert path bytes := by
  rw [Directory.createNew] at hok
  split at hok
  · cases hok
  · rename_i hpath
    exact ⟨Directory.createNew_of_not_contains (h.lacks hpath), (Prod.mk.inj hok).2.symm⟩

/-- A tree is put into a new file. -/
theorem Spare.createFile (h : Spare directory kept)
    (hok : BPlusTree.createFile path directory = (.ok tree, directory')) :
    ∃ kept', BPlusTree.createFile path kept = (.ok tree, kept') ∧ Spare directory' kept' ∧
      kept'.contains path ∧ ∀ other, kept.contains other → kept'.contains other := by
  obtain ⟨new, start, hcreate, hfile⟩ := Action.bind_eq_ok.mp hok
  obtain ⟨hnew, rfl⟩ := Prod.mk.inj hcreate
  obtain ⟨_, made, hmade, hsync⟩ := Action.bind_eq_ok.mp hfile
  obtain ⟨hkept, rfl⟩ := h.createNew hmade
  have hpath : (kept.insert path []).contains path := (Directory.contains_insert ..).mpr (.inl rfl)
  obtain ⟨kept', hwritten, hfiles, hpresent⟩ := (h.insert path []).sync hpath hsync
  refine ⟨kept', ?_, hfiles, hpresent path hpath, fun other hother => ?_⟩
  · exact Action.bind_eq_ok.mpr ⟨new, kept, Prod.ext hnew rfl,
      Action.bind_eq_ok.mpr ⟨(), _, hkept, hwritten⟩⟩
  · exact hpresent other ((Directory.contains_insert ..).mpr (.inr hother))

/-- So does filling an index. -/
theorem Spare.fillIndex {definition : IndexDefinition} {keys : List (Option IndexKey × NovaId)}
    (h : Spare directory kept) (hpath : kept.contains (treePath definition.name))
    (hok : IndexCatalog.fillIndex definition keys tree directory = (.ok tree', directory')) :
    ∃ kept', IndexCatalog.fillIndex definition keys tree kept = (.ok tree', kept') ∧
      Spare directory' kept' ∧ ∀ other, kept.contains other → kept'.contains other := by
  obtain ⟨filled, start, hfill, hsyncs⟩ := Action.bind_eq_ok.mp hok
  obtain ⟨hfilled, rfl⟩ := Prod.mk.inj hfill
  obtain ⟨synced, written, hsync, hwrites⟩ := Action.bind_eq_ok.mp hsyncs
  obtain ⟨_, described, hwrite, hreturn⟩ := Action.bind_eq_ok.mp hwrites
  obtain ⟨htree, rfl⟩ := Prod.mk.inj hreturn
  obtain ⟨bytes, encoded, hencode, hcreate⟩ := Action.bind_eq_ok.mp hwrite
  obtain ⟨hbytes, rfl⟩ := Prod.mk.inj hencode
  obtain ⟨middle, hkept, hfiles, hpresent⟩ := h.sync hpath hsync
  obtain ⟨hnew, rfl⟩ := hfiles.createNew hcreate
  have hdefinition : writeDefinition (metaPath definition.name) definition middle =
      (.ok (), middle.insert (metaPath definition.name) bytes) :=
    Action.bind_eq_ok.mpr ⟨bytes, middle, Prod.ext hbytes rfl, hnew⟩
  refine ⟨middle.insert (metaPath definition.name) bytes, ?_, hfiles.insert _ _,
    fun other hother => (Directory.contains_insert ..).mpr (.inr (hpresent other hother))⟩
  exact Action.bind_eq_ok.mpr ⟨filled, kept, Prod.ext hfilled rfl, Action.bind_eq_ok.mpr
    ⟨synced, middle, hkept, Action.bind_eq_ok.mpr ⟨(), _, hdefinition, Prod.ext htree rfl⟩⟩⟩

end Files

namespace IndexCatalog

variable {catalog next ghost last : IndexCatalog} {name collection : String}
  {names : List String} {index : OpenIndex}

/-- A catalog, and what it is without the trees that no definition names. -/
structure Ghost (catalog ghost : IndexCatalog) : Prop where
  indexes : ghost.indexes = catalog.indexes
  files : Spare catalog.directory ghost.directory
  present : ∀ name, ghost.indexes.contains name → ghost.directory.contains (treePath name)

/-- A command that succeeds does the same without the further trees. -/
def Carries (x : Action Failure IndexCatalog Unit) : Prop :=
  ∀ ⦃catalog ghost next⦄, Ghost catalog ghost → x catalog = (.ok (), next) →
    ∃ ghost', x ghost = (.ok (), ghost') ∧ Ghost next ghost'

section Rules

theorem Carries.forM {γ : Type} {f : γ → Action Failure IndexCatalog Unit} {xs : List γ}
    (h : ∀ a ∈ xs, Carries (f a)) : Carries (xs.forM f) := by
  induction xs with
  | nil =>
      intro catalog ghost next hghost hok
      obtain ⟨-, rfl⟩ := Prod.mk.inj hok
      exact ⟨ghost, rfl, hghost⟩
  | cons a rest ih =>
      intro catalog ghost next hghost hok
      obtain ⟨hfirst, hrest⟩ := List.forall_mem_cons.mp h
      obtain ⟨_, middle, ha, hothers⟩ := Action.bind_eq_ok.mp hok
      obtain ⟨ghostMiddle, hstep, hmiddle⟩ := hfirst hghost ha
      obtain ⟨ghost', hsteps, hnext⟩ := ih hrest hmiddle hothers
      exact ⟨ghost', Action.bind_eq_ok.mpr ⟨(), ghostMiddle, hstep, hsteps⟩, hnext⟩

/-- What is read of the indexes is the same. -/
theorem Carries.reads {α : Type} {f : IndexCatalog → Result α}
    {next : α → Action Failure IndexCatalog Unit}
    (hf : ∀ {catalog ghost}, Ghost catalog ghost → f ghost = f catalog)
    (hnext : ∀ a, Carries (next a)) :
    Carries ((Action.reads fun catalog => (f catalog).lift) >>= next) := by
  intro catalog ghost last hghost hok
  obtain ⟨a, middle, hread, hrest⟩ := Action.bind_eq_ok.mp hok
  obtain ⟨hvalue, rfl⟩ := lift_reads_eq_ok hread
  obtain ⟨ghost', hsteps, hlast⟩ := hnext a hghost hrest
  refine ⟨ghost', Action.bind_eq_ok.mpr ⟨a, ghost, ?_, hsteps⟩, hlast⟩
  rw [Action.reads_apply, hf hghost, hvalue]
  rfl

theorem Carries.check {α : Type} {result : Except Failure α}
    {next : α → Action Failure IndexCatalog Unit} (hnext : ∀ a, Carries (next a)) :
    Carries (Action.ofExcept result >>= next) := by
  intro catalog ghost last hghost hok
  obtain ⟨a, middle, hresult, hrest⟩ := Action.bind_eq_ok.mp hok
  obtain ⟨rfl, rfl⟩ := Prod.mk.inj hresult
  obtain ⟨ghost', hsteps, hlast⟩ := hnext a hghost hrest
  exact ⟨ghost', Action.bind_eq_ok.mpr ⟨a, ghost, rfl, hsteps⟩, hlast⟩

end Rules

section Trees

/-- A tree may be changed in both. -/
theorem Ghost.setTree (h : Ghost catalog ghost) (hindex : catalog.indexes.get name = some index)
    (tree : BPlusTree) {directory kept : Directory} (hfiles : Spare directory kept)
    (hpresent : ∀ path, ghost.directory.contains path → kept.contains path) :
    Ghost ({ catalog with directory }.setTree name index tree)
      ({ ghost with directory := kept }.setTree name index tree) where
  indexes := by
    rw [IndexCatalog.setTree, IndexCatalog.setTree, h.indexes]
  files := hfiles
  present other hother := by
    apply hpresent
    apply h.present
    rw [IndexCatalog.setTree, SortedMap.contains, SortedMap.get_insert] at hother
    split at hother
    · rename_i hsame
      subst hsame
      rw [h.indexes, SortedMap.contains, hindex]
      rfl
    · exact hother

theorem carries_updateTree (name : String) (update : BPlusTree → Partial BPlusTree) :
    Carries (updateTree name update) := by
  intro catalog ghost next hghost hok
  rw [updateTree] at hok
  split at hok
  · cases hok
  · rename_i index hindex
    split at hok
    · cases hok
    · rename_i tree htree
      obtain ⟨-, rfl⟩ := Prod.mk.inj hok
      refine ⟨ghost.setTree name index tree, ?_, hghost.setTree hindex tree hghost.files
        fun _ h => h⟩
      rw [updateTree, hghost.indexes]
      simp only [hindex, htree]

theorem carries_syncIndex (name : String) : Carries (syncIndex name) := by
  intro catalog ghost next hghost hok
  cases hindex : catalog.indexes.get name with
  | none =>
      have hnone : ∀ {other : IndexCatalog}, other.indexes = catalog.indexes →
          syncIndex name other = (.ok (), other) := by
        intro other hsame
        rw [syncIndex, hsame]
        simp only [hindex]
      obtain ⟨-, rfl⟩ := Prod.mk.inj ((hnone rfl).symm.trans hok)
      exact ⟨ghost, hnone hghost.indexes, hghost⟩
  | some index =>
      obtain ⟨tree, directory, hsync, rfl⟩ := syncIndex_eq_ok hindex hok
      have hname : ghost.directory.contains (treePath name) := by
        apply hghost.present
        rw [hghost.indexes, SortedMap.contains, hindex]
        rfl
      obtain ⟨kept, hkept, hfiles, hpresent⟩ := hghost.files.sync hname hsync
      refine ⟨{ ghost with directory := kept }.setTree name index tree, ?_,
        hghost.setTree hindex tree hfiles hpresent⟩
      rw [syncIndex, hghost.indexes]
      simp only [hindex, hkept]

theorem Ghost.keysForDocument (h : Ghost catalog ghost) (collection : String)
    (document : Document) :
    ghost.keysForDocument collection document = catalog.keysForDocument collection document := by
  rw [IndexCatalog.keysForDocument, IndexCatalog.keysForDocument, indexesOf, indexesOf, h.indexes]

theorem Ghost.namesOf (h : Ghost catalog ghost) (collection : String) :
    ghost.namesOf collection = catalog.namesOf collection := by
  rw [IndexCatalog.namesOf, IndexCatalog.namesOf, indexesOf, indexesOf, h.indexes]

theorem carries_insertKeys (collection : String) (document : Document) :
    Carries (insertKeys collection document) := by
  apply Carries.reads fun h => h.keysForDocument collection document
  intro keys
  exact Carries.forM fun change _ => carries_updateTree change.1 _

theorem carries_deleteKeys (collection : String) (document : Document) :
    Carries (deleteKeys collection document) := by
  apply Carries.reads fun h => h.keysForDocument collection document
  intro keys
  exact Carries.forM fun change _ => carries_updateTree change.1 _

theorem carries_replaceKeys (collection : String) (old new : Document) :
    Carries (replaceKeys collection old new) := by
  apply Carries.reads fun h => h.keysForDocument collection old
  intro oldKeys
  apply Carries.reads fun h => h.keysForDocument collection new
  intro newKeys
  apply Carries.forM
  intro change _
  exact Carries.check fun _ => carries_updateTree change.1.1 _

theorem carries_syncCollection (collection : String) : Carries (syncCollection collection) := by
  intro catalog ghost next hghost hok
  obtain ⟨ghost', hsteps, hnext⟩ :=
    Carries.forM (fun name _ => carries_syncIndex name) hghost hok
  refine ⟨ghost', ?_, hnext⟩
  rw [syncCollection, hghost.namesOf]
  exact hsteps

/-- The writes are the same. -/
theorem Ghost.syncWrites (h : Ghost catalog ghost)
    (hok : names.forM syncIndex catalog = (.ok (), next)) :
    IndexCatalog.syncWrites names ghost = IndexCatalog.syncWrites names catalog := by
  induction names generalizing catalog ghost with
  | nil => rfl
  | cons name rest ih =>
      obtain ⟨_, middle, hfirst, hrest⟩ := Action.bind_eq_ok.mp hok
      obtain ⟨ghostMiddle, hstep, hmiddle⟩ := carries_syncIndex name h hfirst
      rw [IndexCatalog.syncWrites, IndexCatalog.syncWrites, hfirst, hstep, h.indexes,
        ih hmiddle hrest]

/-- The operations of a change of trees are the same. -/
theorem Ghost.changeWrites (h : Ghost catalog ghost) {change : Action Failure IndexCatalog Unit}
    (hcarries : Carries change) (hchange : change catalog = (.ok (), next))
    (hsync : syncCollection collection next = (.ok (), last)) :
    IndexCatalog.changeWrites collection change ghost =
      IndexCatalog.changeWrites collection change catalog := by
  obtain ⟨ghost', hstep, hnext⟩ := hcarries h hchange
  rw [IndexCatalog.changeWrites, IndexCatalog.changeWrites, hchange, hstep]
  simp only [hnext.namesOf]
  exact hnext.syncWrites hsync

end Trees

section Drops

theorem carries_dropIndex (name : String) : Carries (dropIndex name) := by
  intro catalog ghost next hghost hok
  obtain ⟨hname, hmeta, htree, rfl⟩ := dropIndex_eq_ok.mp hok
  have hghostName : ghost.indexes.contains name := by
    rw [hghost.indexes]
    exact hname
  refine ⟨_, dropIndex_eq_ok.mpr ⟨hghostName, ?_, hghost.present name hghostName, rfl⟩, ?_, ?_, ?_⟩
  · rw [SortedMap.contains, ← hghost.files.get_meta (metaPath_ne_treePath name)]
    exact hmeta
  · dsimp only
    rw [hghost.indexes]
  · exact (hghost.files.remove _).remove _
  · intro other hother
    rw [SortedMap.contains, SortedMap.get_remove] at hother
    split at hother
    · cases hother
    · rename_i hne
      rw [Directory.contains_remove, Directory.contains_remove]
      exact ⟨fun hsame => hne (treePath_injective hsame), metaPath_ne_treePath name other,
        hghost.present other hother⟩

/-- The same files are removed without the further trees. -/
theorem Ghost.dropWrites (h : Ghost catalog ghost)
    (hok : names.forM dropIndex catalog = (.ok (), next)) :
    IndexCatalog.dropWrites names ghost = IndexCatalog.dropWrites names catalog := by
  induction names generalizing catalog ghost with
  | nil => rfl
  | cons name rest ih =>
      obtain ⟨_, middle, hfirst, hrest⟩ := Action.bind_eq_ok.mp hok
      obtain ⟨ghostMiddle, hstep, hmiddle⟩ := carries_dropIndex name h hfirst
      rw [IndexCatalog.dropWrites, IndexCatalog.dropWrites, hfirst, hstep, h.indexes,
        ih hmiddle hrest]

end Drops

section Commands

variable [CharacterTables] {call : CatalogCall}

theorem Ghost.prepareIndex (h : Ghost catalog ghost) (definition : IndexDefinition)
    (documents : List Document) :
    ghost.prepareIndex definition documents = catalog.prepareIndex definition documents := by
  rw [IndexCatalog.prepareIndex, IndexCatalog.prepareIndex, h.indexes]

theorem carries_createIndex (name collection : String) (field : List String)
    (documents : List Document) : Carries (createIndex name collection field documents) := by
  intro catalog ghost next hghost hok
  obtain ⟨keys, middle, hread, hfiles⟩ := Action.bind_eq_ok.mp hok
  obtain ⟨hkeys, rfl⟩ := lift_reads_eq_ok hread
  obtain ⟨tree, created, hcreate, hfill⟩ := Action.bind_eq_ok.mp hfiles
  obtain ⟨directory, hfile, rfl⟩ := onDirectory_eq_ok hcreate
  obtain ⟨start, hstart, hstartFiles, htree, hstartPresent⟩ := hghost.files.createFile hfile
  simp only at hfill
  split at hfill
  · rename_i filled written hfilled
    obtain ⟨-, rfl⟩ := Prod.mk.inj hfill
    obtain ⟨kept, hkept, hkeptFiles, hkeptPresent⟩ := hstartFiles.fillIndex htree hfilled
    have hdone : createIndex name collection field documents ghost =
        (.ok (), ⟨kept, ghost.indexes.insert name ⟨⟨name, collection, field⟩, filled⟩⟩) := by
      refine Action.bind_eq_ok.mpr ⟨keys, ghost, ?_, ?_⟩
      · rw [Action.reads_apply, hghost.prepareIndex, hkeys]
        rfl
      · refine Action.bind_eq_ok.mpr ⟨tree, { ghost with directory := start }, ?_, ?_⟩
        · rw [onDirectory, Action.zoom, hstart]
        · simp only [hkept]
    refine ⟨_, hdone, ?_, hkeptFiles, fun other hother => ?_⟩
    · dsimp only
      rw [hghost.indexes]
    · rw [SortedMap.contains, SortedMap.get_insert] at hother
      split at hother
      · rename_i hsame
        subst hsame
        exact hkeptPresent _ htree
      · exact hkeptPresent _ (hstartPresent _ (hghost.present other hother))
  · cases hfill

/-- A command that succeeds does the same, with the same operations on files. -/
theorem Ghost.succeed (h : Ghost catalog ghost) (hcall : catalog.succeed call = some next) :
    journal ghost call = journal catalog call ∧
      ∃ ghost', ghost.succeed call = some ghost' ∧ Ghost next ghost' := by
  have hok : perform call catalog = (.ok (), next) := perform_eq_ok.mp hcall
  cases call with
  | createIndex name collection field documents =>
      obtain ⟨ghost', hstep, hnext⟩ := carries_createIndex name collection field documents h hok
      refine ⟨?_, ghost', perform_eq_ok.mpr hstep, hnext⟩
      rw [journal, journal, h.prepareIndex]
  | insertDocument collection document =>
      obtain ⟨middle, hchange, hsync⟩ := insertDocument_eq_ok.mp hok
      have hcarries := carries_insertKeys collection document
      obtain ⟨ghostMiddle, hstep, hmiddle⟩ := hcarries h hchange
      obtain ⟨ghost', hwrites, hnext⟩ := carries_syncCollection collection hmiddle hsync
      exact ⟨h.changeWrites hcarries hchange hsync, ghost',
        perform_eq_ok.mpr (insertDocument_eq_ok.mpr ⟨ghostMiddle, hstep, hwrites⟩), hnext⟩
  | replaceDocument collection old new =>
      obtain ⟨hid, middle, hchange, hsync⟩ := replaceDocument_eq_ok.mp hok
      have hcarries := carries_replaceKeys collection old new
      obtain ⟨ghostMiddle, hstep, hmiddle⟩ := hcarries h hchange
      obtain ⟨ghost', hwrites, hnext⟩ := carries_syncCollection collection hmiddle hsync
      exact ⟨h.changeWrites hcarries hchange hsync, ghost',
        perform_eq_ok.mpr (replaceDocument_eq_ok.mpr ⟨hid, ghostMiddle, hstep, hwrites⟩), hnext⟩
  | deleteDocument collection document =>
      obtain ⟨middle, hchange, hsync⟩ := deleteDocument_eq_ok.mp hok
      have hcarries := carries_deleteKeys collection document
      obtain ⟨ghostMiddle, hstep, hmiddle⟩ := hcarries h hchange
      obtain ⟨ghost', hwrites, hnext⟩ := carries_syncCollection collection hmiddle hsync
      exact ⟨h.changeWrites hcarries hchange hsync, ghost',
        perform_eq_ok.mpr (deleteDocument_eq_ok.mpr ⟨ghostMiddle, hstep, hwrites⟩), hnext⟩
  | dropIndex name =>
      have hdrop : [name].forM IndexCatalog.dropIndex catalog = (.ok (), next) :=
        Action.bind_eq_ok.mpr ⟨(), next, hok, rfl⟩
      obtain ⟨ghost', hstep, hnext⟩ := carries_dropIndex name h hok
      exact ⟨h.dropWrites hdrop, ghost', perform_eq_ok.mpr hstep, hnext⟩
  | dropCollectionIndexes collection =>
      obtain ⟨ghost', hstep, hnext⟩ :=
        Carries.forM (fun name _ => carries_dropIndex name) h hok
      refine ⟨?_, ghost', perform_eq_ok.mpr ?_, hnext⟩
      · rw [journal, journal, h.namesOf]
        exact h.dropWrites hok
      · rw [perform, dropCollectionIndexes, h.namesOf]
        exact hstep

end Commands

section Lives

variable [CharacterTables] {call : CatalogCall} {left : Directory} {torn : Bool}

/-- A catalog after commands that succeed, some of which may have been interrupted. The directory
that is left then is opened again. -/
inductive Lives : IndexCatalog → Prop
  | new : Lives ⟨.empty, .empty⟩
  | call {catalog next : IndexCatalog} {call : CatalogCall} (lives : Lives catalog)
      (hcall : catalog.succeed call = some next) : Lives next
  | reopen {catalog opened : IndexCatalog} (lives : Lives catalog)
      (hopen : openDirectory catalog.directory = .ok opened) : Lives opened
  | crash {catalog next opened : IndexCatalog} {call : CatalogCall} {torn : Bool}
      {left : Directory} (lives : Lives catalog) (hcall : catalog.succeed call = some next)
      (hstops : Stops (journal catalog call) catalog.directory torn left)
      (hopen : openDirectory left = .ok opened) : Lives opened

/-- The catalog is one with its files, but for further trees. -/
def Kept (catalog : IndexCatalog) : Prop :=
  ∃ ghost, Ghost catalog ghost ∧ ghost.Filed ∧ ghost.Clean

/-- A filed catalog is kept, whatever further trees lie beside its own. -/
theorem Filed.kept (h : catalog.Filed) (hclean : catalog.Clean)
    (hfiles : Spare left catalog.directory) : Kept ⟨left, catalog.indexes⟩ := by
  refine ⟨catalog, ⟨rfl, hfiles, fun name hname => ?_⟩, h, hclean⟩
  obtain ⟨index, hindex⟩ := Option.isSome_iff_exists.mp hname
  exact (h.indexes hindex).saved.present

/-- The directory opens as the catalog. -/
theorem Kept.openDirectory (h : Kept catalog) :
    Decodes (IndexCatalog.openDirectory catalog.directory) catalog catalog.Short := by
  obtain ⟨ghost, hghost, hfiled, hclean⟩ := h
  have hopen := openDirectory_of_spare hghost.files hfiled hclean
  rw [hghost.indexes] at hopen
  refine hopen.congr ?_
  rw [Short, Short, hghost.indexes]

/-- A command that succeeds keeps it so. -/
theorem Kept.succeed (h : Kept catalog) (hcall : catalog.succeed call = some next) :
    Kept next := by
  obtain ⟨ghost, hghost, hfiled, hclean⟩ := h
  obtain ⟨-, ghost', hstep, hnext⟩ := hghost.succeed hcall
  exact ⟨ghost', hnext, hfiled.succeed hclean hstep⟩

/-- What is left is torn, or a catalog every index of which is as before or as after. -/
theorem Kept.interrupted (h : Kept catalog) (hcall : catalog.succeed call = some next)
    (hstops : Stops (journal catalog call) catalog.directory torn left) :
    (∃ indexes, Kept ⟨left, indexes⟩ ∧ ∀ name, indexes.get name = catalog.indexes.get name ∨
      indexes.get name = next.indexes.get name) ∨ torn = true ∧ Torn left := by
  obtain ⟨ghost, hghost, hfiled, hclean⟩ := h
  obtain ⟨hjournal, ghost', hstep, hnext⟩ := hghost.succeed hcall
  obtain ⟨left', hstops', hleft⟩ := hghost.files.stops hstops
  rw [← hjournal] at hstops'
  rcases hfiled.interrupted hclean hstep hstops' with ⟨middle, hbetween, hspare⟩ | ⟨htorn, hleft'⟩
  · refine .inl ⟨middle.indexes, hbetween.filed.kept hbetween.clean (hleft.trans hspare), ?_⟩
    intro name
    rw [← hghost.indexes, ← hnext.indexes]
    exact hbetween.each name
  · exact .inr ⟨htorn, hleft.torn_of hleft'⟩

/-- What has been opened is the catalog of the directory. -/
theorem Kept.opened (h : Kept catalog) {opened : IndexCatalog}
    (hopen : IndexCatalog.openDirectory catalog.directory = .ok opened) : opened = catalog := by
  by_cases hshort : catalog.Short
  · exact Except.ok.inj (hopen.symm.trans (h.openDirectory.1 hshort))
  · obtain ⟨cause, hcause⟩ := h.openDirectory.2 hshort
    cases hcause.symm.trans hopen

/-- A directory with a torn definition is refused. -/
theorem Torn.not_opened (h : Torn left) {opened : IndexCatalog} :
    IndexCatalog.openDirectory left ≠ .ok opened := by
  intro hopen
  obtain ⟨cause, hcause⟩ := h.refuses
  cases hcause.symm.trans hopen

/-- In every life the catalog is kept. -/
theorem Lives.kept (h : Lives catalog) : Kept catalog := by
  induction h with
  | new => exact filed_empty.kept (fun _ _ hindex => by cases hindex) (.refl _)
  | call lives hcall ih => exact ih.succeed hcall
  | reopen lives hopen ih => rwa [ih.opened hopen]
  | crash lives hcall hstops hopen ih =>
      rcases ih.interrupted hcall hstops with ⟨indexes, hkept, -⟩ | ⟨-, htorn⟩
      · rwa [hkept.opened hopen]
      · exact (htorn.not_opened hopen).elim

end Lives

end IndexCatalog

open IndexCatalog

/-- No interruption loses an index. Let commands succeed on an empty directory, let any of them be
interrupted between two file operations or in the middle of writing a file, and let the directory be
opened again each time. Then it always opens as the catalog that is in memory if its string keys are
short. If a further command is interrupted and what it leaves can be opened, every index is as it
was before the command or as it is after it. It can be opened if no file is torn and the string keys
are short. The operations of the command are those that give its files. -/
theorem interrupted_commands_recover [CharacterTables] (call : CatalogCall)
    (catalog next : IndexCatalog) (torn : Bool) (left : Directory) (hlives : Lives catalog)
    (hcall : catalog.succeed call = some next)
    (hstops : Stops (journal catalog call) catalog.directory torn left) :
    (catalog.Short → openDirectory catalog.directory = .ok catalog) ∧
    (∀ opened, openDirectory left = .ok opened → ∀ name,
      opened.indexes.get name = catalog.indexes.get name ∨
        opened.indexes.get name = next.indexes.get name) ∧
    (torn = false → catalog.Short → next.Short → ∃ opened, openDirectory left = .ok opened) ∧
    (journal catalog call).foldl FileOp.apply catalog.directory = next.directory := by
  have hkept : Kept catalog := hlives.kept
  refine ⟨hkept.openDirectory.1, ?_, ?_, foldl_journal hcall⟩
  · intro opened hopen name
    rcases hkept.interrupted hcall hstops with ⟨indexes, hleft, heach⟩ | ⟨-, htorn⟩
    · obtain rfl := hleft.opened hopen
      exact heach name
    · exact (htorn.not_opened hopen).elim
  · intro hwhole hshort hnext
    rcases hkept.interrupted hcall hstops with ⟨indexes, hleft, heach⟩ | ⟨htorn, -⟩
    · refine ⟨_, hleft.openDirectory.1 fun name index hindex => ?_⟩
      rcases heach name with hsame | hsame
      · exact hshort name index (hsame.symm.trans hindex)
      · exact hnext name index (hsame.symm.trans hindex)
    · rw [hwhole] at htorn
      cases htorn

/-- An index is dropped, and the process stops with its tree still there. -/
theorem interrupted_commands_recover_drop :
    let _ := CharacterTables.ascii
    ∃ catalog opened, run succeed [createNames "Ada"] ⟨.empty, .empty⟩ = some catalog ∧
      openDirectory (catalog.directory.remove (metaPath "by_name")) = .ok opened ∧
      ∀ name, opened.indexes.get name = catalog.indexes.get name ∨
        opened.indexes.get name = (catalog.indexes.remove "by_name").get name := by
  intro tables
  obtain ⟨catalog, hrun, hindexes⟩ := @succeed_createNames "Ada" (by decide)
  have hlives : Lives catalog := by
    obtain ⟨_, hcall, hlast⟩ := run_cons.mp hrun
    obtain rfl := Option.some.inj hlast
    exact .call .new hcall
  have hindex : catalog.indexes.get "by_name" =
      some ⟨⟨"by_name", "students", ["name"]⟩, namesTree "Ada"⟩ := by
    rw [hindexes, SortedMap.get_insert, if_pos rfl]
  have hname : catalog.indexes.contains "by_name" = true := by
    rw [SortedMap.contains, hindex]
    rfl
  obtain ⟨ghost, hghost, hfiled, -⟩ := hlives.kept
  have hdrop : catalog.succeed (.dropIndex "by_name") = some
      ⟨(catalog.directory.remove (metaPath "by_name")).remove (treePath "by_name"),
        catalog.indexes.remove "by_name"⟩ := by
    rw [← hghost.indexes] at hindex
    have hindexFiled := hfiled.indexes hindex
    obtain ⟨bytes, hmeta, -⟩ := hindexFiled.described
    refine perform_eq_ok.mpr (dropIndex_eq_ok.mpr ⟨hname, ?_, ?_, rfl⟩)
    · rw [SortedMap.contains, hghost.files.get_meta (metaPath_ne_treePath "by_name"), hmeta]
      rfl
    · rw [SortedMap.contains, hghost.files.get_eq hindexFiled.saved.present]
      exact hindexFiled.saved.present
  have hjournal : journal catalog (.dropIndex "by_name") =
      [.remove (metaPath "by_name"), .remove (treePath "by_name")] := by
    rw [journal, dropWrites, if_pos hname]
    rfl
  have hstops : Stops (journal catalog (.dropIndex "by_name")) catalog.directory false
      (catalog.directory.remove (metaPath "by_name")) := by
    rw [hjournal]
    exact .after .between
  have hshort : ∀ index : OpenIndex, index.tree = namesTree "Ada" → index.tree.Short := by
    intro index htree
    rw [htree]
    decide +kernel
  have hrecover := interrupted_commands_recover _ catalog _ _ _ hlives hdrop hstops
  obtain ⟨opened, hopen⟩ := hrecover.2.2.1 rfl
    (by
      intro name index hfound
      rw [hindexes] at hfound
      rcases SortedMap.get_insert_eq_some.mp hfound with ⟨-, rfl⟩ | ⟨-, hnone⟩
      · exact hshort _ rfl
      · cases hnone)
    (by
      intro name index hfound
      rw [hindexes, SortedMap.get_remove, Option.ite_none_left_eq_some] at hfound
      obtain ⟨-, hfound⟩ := hfound
      rcases SortedMap.get_insert_eq_some.mp hfound with ⟨-, rfl⟩ | ⟨-, hnone⟩
      · exact hshort _ rfl
      · cases hnone)
  exact ⟨catalog, opened, hrun, hopen, hrecover.2.1 opened hopen⟩

end NovaBase.Index
