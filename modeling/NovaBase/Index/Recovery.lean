import NovaBase.Index.Interruption

/-!
# What an interrupted command leaves

Every tree that a command has written is as after the command, every other is as before it. The
definition of an index is written last and removed first, so that a tree without it is not opened.
-/

namespace NovaBase.Index

open Lib Lib.Bytes

namespace IndexCatalog

variable {catalog next last before after middle memory : IndexCatalog} {left : Directory}
  {torn : Bool} {index : OpenIndex} {name collection : String} {names written : List String}

/-- A name that is gone stays gone. -/
theorem drops_keep (hok : names.forM dropIndex memory = (.ok (), last))
    (hindex : memory.indexes.get name = none) : last.indexes.get name = none := by
  refine Action.forM_ok (I := fun _ middle => middle.indexes.get name = none) hok hindex ?_
  rintro done other rest middle middle' - hmiddle hdrop
  obtain ⟨-, -, -, rfl⟩ := dropIndex_eq_ok.mp hdrop
  rw [SortedMap.get_remove, hmiddle, ite_self]

/-- A front of a definition in its file. -/
theorem torn_definition {definition : IndexDefinition} {directory : Directory} {bytes : Bytes}
    {length : Nat}
    (hname : definition.name ≠ "") (hfield : definition.field ≠ [])
    (hencode : encodeDefinition definition = .ok bytes) (hlength : length < bytes.length) :
    Torn (directory.insert (metaPath definition.name) (bytes.take length)) := by
  obtain ⟨cause, hcause⟩ := decodeDefinition_take hfield hencode hlength
  refine ⟨definition.name, hname, bytes.take length, ?_, .inl ⟨cause, hcause⟩⟩
  rw [SortedMap.get_insert, if_pos rfl]

variable [CharacterTables]

/-- A catalog with its files, every index of which is as before or as after. -/
structure Between (before after middle : IndexCatalog) : Prop where
  filed : middle.Filed
  clean : middle.Clean
  each : ∀ name, middle.indexes.get name = before.indexes.get name ∨
    middle.indexes.get name = after.indexes.get name

/-- What is left opens as a catalog in between, or a file in it is torn. -/
def Recovers (before after : IndexCatalog) (torn : Bool) (left : Directory) : Prop :=
  (∃ middle, Between before after middle ∧ Spare left middle.directory) ∨
    torn = true ∧ Torn left

section Syncs

/-- A front of a snapshot in the file of an index. -/
theorem Filed.torn_snapshot {bytes : Bytes} {length : Nat} (h : catalog.Filed)
    (hname : catalog.indexes.contains name) {tree : BPlusTree}
    (hsnapshot : tree.snapshot = .ok bytes) (hlength : length < bytes.length) :
    Torn (catalog.directory.insert (treePath name) (bytes.take length)) := by
  obtain ⟨index, hindex⟩ := Option.isSome_iff_exists.mp hname
  have hfiled := h.indexes hindex
  obtain ⟨described, hfile, hencode⟩ := hfiled.described
  obtain ⟨cause, hcause⟩ := BPlusTree.openBytes_take hsnapshot hlength
  have hdefinition : decodeDefinition described = .ok index.definition := by
    have hread := hfiled.readDefinition
    rw [readDefinition, hfile] at hread
    exact hread
  refine ⟨name, hfiled.name_ne_empty, described, ?_, .inr ⟨index.definition, hdefinition,
    hfiled.named, bytes.take length, cause, ?_, hcause⟩⟩
  · rw [SortedMap.get_insert, if_neg (metaPath_ne_treePath name name).symm, hfile]
  · rw [SortedMap.get_insert, if_pos rfl]

/-- One more tree has been written. -/
theorem Between.setTree (h : Between before after middle)
    (hindex : middle.indexes.get name = some index) {tree : BPlusTree} {directory : Directory}
    (hclean : tree.dirty = false) (hsaved : tree.Saved (treePath name) directory)
    (hothers : ∀ path, path ≠ treePath name → directory.get path = middle.directory.get path)
    (hafter : after.indexes.get name = some { index with tree }) :
    Between before after ({ middle with directory }.setTree name index tree) where
  filed := h.filed.replaceTree hindex hsaved hothers
  clean other found hfound := by
    rcases SortedMap.get_insert_eq_some.mp hfound with ⟨rfl, rfl⟩ | ⟨-, hold⟩
    · exact hclean
    · exact h.clean other found hold
  each other := by
    rw [IndexCatalog.setTree, SortedMap.get_insert]
    split
    · rename_i hsame
      subst hsame
      exact .inr hafter.symm
    · exact h.each other

/-- The trees of a collection are written one after the other. -/
theorem recovers_syncs (hok : names.forM syncIndex memory = (.ok (), after))
    (h : Between before after middle) (hpending : middle.Pending memory collection written)
    (hsame : middle.directory = memory.directory)
    (hstops : Stops (syncWrites names memory) memory.directory torn left) :
    Recovers before after torn left := by
  induction names generalizing middle memory written with
  | nil =>
      cases hstops
      rw [← hsame]
      exact .inl ⟨middle, h, .refl _⟩
  | cons name rest ih =>
      obtain ⟨_, next, hfirst, hrest⟩ := Action.bind_eq_ok.mp hok
      have hnext := hpending.syncIndex hfirst
      rw [syncWrites, hfirst] at hstops
      cases hindex : memory.indexes.get name with
      | none =>
          simp only [hindex, List.nil_append] at hstops
          rw [syncIndex] at hfirst
          simp only [hindex] at hfirst
          obtain ⟨-, rfl⟩ := Prod.mk.inj hfirst
          exact ih hrest h hnext hsame hstops
      | some index =>
          simp only [hindex] at hstops
          obtain ⟨tree, directory, hsync, rfl⟩ := syncIndex_eq_ok hindex hfirst
          rcases BPlusTree.sync_eq_ok hsync with ⟨-, hwrites, rfl, rfl⟩ |
            ⟨-, bytes, hsnapshot, hwrites, rfl, rfl⟩
          · rw [hwrites, List.nil_append] at hstops
            exact ih hrest h hnext hsame hstops
          rw [hwrites, List.singleton_append] at hstops
          obtain ⟨old, hold, hdefinition⟩ : ∃ old, middle.indexes.get name = some old ∧
              old.definition = index.definition := by
            have hdefines := hpending.defines name
            rw [hindex] at hdefines
            exact Option.map_eq_some_iff.mp hdefines.symm
          cases hstops with
          | between =>
              rw [← hsame]
              exact .inl ⟨middle, h, .refl _⟩
          | within cut =>
              have hname : middle.indexes.contains name = true := by
                rw [SortedMap.contains, hold]
                rfl
              rw [← hsame]
              exact .inr ⟨rfl, h.filed.torn_snapshot hname hsnapshot cut⟩
          | after stops =>
              have hnew : ({ memory with directory := memory.directory.insert (treePath name) bytes
                  }.setTree name index index.tree.clean).indexes.get name =
                    some { index with tree := index.tree.clean } := by
                rw [IndexCatalog.setTree, SortedMap.get_insert, if_pos rfl]
              have hwritten : Between before after ({ middle with
                  directory := memory.directory.insert (treePath name) bytes }.setTree name old
                    index.tree.clean) := by
                apply h.setTree hold rfl
                · exact (hnext.filed.indexes hnew).saved
                · intro path hpath
                  rw [SortedMap.get_insert, if_neg (Ne.symm hpath), hsame]
                · rw [hdefinition]
                  exact syncs_keep hrest hnew rfl
              refine ih hrest hwritten ⟨hnext.filed, fun other => ?_, hnext.dirty⟩ rfl stops
              exact (hnext.defines other).trans (setTree_defines hold _ _ other).symm

end Syncs

section Changes

/-- A loop over changes of trees of the collection. -/
theorem Filed.loop {γ : Type} (h : catalog.Filed) (hclean : catalog.Clean) {changes : List γ}
    {change : γ → Action Failure IndexCatalog Unit}
    (hchange : ∀ a ∈ changes, ∀ middle middle', catalog.Pending middle collection [] →
      change a middle = (.ok (), middle') → catalog.Pending middle' collection [])
    (hloop : changes.forM change catalog = (.ok (), next)) :
    catalog.Pending next collection [] := by
  refine Action.forM_ok (I := fun _ middle => catalog.Pending middle collection []) hloop
    (h.pending hclean collection) ?_
  intro done a rest middle middle' hsplit hmiddle hstep
  exact hchange a (by simp [hsplit]) middle middle' hmiddle hstep

/-- Before the files are written, the changed trees are those of the collection. -/
theorem Filed.insertKeys (h : catalog.Filed) (hclean : catalog.Clean) {document : Document}
    (hok : IndexCatalog.insertKeys collection document catalog = (.ok (), next)) :
    catalog.Pending next collection [] := by
  obtain ⟨keys, middle, hread, hloop⟩ := Action.bind_eq_ok.mp hok
  obtain ⟨hkeys, rfl⟩ := lift_reads_eq_ok hread
  apply h.loop hclean _ hloop
  intro change hmem middle middle' hmiddle hstep
  exact hmiddle.updateTree (marks_insertKey change.2 document.id)
    (fun index hindex => h.keysForDocument hkeys hmem hindex) hstep

theorem Filed.deleteKeys (h : catalog.Filed) (hclean : catalog.Clean) {document : Document}
    (hok : IndexCatalog.deleteKeys collection document catalog = (.ok (), next)) :
    catalog.Pending next collection [] := by
  obtain ⟨keys, middle, hread, hloop⟩ := Action.bind_eq_ok.mp hok
  obtain ⟨hkeys, rfl⟩ := lift_reads_eq_ok hread
  apply h.loop hclean _ hloop
  intro change hmem middle middle' hmiddle hstep
  exact hmiddle.updateTree (marks_removeKey change.2 document.id)
    (fun index hindex => h.keysForDocument hkeys hmem hindex) hstep

theorem Filed.replaceKeys (h : catalog.Filed) (hclean : catalog.Clean) {old new : Document}
    (hok : IndexCatalog.replaceKeys collection old new catalog = (.ok (), next)) :
    catalog.Pending next collection [] := by
  obtain ⟨oldKeys, middle, holdRead, hnewReads⟩ := Action.bind_eq_ok.mp hok
  obtain ⟨holdKeys, rfl⟩ := lift_reads_eq_ok holdRead
  obtain ⟨newKeys, middle, hnewRead, hloop⟩ := Action.bind_eq_ok.mp hnewReads
  obtain ⟨-, rfl⟩ := lift_reads_eq_ok hnewRead
  apply h.loop hclean _ hloop
  intro change hmem middle middle' hmiddle hstep
  obtain ⟨_, checked, hcheck, hmove⟩ := Action.bind_eq_ok.mp hstep
  obtain ⟨-, rfl⟩ := Prod.mk.inj hcheck
  exact hmiddle.updateTree (marks_moveKey change.1.2 change.2.2 old.id)
    (fun index hindex => h.keysForDocument holdKeys (List.of_mem_zip hmem).1 hindex) hmove

theorem between_before (h : catalog.Filed) (hclean : catalog.Clean) :
    Between catalog last catalog := ⟨h, hclean, fun _ => .inl rfl⟩

/-- A command that changes trees in memory, and then writes those of the collection. -/
theorem Filed.interruptedChange (h : catalog.Filed) (hclean : catalog.Clean)
    {change : Action Failure IndexCatalog Unit} (hkeeps : change.Keeps IndexCatalog.directory)
    (hchange : change catalog = (.ok (), next)) (hpending : catalog.Pending next collection [])
    (hsync : syncCollection collection next = (.ok (), last))
    (hstops : Stops (changeWrites collection change catalog) catalog.directory torn left) :
    Recovers catalog last torn left := by
  have hdirectory := hkeeps catalog
  rw [hchange] at hdirectory
  rw [changeWrites_eq hchange, ← hdirectory] at hstops
  exact recovers_syncs hsync (between_before h hclean) hpending hdirectory.symm hstops

end Changes

section Drops

/-- The indexes of a collection are dropped one after the other. -/
theorem recovers_drops (hok : names.forM dropIndex middle = (.ok (), after))
    (h : Between before after middle)
    (hstops : Stops (dropWrites names middle) middle.directory torn left) :
    Recovers before after torn left := by
  induction names generalizing middle with
  | nil =>
      cases hstops
      exact .inl ⟨middle, h, .refl _⟩
  | cons name rest ih =>
      obtain ⟨_, next, hfirst, hrest⟩ := Action.bind_eq_ok.mp hok
      obtain ⟨hfiled, hclean⟩ := h.filed.dropIndex h.clean hfirst
      rw [dropWrites, hfirst] at hstops
      obtain ⟨hname, -, -, rfl⟩ := dropIndex_eq_ok.mp hfirst
      rw [if_pos hname] at hstops
      have hdropped : Between before after ⟨(middle.directory.remove (metaPath name)).remove
          (treePath name), middle.indexes.remove name⟩ := by
        refine ⟨hfiled, hclean, fun other => ?_⟩
        by_cases hsame : name = other
        · subst hsame
          have hnone : (middle.indexes.remove name).get name = none := by
            rw [SortedMap.get_remove, if_pos rfl]
          exact .inr (hnone.trans (drops_keep hrest hnone).symm)
        · dsimp only
          rw [SortedMap.get_remove, if_neg hsame]
          exact h.each other
      cases hstops with
      | between => exact .inl ⟨middle, h, .refl _⟩
      | after stops =>
          cases stops with
          | between => exact .inl ⟨_, hdropped, spare_remove _ _⟩
          | after stops => exact ih hrest hdropped stops

end Drops

section Creation

variable {definition : IndexDefinition} {keys : List (Option IndexKey × NovaId)}

/-- A new index is there when its definition has been written. -/
theorem Filed.interruptedCreate (h : catalog.Filed) (hclean : catalog.Clean) {field : List String}
    {documents : List Document}
    (hok : IndexCatalog.createIndex name collection field documents catalog = (.ok (), last))
    (hstops : Stops (journal catalog (.createIndex name collection field documents))
      catalog.directory torn left) : Recovers catalog last torn left := by
  obtain ⟨hlastFiled, hlastClean⟩ := h.createIndex hclean hok
  obtain ⟨keys, new, filled, bytes, hkeys, habsent, hencode, hjournal, hfront⟩ :=
    createIndex_eq_ok hok
  simp only [prepareIndex, bind_eq_ok] at hkeys
  obtain ⟨_, hidentifier, _, -, _, hfield, -⟩ := hkeys
  -- Before the definition is written only the file of the new tree changes.
  have hspare : ∀ {torn left}, Stops (.put (treePath name) [] :: (new.writes (treePath name) ++
      filled.writes (treePath name))) catalog.directory torn left →
        Spare left catalog.directory := by
    intro torn left hstops path
    by_cases hpath : path = treePath name
    · subst hpath
      refine .inr ⟨?_, name, rfl⟩
      simpa [SortedMap.contains] using habsent
    · refine .inl (hstops.elsewhere fun operation hmem => ?_)
      rcases List.mem_cons.mp hmem with rfl | hmem
      · exact hpath
      rcases List.mem_append.mp hmem with hmem | hmem
      · rwa [BPlusTree.path_writes hmem]
      · rwa [BPlusTree.path_writes hmem]
  rw [hjournal] at hstops
  rcases hstops.append with hstops | hstops
  · exact .inl ⟨catalog, between_before h hclean, hspare hstops⟩
  · cases hstops with
    | between => exact .inl ⟨catalog, between_before h hclean, hspare .all⟩
    | within cut =>
        obtain ⟨hne, -⟩ := require_eq_ok.mp hidentifier
        obtain ⟨_, hsegments, -⟩ := bind_eq_ok.mp hfield
        exact .inr ⟨rfl, torn_definition hne (require_eq_ok.mp hsegments) hencode cut⟩
    | after stops =>
        cases stops
        rw [FileOp.apply, hfront]
        exact .inl ⟨_, ⟨hlastFiled, hlastClean, fun _ => .inr rfl⟩, .refl _⟩

end Creation

section Commands

/-- Every command that succeeds may be interrupted. -/
theorem Filed.interrupted (h : catalog.Filed) (hclean : catalog.Clean) {call : CatalogCall}
    (hcall : catalog.succeed call = some last)
    (hstops : Stops (journal catalog call) catalog.directory torn left) :
    Recovers catalog last torn left := by
  have hok : perform call catalog = (.ok (), last) := perform_eq_ok.mp hcall
  cases call with
  | createIndex name collection field documents => exact h.interruptedCreate hclean hok hstops
  | insertDocument collection document =>
      obtain ⟨next, hchange, hsync⟩ := insertDocument_eq_ok.mp hok
      exact h.interruptedChange hclean (keeps_insertKeys collection document) hchange
        (h.insertKeys hclean hchange) hsync hstops
  | replaceDocument collection old new =>
      obtain ⟨-, next, hchange, hsync⟩ := replaceDocument_eq_ok.mp hok
      exact h.interruptedChange hclean (keeps_replaceKeys collection old new) hchange
        (h.replaceKeys hclean hchange) hsync hstops
  | deleteDocument collection document =>
      obtain ⟨next, hchange, hsync⟩ := deleteDocument_eq_ok.mp hok
      exact h.interruptedChange hclean (keeps_deleteKeys collection document) hchange
        (h.deleteKeys hclean hchange) hsync hstops
  | dropIndex name =>
      have hdrop : [name].forM IndexCatalog.dropIndex catalog = (.ok (), last) :=
        Action.bind_eq_ok.mpr ⟨(), last, hok, rfl⟩
      exact recovers_drops hdrop (between_before h hclean) hstops
  | dropCollectionIndexes collection => exact recovers_drops hok (between_before h hclean) hstops

end Commands

end IndexCatalog

end NovaBase.Index
