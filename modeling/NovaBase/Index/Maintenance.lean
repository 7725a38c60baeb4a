import NovaBase.Index.Mirror

/-!
# The catalog keeps up with the documents

A command on the catalog rewrites the trees of one collection and then writes
their snapshots. The trees follow the documents whatever the snapshots do.
-/

namespace NovaBase.Index

open Lib Lib.Bytes

section Snapshots

theorem failsOnly_writeLen (length : Nat) : FailsOnly (· = sizeError) (writeLen length) :=
  (failsOnly_require _ sizeError).bind fun _ _ => failsOnly_ok _

theorem failsOnly_writeNumber (number : Nat) : FailsOnly (· = sizeError) (writeNumber number) :=
  (failsOnly_require _ sizeError).bind fun _ _ => failsOnly_ok _

theorem failsOnly_writeNumbers (numbers : List Nat) :
    FailsOnly (· = sizeError) (writeNumbers numbers) := by
  induction numbers with
  | nil => exact failsOnly_ok _
  | cons number rest ih =>
      exact (failsOnly_writeNumber number).bind fun _ _ => ih.bind fun _ _ => failsOnly_ok _

theorem failsOnly_encodeKey (key : IndexKey) : FailsOnly (· = sizeError) (encodeKey key) := by
  cases key with
  | string value => exact (failsOnly_writeLen _).bind fun _ _ => failsOnly_ok _
  | _ => exact failsOnly_ok _

theorem failsOnly_encodeKeys (keys : List IndexKey) :
    FailsOnly (· = sizeError) (encodeKeys keys) := by
  induction keys with
  | nil => exact failsOnly_ok _
  | cons key rest ih =>
      exact (failsOnly_encodeKey key).bind fun _ _ => ih.bind fun _ _ => failsOnly_ok _

theorem failsOnly_encodeEntries (entries : List LeafEntry) :
    FailsOnly (· = sizeError) (encodeEntries entries) := by
  induction entries with
  | nil => exact failsOnly_ok _
  | cons entry rest ih =>
      exact (failsOnly_encodeKey entry.1).bind fun _ _ => (failsOnly_writeLen _).bind fun _ _ =>
        ih.bind fun _ _ => failsOnly_ok _

theorem failsOnly_encodeNode (node : Node) : FailsOnly (· = sizeError) (encodeNode node) := by
  cases node with
  | leaf entries next =>
      have hnext : FailsOnly (· = sizeError)
          (next.elim (.ok (toBigEndian 8 noneNode)) writeNumber) := by
        cases next with
        | none => exact failsOnly_ok _
        | some number => exact failsOnly_writeNumber number
      exact hnext.bind fun _ _ => (failsOnly_writeLen _).bind fun _ _ =>
        (failsOnly_encodeEntries entries).bind fun _ _ => failsOnly_ok _
  | internal keys children =>
      exact (failsOnly_writeLen _).bind fun _ _ => (failsOnly_encodeKeys keys).bind fun _ _ =>
        (failsOnly_writeLen _).bind fun _ _ => (failsOnly_writeNumbers children).bind
          fun _ _ => failsOnly_ok _

theorem failsOnly_encodeNodes (nodes : List Node) :
    FailsOnly (· = sizeError) (encodeNodes nodes) := by
  induction nodes with
  | nil => exact failsOnly_ok _
  | cons node rest ih =>
      exact (failsOnly_encodeNode node).bind fun _ _ => ih.bind fun _ _ => failsOnly_ok _

/-- A snapshot can only be too large. -/
theorem failsOnly_encodeTree (maxKeys root : Nat) (nodes : List Node) :
    FailsOnly (· = sizeError) (encodeTree maxKeys root nodes) :=
  (failsOnly_writeLen _).bind fun _ _ => (failsOnly_writeNumber _).bind fun _ _ =>
    (failsOnly_writeNumber _).bind fun _ _ => (failsOnly_encodeNodes nodes).bind
      fun _ _ => failsOnly_ok _

/-- A valid tree has a snapshot unless one would be too large. -/
theorem BPlusTree.Stores.snapshot {tree : BPlusTree} {contents : Set (IndexKey × NovaId)}
    (h : tree.Stores contents) : FailsOnly Oversized tree.snapshot := by
  intro cause hcause
  rw [BPlusTree.snapshot, h.verify, ok_bind] at hcause
  cases hencode : encodeTree tree.maxKeys tree.root tree.nodes with
  | ok bytes => simp [hencode, Result.lift] at hcause
  | error found =>
      rw [hencode] at hcause
      obtain rfl := failsOnly_encodeTree _ _ _ _ hencode
      exact (Except.error.inj hcause).symm

/-- Writing a tree clears its mark. It fails only for its size, and then no file has changed. -/
theorem BPlusTree.Stores.sync {tree : BPlusTree} {contents : Set (IndexKey × NovaId)}
    (h : tree.Stores contents) {path : String} {directory : Directory}
    (hpath : directory.contains path) :
    (tree.sync path).Ends directory
      (fun tree' directory' => (∃ dirty, tree' = { tree with dirty }) ∧
        ∀ other, directory.contains other → directory'.contains other)
      (fun cause directory' => Oversized cause ∧ directory' = directory) := by
  rw [BPlusTree.sync]
  split
  · refine Action.Ends.bind (Q := fun _ directory' => directory' = directory) ?_ ?_
    · cases hsnapshot : tree.snapshot with
      | error cause => exact .inr ⟨cause, directory, rfl, h.snapshot cause hsnapshot, rfl⟩
      | ok bytes => exact .inl ⟨bytes, directory, rfl, rfl⟩
    · rintro bytes _ rfl
      refine .inl ⟨_, _, Action.bind_of_ok (Directory.overwrite_of_contains hpath), ⟨false, rfl⟩,
        fun other hother => ?_⟩
      exact (Directory.contains_insert ..).mpr (.inr hother)
  · exact .inl ⟨tree, directory, rfl, ⟨tree.dirty, rfl⟩, fun _ hother => hother⟩

end Snapshots

/-- The index with another note of whether its file is out of date. -/
def OpenIndex.setDirty (dirty : Bool) (index : OpenIndex) : OpenIndex :=
  { index with tree := { index.tree with dirty } }

/-- A catalog in which some snapshots have been written. -/
structure IndexCatalog.Resynced (catalog next : IndexCatalog) : Prop where
  files : ∀ path, catalog.directory.contains path → next.directory.contains path
  indexes : ∀ name, ∃ dirty,
    next.indexes.get name = (catalog.indexes.get name).map (OpenIndex.setDirty dirty)

/-- The definitions of a catalog, which most commands keep. -/
def IndexCatalog.Defines (catalog next : IndexCatalog) : Prop :=
  ∀ name, (next.indexes.get name).map OpenIndex.definition =
    (catalog.indexes.get name).map OpenIndex.definition

namespace IndexCatalog

variable {catalog next last : IndexCatalog} {documents : Documents} {collection name : String}

namespace Resynced

theorem refl (catalog : IndexCatalog) : catalog.Resynced catalog where
  files _ h := h
  indexes name := by
    cases hindex : catalog.indexes.get name with
    | none => exact ⟨false, rfl⟩
    | some index => exact ⟨index.tree.dirty, rfl⟩

theorem trans (hfirst : catalog.Resynced next) (hsecond : next.Resynced last) :
    catalog.Resynced last where
  files path h := hsecond.files path (hfirst.files path h)
  indexes name := by
    obtain ⟨first, hfirst⟩ := hfirst.indexes name
    obtain ⟨second, hsecond⟩ := hsecond.indexes name
    refine ⟨second, ?_⟩
    rw [hsecond, hfirst, Option.map_map]
    rfl

theorem defines (h : catalog.Resynced next) : catalog.Defines next := by
  intro name
  obtain ⟨dirty, hindex⟩ := h.indexes name
  rw [hindex, Option.map_map]
  rfl

end Resynced

theorem Defines.trans (hfirst : catalog.Defines next) (hsecond : next.Defines last) :
    catalog.Defines last :=
  fun name => (hsecond name).trans (hfirst name)

/-- Writing snapshots leaves the indexes in agreement with the documents. -/
theorem Mirrors.resynced (h : catalog.Mirrors documents) (hnext : catalog.Resynced next) :
    next.Mirrors documents := by
  have hold : ∀ {name index}, next.indexes.get name = some index → ∃ old dirty,
      catalog.indexes.get name = some old ∧ index = old.setDirty dirty := by
    intro name index hindex
    obtain ⟨dirty, hget⟩ := hnext.indexes name
    obtain ⟨old, hold, hsame⟩ := Option.map_eq_some_iff.mp (hget.symm.trans hindex)
    exact ⟨old, dirty, hold, hsame.symm⟩
  refine ⟨fun hindex => ?_, fun hindex => ?_, fun hindex => ?_⟩
  · obtain ⟨old, dirty, hget, rfl⟩ := hold hindex
    have hnamed := h.named hget
    exact hnamed
  · obtain ⟨old, dirty, hget, rfl⟩ := hold hindex
    exact ⟨hnext.files _ (h.files hget).1, hnext.files _ (h.files hget).2⟩
  · obtain ⟨old, dirty, hget, rfl⟩ := hold hindex
    obtain ⟨stored, hstored, hindexable, hstores⟩ := h.mirrored hget
    exact ⟨stored, hstored, hindexable, hstores.setDirty dirty⟩

/-- Writing an index changes no tree, and fails only for its size. -/
theorem Mirrors.syncIndex (h : catalog.Mirrors documents) (name : String) :
    (IndexCatalog.syncIndex name).Ends catalog (fun _ next => catalog.Resynced next)
      (fun cause next => Oversized cause ∧ catalog.Resynced next) := by
  cases hindex : catalog.indexes.get name with
  | none =>
      refine .inl ⟨(), catalog, ?_, .refl catalog⟩
      simp only [IndexCatalog.syncIndex, hindex]
  | some index =>
      obtain ⟨stored, -, hmirrors⟩ := h.mirrored hindex
      rcases hmirrors.stores.sync (h.files hindex).2 with
        ⟨tree, directory, hsync, ⟨dirty, rfl⟩, hfiles⟩ | ⟨cause, directory, hsync, hcause, rfl⟩
      · refine .inl ⟨(), _, by simp only [IndexCatalog.syncIndex, hindex, hsync]; rfl, hfiles,
          fun other => ?_⟩
        simp only [setTree, SortedMap.get_insert]
        split
        · rename_i hsame
          subst hsame
          exact ⟨dirty, by rw [hindex]; rfl⟩
        · exact (Resynced.refl catalog).indexes other
      · exact .inr ⟨cause, catalog, by simp only [IndexCatalog.syncIndex, hindex, hsync], hcause,
          .refl catalog⟩

/-- Writing the snapshots of a collection. -/
theorem Mirrors.syncCollection (h : catalog.Mirrors documents) (collection : String) :
    (IndexCatalog.syncCollection collection).Ends catalog (fun _ next => catalog.Resynced next)
      (fun cause next => Oversized cause ∧ catalog.Resynced next) := by
  refine Action.Ends.forM (I := fun _ next => catalog.Resynced next) (.refl catalog) ?_
  rintro done name rest middle - hmiddle
  refine ((h.resynced hmiddle).syncIndex name).weaken (fun _ _ => hmiddle.trans) ?_
  exact fun _ _ hfailed => ⟨hfailed.1, hmiddle.trans hfailed.2⟩

/-- The indexes of a collection, each found under its own name. -/
theorem Mirrors.mem_indexesOf (h : catalog.Mirrors documents) {index : OpenIndex} :
    index ∈ catalog.indexesOf collection ↔
      catalog.indexes.get index.definition.name = some index ∧
        index.definition.collection = collection := by
  simp only [indexesOf, SortedMap.values, List.mem_filter, List.mem_map, decide_eq_true_eq,
    Prod.exists, exists_eq_right]
  refine and_congr_left fun _ => ⟨?_, fun hget => ⟨_, catalog.indexes.mem_entries.mpr hget⟩⟩
  rintro ⟨name, hmem⟩
  have hget := catalog.indexes.mem_entries.mp hmem
  rw [h.named hget]
  exact hget

/-- The names of a collection are those of its indexes. -/
theorem Mirrors.mem_namesOf (h : catalog.Mirrors documents) : name ∈ catalog.namesOf collection ↔
    ∃ index, catalog.indexes.get name = some index ∧ index.definition.collection = collection := by
  constructor
  · intro hname
    obtain ⟨index, hindex, rfl⟩ := List.mem_map.mp hname
    exact ⟨index, h.mem_indexesOf.mp hindex⟩
  · rintro ⟨index, hindex, hcollection⟩
    obtain rfl := h.named hindex
    exact List.mem_map_of_mem (h.mem_indexesOf.mpr ⟨hindex, hcollection⟩)

theorem Mirrors.nodup_namesOf (h : catalog.Mirrors documents) (collection : String) :
    (catalog.namesOf collection).Nodup := by
  have hkeys : (catalog.indexes.entries.map fun entry => entry.2.definition.name) =
      catalog.indexes.entries.map Prod.fst := by
    refine List.map_congr_left fun entry hentry => ?_
    exact h.named (catalog.indexes.mem_entries.mp hentry)
  have hnodup : (catalog.indexes.values.map fun index => index.definition.name).Nodup := by
    rw [SortedMap.values, List.map_map]
    exact hkeys ▸ (List.pairwise_map.mpr catalog.indexes.sorted).imp ne_of_lt
  exact hnodup.sublist (List.filter_sublist.map _)

/-- One tree after another is changed. -/
theorem forM_updateTree {update : OpenIndex → BPlusTree → Partial BPlusTree}
    {R : OpenIndex → BPlusTree → Prop} {indexes : List OpenIndex}
    (hnodup : (indexes.map fun index => index.definition.name).Nodup)
    (hindexes : ∀ index ∈ indexes, catalog.indexes.get index.definition.name = some index)
    (hupdate : ∀ index ∈ indexes, ∃ tree, update index index.tree = .ok tree ∧ R index tree) :
    ∃ next, indexes.forM (fun index => updateTree index.definition.name (update index)) catalog =
        (.ok (), next) ∧ next.directory = catalog.directory ∧
      (∀ name, name ∉ indexes.map (fun index => index.definition.name) →
        next.indexes.get name = catalog.indexes.get name) ∧
      ∀ index ∈ indexes, ∃ tree, next.indexes.get index.definition.name =
        some { index with tree } ∧ R index tree := by
  induction indexes generalizing catalog with
  | nil => exact ⟨catalog, rfl, rfl, fun _ _ => rfl, by simp⟩
  | cons index rest ih =>
      obtain ⟨hnew, hrest⟩ := List.nodup_cons.mp hnodup
      obtain ⟨tree, htree, hR⟩ := hupdate index List.mem_cons_self
      have hfirst : updateTree index.definition.name (update index) catalog =
          (.ok (), catalog.setTree index.definition.name index tree) := by
        simp only [updateTree, hindexes index List.mem_cons_self, htree]
      have hothers : ∀ other ∈ rest, (catalog.setTree index.definition.name index tree).indexes.get
          other.definition.name = some other := by
        intro other hother
        have hne : index.definition.name ≠ other.definition.name := fun heq =>
          hnew (List.mem_map.mpr ⟨other, hother, heq.symm⟩)
        rw [setTree, SortedMap.get_insert, if_neg hne]
        exact hindexes other (List.mem_cons_of_mem _ hother)
      obtain ⟨next, hrun, hdirectory, hsame, hchanged⟩ := ih hrest hothers fun other hother =>
        hupdate other (List.mem_cons_of_mem _ hother)
      refine ⟨next, (Action.bind_of_ok hfirst).trans hrun, hdirectory, fun name hname => ?_,
        List.forall_mem_cons.mpr ⟨⟨tree, ?_, hR⟩, hchanged⟩⟩
      · rw [List.map_cons, List.mem_cons, not_or] at hname
        rw [hsame name hname.2, setTree, SortedMap.get_insert, if_neg (Ne.symm hname.1)]
      · rw [hsame _ hnew, setTree, SortedMap.get_insert, if_pos rfl]

/-- Changing the trees of a collection as its documents change. -/
theorem Mirrors.rewrite (h : catalog.Mirrors documents) {stored : NovaId → Option Document}
    {update : OpenIndex → BPlusTree → Partial BPlusTree}
    (hupdate : ∀ index ∈ catalog.indexesOf collection, ∃ tree,
      update index index.tree = .ok tree ∧ OpenIndex.Mirrors { index with tree } stored) :
    ∃ next, (catalog.indexesOf collection).forM
        (fun index => updateTree index.definition.name (update index)) catalog = (.ok (), next) ∧
      next.Mirrors (Function.update documents collection (some stored)) ∧
      catalog.Defines next := by
  obtain ⟨next, hrun, hdirectory, hsame, hchanged⟩ :=
    forM_updateTree (h.nodup_namesOf collection) (fun index hindex => (h.mem_indexesOf.mp hindex).1)
      hupdate
  have hnext : ∀ name, (∃ index tree, catalog.indexes.get name = some index ∧
      index.definition.collection = collection ∧
      next.indexes.get name = some { index with tree } ∧
      OpenIndex.Mirrors { index with tree } stored) ∨
      next.indexes.get name = catalog.indexes.get name ∧
        ∀ index, catalog.indexes.get name = some index →
          index.definition.collection ≠ collection := by
    intro name
    by_cases hname : name ∈ catalog.namesOf collection
    · obtain ⟨index, hindex, rfl⟩ := List.mem_map.mp hname
      obtain ⟨tree, hget, hmirrors⟩ := hchanged index hindex
      obtain ⟨hold, hcollection⟩ := h.mem_indexesOf.mp hindex
      exact .inl ⟨index, tree, hold, hcollection, hget, hmirrors⟩
    · refine .inr ⟨hsame name hname, fun index hindex hcollection => hname ?_⟩
      exact h.mem_namesOf.mpr ⟨index, hindex, hcollection⟩
  refine ⟨next, hrun, ⟨fun {name index} hget => ?_, fun {name index} hget => ?_,
    fun {name index} hget => ?_⟩, fun name => ?_⟩
  · rcases hnext name with ⟨old, tree, hold, -, hnew, -⟩ | ⟨hkept, -⟩
    · obtain rfl := Option.some.inj (hget.symm.trans hnew)
      have hnamed := h.named hold
      exact hnamed
    · exact h.named (hkept.symm.trans hget)
  · rw [hdirectory]
    rcases hnext name with ⟨old, tree, hold, -, -, -⟩ | ⟨hkept, -⟩
    · exact h.files hold
    · exact h.files (hkept.symm.trans hget)
  · rcases hnext name with ⟨old, tree, hold, hcollection, hnew, hmirrors⟩ | ⟨hkept, hother⟩
    · obtain rfl := Option.some.inj (hget.symm.trans hnew)
      exact ⟨stored, by rw [hcollection, Function.update_self], hmirrors⟩
    · have hold := hkept.symm.trans hget
      rw [Function.update_of_ne (hother index hold)]
      exact h.mirrored hold
  · rcases hnext name with ⟨old, tree, hold, -, hnew, -⟩ | ⟨hkept, -⟩
    · rw [hold, hnew]
      rfl
    · rw [hkept]

end IndexCatalog

end NovaBase.Index
