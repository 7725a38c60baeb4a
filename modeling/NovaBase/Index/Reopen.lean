import NovaBase.Index.Metadata
import NovaBase.Index.TreeFile

/-!
# Opening the catalog again

The files of a catalog are the definitions and the snapshots of its indexes, and
no others. While every snapshot is that of the tree in memory, the catalog can be
opened again exactly when no tree holds a string key that the reader of snapshots
rejects.
-/

namespace NovaBase.Index

open Lib Lib.Bytes

/-- A file name with the extension `meta`. The name `.meta` has no extension. -/
def isMetaFile (path : String) : Bool := ".meta".toList.isSuffixOf path.toList && path != ".meta"

/-- The definition in a metadata file. -/
def readDefinition (path : String) (directory : Directory) : Result IndexDefinition :=
  match directory.get path with
  | none => .error .io
  | some bytes => decodeDefinition bytes

namespace IndexCatalog

variable [CharacterTables]

/-- Open the index that a metadata file describes. -/
def openIndex (directory : Directory) (path : String) (indexes : SortedMap String OpenIndex) :
    Partial (SortedMap String OpenIndex) := do
  let definition ← (readDefinition path directory).lift
  (validateIdentifier definition.name "index").lift
  (validateIdentifier definition.collection "collection").lift
  (validateField definition.field).lift
  let tree ← BPlusTree.openFile (treePath definition.name) directory
  check (indexes.contains definition.name = false) "duplicate index definition"
  return indexes.insert definition.name ⟨definition, tree⟩

/-- Open the indexes at these paths one after the other, up to the first that is refused. -/
def openIndexes (directory : Directory) :
    List String → SortedMap String OpenIndex → Partial (SortedMap String OpenIndex)
  | [], indexes => return indexes
  | path :: rest, indexes => do
      let indexes ← openIndex directory path indexes
      openIndexes directory rest indexes

/-- Open all indexes of a directory, in the order of their metadata files. -/
def openDirectory (directory : Directory) : Partial IndexCatalog := do
  let indexes ← openIndexes directory (directory.keys.filter isMetaFile) .empty
  return ⟨directory, indexes⟩

end IndexCatalog

section Paths

theorem metaPath_injective : Function.Injective metaPath := by
  intro a b h
  have hlists := congrArg String.toList h
  simp only [metaPath, String.toList_append] at hlists
  exact String.toList_injective (List.append_cancel_right hlists)

theorem treePath_injective : Function.Injective treePath := by
  intro a b h
  have hlists := congrArg String.toList h
  simp only [treePath, String.toList_append] at hlists
  exact String.toList_injective (List.append_cancel_right hlists)

theorem metaPath_ne_treePath (a b : String) : metaPath a ≠ treePath b := by
  intro h
  have hlists := congrArg (fun path => path.toList.getLast?) h
  have hmeta : ".meta".toList = ['.', 'm', 'e', 't', 'a'] := by decide
  have hnvix : ".nvix".toList = ['.', 'n', 'v', 'i', 'x'] := by decide
  simp [metaPath, treePath, String.toList_append, hmeta, hnvix] at hlists

theorem isMetaFile_metaPath {name : String} (hname : name ≠ "") :
    isMetaFile (metaPath name) = true := by
  have hsuffix : ".meta".toList <:+ (metaPath name).toList := by
    rw [metaPath, String.toList_append]
    exact List.suffix_append _ _
  have hne : metaPath name ≠ ".meta" := by
    intro h
    have hempty : metaPath name = metaPath "" := h
    exact hname (metaPath_injective hempty)
  rw [isMetaFile, List.isSuffixOf_iff_suffix.mpr hsuffix]
  simpa using hne

theorem isMetaFile_treePath (name : String) : isMetaFile (treePath name) = false := by
  rw [isMetaFile, Bool.and_eq_false_iff]
  left
  rw [Bool.eq_false_iff, Ne, List.isSuffixOf_iff_suffix]
  rintro ⟨front, hfront⟩
  apply metaPath_ne_treePath (String.ofList front) name
  apply String.toList_injective
  rw [metaPath, String.toList_append, String.toList_ofList, hfront]

end Paths

/-- An open index, with its files. -/
structure OpenIndex.Filed [CharacterTables] (index : OpenIndex) (name : String)
    (directory : Directory) : Prop where
  named : index.definition.name = name
  identifier : validateIdentifier name "index" = .ok ()
  collection : validateIdentifier index.definition.collection "collection" = .ok ()
  field : validateField index.definition.field = .ok ()
  described : ∃ bytes, directory.get (metaPath name) = some bytes ∧
    encodeDefinition index.definition = .ok bytes
  saved : index.tree.Saved (treePath name) directory

/-- The files of the directory are those of the indexes. -/
structure IndexCatalog.Filed [CharacterTables] (catalog : IndexCatalog) : Prop where
  indexes : ∀ {name index}, catalog.indexes.get name = some index →
    index.Filed name catalog.directory
  files : ∀ {path}, catalog.directory.contains path →
    ∃ name, catalog.indexes.contains name ∧ (path = metaPath name ∨ path = treePath name)

/-- No tree has changed since it was written. -/
def IndexCatalog.Clean (catalog : IndexCatalog) : Prop :=
  ∀ name index, catalog.indexes.get name = some index → index.tree.dirty = false

/-- No tree of the catalog has a long string key. -/
def IndexCatalog.Short (catalog : IndexCatalog) : Prop :=
  ∀ name index, catalog.indexes.get name = some index → index.tree.Short

section Opening

variable [CharacterTables] {directory : Directory} {indexes : SortedMap String OpenIndex}
  {index : OpenIndex} {name : String} {catalog : IndexCatalog}

theorem OpenIndex.Filed.name_ne_empty (h : index.Filed name directory) : name ≠ "" :=
  (require_eq_ok.mp h.identifier).1

/-- The definition of a filed index is read back. -/
theorem OpenIndex.Filed.readDefinition (h : index.Filed name directory) :
    readDefinition (metaPath name) directory = .ok index.definition := by
  obtain ⟨bytes, hfile, hencode⟩ := h.described
  have hfield : index.definition.field ≠ [] := by
    obtain ⟨_, hfield, -⟩ := bind_eq_ok.mp h.field
    exact require_eq_ok.mp hfield
  rw [Index.readDefinition, hfile]
  exact decodeDefinition_encodeDefinition hfield hencode

/-- An index whose tree is written is opened exactly when its string keys are short. -/
theorem OpenIndex.Filed.openIndex (h : index.Filed name directory)
    (hclean : index.tree.dirty = false) (hfresh : indexes.get name = none) :
    Decodes (IndexCatalog.openIndex directory (metaPath name) indexes) (indexes.insert name index)
      index.tree.Short := by
  have hopen : Decodes (BPlusTree.openFile (treePath name) directory) index.tree index.tree.Short :=
    h.saved.openFile hclean
  have habsent : indexes.contains name = false := by
    rw [SortedMap.contains, hfresh]
    rfl
  rw [IndexCatalog.openIndex, h.readDefinition]
  simp only [Result.lift, ok_bind, h.named, h.identifier, h.collection, h.field]
  apply Decodes.congr (hopen.bind (q := True) (.of_ok ?_)) (and_iff_left trivial)
  simp only [check_of habsent, ok_bind, pure_eq_ok]

namespace IndexCatalog

/-- The loop over metadata files adds their indexes. -/
theorem Filed.openIndexes (h : catalog.Filed) (hclean : catalog.Clean) {paths : List String}
    (hnodup : paths.Nodup)
    (hpaths : ∀ path ∈ paths, ∃ name index, path = metaPath name ∧
      catalog.indexes.get name = some index)
    (indexes : SortedMap String OpenIndex)
    (hfresh : ∀ name, metaPath name ∈ paths → indexes.get name = none) :
    ∃ result, Decodes (openIndexes catalog.directory paths indexes) result
        (∀ name index, metaPath name ∈ paths → catalog.indexes.get name = some index →
          index.tree.Short) ∧
      ∀ name, result.get name =
        if metaPath name ∈ paths then catalog.indexes.get name else indexes.get name := by
  induction paths generalizing indexes with
  | nil => exact ⟨indexes, (Decodes.of_ok rfl).congr (by simp), by simp⟩
  | cons path rest ih =>
      obtain ⟨hnew, hrest⟩ := List.nodup_cons.mp hnodup
      obtain ⟨name, index, rfl, hindex⟩ := hpaths path List.mem_cons_self
      have hother : ∀ other, metaPath other ∈ rest →
          (indexes.insert name index).get other = none := by
        intro other hmem
        have hne : name ≠ other := by
          rintro rfl
          exact hnew hmem
        rw [SortedMap.get_insert, if_neg hne]
        exact hfresh other (List.mem_cons_of_mem _ hmem)
      obtain ⟨result, hdecodes, hresult⟩ :=
        ih hrest (fun path hpath => hpaths path (List.mem_cons_of_mem _ hpath)) _ hother
      refine ⟨result, ?_, fun other => ?_⟩
      · have hfirst : Decodes (openIndex catalog.directory (metaPath name) indexes)
            (indexes.insert name index) index.tree.Short :=
          (h.indexes hindex).openIndex (hclean name index hindex) (hfresh name List.mem_cons_self)
        refine (hfirst.bind hdecodes).congr ?_
        constructor
        · rintro ⟨hshort, hothers⟩ other found hmem hfound
          rcases List.mem_cons.mp hmem with hsame | hmem
          · obtain rfl := metaPath_injective hsame
            obtain rfl := Option.some.inj (hindex.symm.trans hfound)
            exact hshort
          · exact hothers other found hmem hfound
        · intro hall
          exact ⟨hall name index List.mem_cons_self hindex,
            fun other found hmem => hall other found (List.mem_cons_of_mem _ hmem)⟩
      · rw [hresult, SortedMap.get_insert]
        by_cases hmem : metaPath other ∈ rest
        · rw [if_pos hmem, if_pos (List.mem_cons_of_mem _ hmem)]
        · rw [if_neg hmem]
          by_cases hsame : name = other
          · subst hsame
            rw [if_pos rfl, if_pos List.mem_cons_self, hindex]
          · have hnone : metaPath other ∉ metaPath name :: rest := by
              rw [List.mem_cons, not_or]
              exact ⟨fun heq => hsame (metaPath_injective heq).symm, hmem⟩
            rw [if_neg hsame, if_neg hnone]

/-- The definitions in the directory are those of the indexes. -/
theorem Filed.mem_metaFiles (h : catalog.Filed) {path : String} :
    path ∈ catalog.directory.keys.filter isMetaFile ↔
      ∃ name index, path = metaPath name ∧ catalog.indexes.get name = some index := by
  have hkeys : path ∈ catalog.directory.keys ↔ catalog.directory.contains path := by
    rw [SortedMap.contains, Option.isSome_iff_exists]
    simp only [SortedMap.keys, List.mem_map, Prod.exists, exists_and_right, exists_eq_right,
      SortedMap.mem_entries]
  rw [List.mem_filter, hkeys]
  constructor
  · rintro ⟨hcontains, hmeta⟩
    obtain ⟨name, hname, rfl | rfl⟩ := h.files hcontains
    · obtain ⟨index, hindex⟩ := Option.isSome_iff_exists.mp hname
      exact ⟨name, index, rfl, hindex⟩
    · rw [isMetaFile_treePath] at hmeta
      cases hmeta
  · rintro ⟨name, index, rfl, hindex⟩
    have hfiled := h.indexes hindex
    obtain ⟨bytes, hfile, -⟩ := hfiled.described
    refine ⟨?_, isMetaFile_metaPath hfiled.name_ne_empty⟩
    rw [SortedMap.contains, hfile]
    rfl

/-- Opening the directory gives the catalog again, exactly when its string keys are short. -/
theorem Filed.openDirectory (h : catalog.Filed) (hclean : catalog.Clean) :
    Decodes (openDirectory catalog.directory) catalog catalog.Short := by
  have hnodup : (catalog.directory.keys.filter isMetaFile).Nodup := by
    apply List.Nodup.filter
    exact (List.pairwise_map.mpr catalog.directory.sorted).imp ne_of_lt
  obtain ⟨result, hdecodes, hresult⟩ := h.openIndexes hclean hnodup
    (fun path hpath => h.mem_metaFiles.mp hpath) .empty (fun _ _ => rfl)
  have hsame : result = catalog.indexes := by
    ext name index
    rw [hresult]
    split
    · rfl
    · rename_i habsent
      have hnone : catalog.indexes.get name = none := by
        by_contra hsome
        obtain ⟨index, hindex⟩ := Option.ne_none_iff_exists'.mp hsome
        exact habsent (h.mem_metaFiles.mpr ⟨name, index, rfl, hindex⟩)
      rw [hnone]
      rfl
  subst hsame
  apply Decodes.congr (p := _ ∧ True)
  · exact hdecodes.bind (.of_ok rfl)
  rw [and_iff_left trivial]
  constructor
  · intro hall name index hindex
    exact hall name index (h.mem_metaFiles.mpr ⟨name, index, rfl, hindex⟩) hindex
  · intro hshort name index _ hindex
    exact hshort name index hindex

end IndexCatalog

end Opening

end NovaBase.Index
