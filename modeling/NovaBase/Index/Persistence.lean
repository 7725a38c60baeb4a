import NovaBase.Index.CatalogFiles

/-!
# What the catalog persists it can reopen

The writer of snapshots accepts strings of up to four gibibytes, the reader only
of 16 mebibytes. An index with a longer key is written, and then keeps the whole
directory from being opened.
-/

namespace NovaBase.Index

open Lib Lib.Bytes

namespace IndexCatalog

/-- Opening the directory succeeds and gives the definitions and the lookups of the catalog. -/
def Reopens [CharacterTables] (catalog : IndexCatalog) : Prop :=
  ∃ opened, openDirectory catalog.directory = .ok opened ∧
    opened.definitions = catalog.definitions ∧
    ∀ name key, opened.lookup name key = catalog.lookup name key

end IndexCatalog

open IndexCatalog

section Documented

variable [CharacterTables]

theorem reopens_iff {calls : List CatalogCall} {catalog : IndexCatalog}
    (hrun : run succeed calls ⟨.empty, .empty⟩ = some catalog) :
    catalog.Reopens ↔ catalog.Short := by
  have hdecodes := decodes_openDirectory hrun
  constructor
  · rintro ⟨opened, hopen, -⟩
    by_contra hlong
    obtain ⟨cause, hcause⟩ := hdecodes.2 hlong
    rw [hopen] at hcause
    cases hcause
  · intro hshort
    exact ⟨catalog, hdecodes.1 hshort, rfl, fun _ _ => rfl⟩

/-- What a catalog persists it can reopen, exactly if no tree holds a string key of more bytes than
the reader of snapshots accepts. After any commands that succeed on an empty directory, opening the
directory succeeds with the same definitions and the same lookups if and only if this holds. -/
theorem persisted_reopens_iff (calls : List CatalogCall) (catalog : IndexCatalog)
    (hrun : run succeed calls ⟨.empty, .empty⟩ = some catalog) :
    catalog.Reopens ↔ ∀ name index, catalog.indexes.get name = some index →
      ∀ node ∈ index.tree.nodes, ∀ key ∈ node.keys, key.Short :=
  reopens_iff hrun

end Documented

section Persisted

/-- A document with one field. -/
def namedDocument (value : String) : Document := ⟨.filled 1, [("name", .string value)]⟩

/-- The index of that document is created. -/
def createNames (value : String) : CatalogCall :=
  .createIndex "by_name" "students" ["name"] [namedDocument value]

/-- The tree of that index. -/
def namesTree (value : String) : BPlusTree :=
  ⟨31, 0, [.leaf [(.string value, [.filled 1])] none], false⟩

theorem length_utf8_replicate (count : Nat) (c : Char) :
    (utf8 (String.ofList (List.replicate count c))).length = count * c.utf8Size := by
  have hbytes : utf8 (String.ofList (List.replicate count c)) =
      (List.replicate count c).flatMap String.utf8EncodeChar := by
    simp [utf8, List.utf8Encode]
  rw [hbytes, List.length_flatMap]
  simp [String.length_utf8EncodeChar]

/-- The index of the document can be created. -/
theorem prepareIndex_names (value : String) :
    let _ := CharacterTables.ascii
    (⟨.empty, .empty⟩ : IndexCatalog).prepareIndex ⟨"by_name", "students", ["name"]⟩
      [namedDocument value] = .ok [(some (.string value), .filled 1)] := by
  intro tables
  have hkey : documentKey ⟨"by_name", "students", ["name"]⟩ (namedDocument value) =
      .ok (some (.string value)) := rfl
  have hname : validateIdentifier "by_name" "index" = .ok () := by decide
  have hcollection : validateIdentifier "students" "collection" = .ok () := by decide
  have hfield : validateField ["name"] = .ok () := by decide
  have habsent : (SortedMap.empty : SortedMap String OpenIndex).contains "by_name" = false := rfl
  simp only [prepareIndex, hname, hcollection, hfield, require_of _ habsent, documentKeys, hkey,
    ok_bind]
  rfl

/-- Its tree can be written. -/
theorem encodes_namesTree {value : String} (hvalue : (utf8 value).length ≤ u32Max) :
    ∃ bytes, encodeTree 31 0 (namesTree value).nodes = .ok bytes := by
  have hlength := writeLen_eq_ok.mpr ⟨hvalue, rfl⟩
  have hone : writeLen 1 = .ok (toBigEndian 4 1) := rfl
  simp only [namesTree, encodeTree, encodeNodes, encodeNode, encodeEntries, encodeKey, hlength,
    List.length_singleton, hone, Option.elim_none, ok_bind, pure_eq_ok]
  exact ⟨_, rfl⟩

/-- Filling the index writes the tree, and then its definition. -/
theorem fillIndex_names {value : String} {created written : Directory}
    (hfill : backfill [(some (.string value), .filled 1)] ⟨31, 0, [.leaf [] none], false⟩ =
      .ok { namesTree value with dirty := true })
    (hsync : ({ namesTree value with dirty := true } : BPlusTree).sync
      (treePath "by_name") created = (.ok (namesTree value), written))
    (hmeta : written.contains (metaPath "by_name") = false) :
    ∃ last, fillIndex ⟨"by_name", "students", ["name"]⟩ [(some (.string value), .filled 1)]
      ⟨31, 0, [.leaf [] none], false⟩ created = (.ok (namesTree value), last) := by
  obtain ⟨described, hdescribe⟩ : ∃ bytes,
      encodeDefinition ⟨"by_name", "students", ["name"]⟩ = .ok bytes := by
    simp only [encodeDefinition, writeText, writeTexts]
    exact ⟨_, rfl⟩
  have hdefinition : writeDefinition (metaPath "by_name") ⟨"by_name", "students", ["name"]⟩
      written = (.ok (), written.insert (metaPath "by_name") described) := by
    have hbytes : (Action.ofExcept (encodeDefinition ⟨"by_name", "students", ["name"]⟩).lift :
        Action Failure Directory Bytes) written = (.ok described, written) := by
      rw [hdescribe]
      rfl
    exact (Action.bind_of_ok hbytes).trans
      (Directory.createNew_of_not_contains (by simp [hmeta]))
  have hfirst : (Action.ofExcept (backfill [(some (.string value), .filled 1)]
      ⟨31, 0, [.leaf [] none], false⟩) : Action Failure Directory BPlusTree) created =
      (.ok { namesTree value with dirty := true }, created) := by
    rw [hfill]
    rfl
  exact ⟨_, (Action.bind_of_ok hfirst).trans
    ((Action.bind_of_ok hsync).trans (Action.bind_of_ok hdefinition))⟩

/-- The index is created, whatever the string. -/
theorem succeed_createNames {value : String} (hvalue : (utf8 value).length ≤ u32Max) :
    let _ := CharacterTables.ascii
    ∃ catalog, run succeed [createNames value] ⟨.empty, .empty⟩ = some catalog ∧
      catalog.indexes = SortedMap.empty.insert "by_name"
        ⟨⟨"by_name", "students", ["name"]⟩, namesTree value⟩ := by
  intro tables
  obtain ⟨created, hcreate⟩ : ∃ directory, BPlusTree.createFile (treePath "by_name") .empty =
      (.ok ⟨31, 0, [.leaf [] none], false⟩, directory) :=
    ⟨_, Prod.ext (by decide +kernel) rfl⟩
  obtain ⟨hsaved, hstores, -, hothers⟩ := BPlusTree.saved_createFileWithMaxKeys hcreate
  have hfill : backfill [(some (.string value), .filled 1)] ⟨31, 0, [.leaf [] none], false⟩ =
      .ok { namesTree value with dirty := true } := rfl
  obtain ⟨hvalid, hmarked⟩ := marks_backfill _ hsaved.valid hfill
  rcases (hsaved.changed hvalid hmarked).sync with ⟨tree, written, hsync, rfl, -, hframe⟩ |
    ⟨cause, written, -, -, -, herror⟩
  · have hmeta : written.contains (metaPath "by_name") = false := by
      rw [SortedMap.contains, hframe _ (metaPath_ne_treePath _ _),
        hothers _ (metaPath_ne_treePath _ _)]
      rfl
    obtain ⟨last, hfilled⟩ := fillIndex_names hfill hsync hmeta
    have hperform : perform (createNames value) ⟨.empty, .empty⟩ = (.ok (),
        ⟨last, SortedMap.empty.insert "by_name"
          ⟨⟨"by_name", "students", ["name"]⟩, namesTree value⟩⟩) := by
      have hread : (Action.reads fun catalog : IndexCatalog => (catalog.prepareIndex
          ⟨"by_name", "students", ["name"]⟩ [namedDocument value]).lift :
          Action Failure IndexCatalog _) ⟨.empty, .empty⟩ =
          (.ok [(some (.string value), .filled 1)], ⟨.empty, .empty⟩) := by
        rw [Action.reads_apply, prepareIndex_names]
        rfl
      have hfile : onDirectory (BPlusTree.createFile (treePath "by_name")) ⟨.empty, .empty⟩ =
          (.ok ⟨31, 0, [.leaf [] none], false⟩, ⟨created, .empty⟩) := by
        simp only [onDirectory, Action.zoom, hcreate]
      refine (Action.bind_of_ok hread).trans ((Action.bind_of_ok hfile).trans ?_)
      simp only [hfilled]
    exact ⟨_, run_cons.mpr ⟨_, by rw [succeed, hperform], run_nil _⟩, rfl⟩
  · have hsame : encodeTree 31 0 (namesTree value).nodes = .error sizeError := herror
    obtain ⟨bytes, hencode⟩ := encodes_namesTree hvalue
    rw [hencode] at hsame
    cases hsame

/-- A string of one byte more than the reader of snapshots accepts. -/
def longString : String := String.ofList (List.replicate (maxStringBytes + 1) 'a')

theorem long_string_prevents_reopening :
    let _ := CharacterTables.ascii
    ¬∀ calls catalog, run succeed calls ⟨.empty, .empty⟩ = some catalog → catalog.Reopens := by
  intro tables hreopens
  have hlength : (utf8 longString).length = maxStringBytes + 1 := by
    rw [longString, length_utf8_replicate]
    decide
  obtain ⟨catalog, hrun, hindexes⟩ :=
    @succeed_createNames longString (by rw [hlength]; decide)
  have hshort := (reopens_iff hrun).mp (hreopens _ _ hrun)
  have hindex : catalog.indexes.get "by_name" =
      some ⟨⟨"by_name", "students", ["name"]⟩, namesTree longString⟩ := by
    rw [hindexes, SortedMap.get_insert, if_pos rfl]
  have hkey : (utf8 longString).length ≤ maxStringBytes :=
    hshort "by_name" _ hindex _ List.mem_cons_self _ List.mem_cons_self
  omega

theorem persisted_reopens_iff_short :
    let _ := CharacterTables.ascii
    ∃ catalog, run succeed [createNames "Ada"] ⟨.empty, .empty⟩ = some catalog ∧
      catalog.Reopens := by
  intro tables
  obtain ⟨catalog, hrun, hindexes⟩ := @succeed_createNames "Ada" (by decide)
  refine ⟨catalog, hrun, (persisted_reopens_iff _ catalog hrun).mpr ?_⟩
  intro name index hindex
  rw [hindexes] at hindex
  rcases SortedMap.get_insert_eq_some.mp hindex with ⟨-, rfl⟩ | ⟨-, hnone⟩
  · decide +kernel
  · cases hnone

end Persisted

end NovaBase.Index
