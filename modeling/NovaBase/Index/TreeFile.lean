import NovaBase.Index.Maintenance
import NovaBase.Index.SnapshotRoundTrip

/-!
# The file of a tree

A tree is written to its file whole. While it has not changed since, the file
holds its snapshot, and opening the file gives the tree again if its string keys
are short.
-/

namespace NovaBase.Index

open Lib Lib.Bytes

namespace BPlusTree

/-- A new tree of the given capacity in a new file. -/
def createFileWithMaxKeys (path : String) (maxKeys : Nat) :
    Action Failure Directory BPlusTree := do
  let tree ← Action.ofExcept (createWithMaxKeys maxKeys).lift
  Directory.createNew path (.alreadyExists s!"index file {path}") []
  tree.sync path

/-- Open and verify the tree in a file. -/
def openFile (path : String) (directory : Directory) : Partial BPlusTree :=
  match directory.get path with
  | none => .error (.error .io)
  | some bytes => openBytes bytes

/-- All string keys of the tree are short. -/
def Short (tree : BPlusTree) : Prop := ∀ node ∈ tree.nodes, ∀ key ∈ node.keys, key.Short

/-- The nodes and the ids of the tree can be counted in four bytes. -/
def Countable (tree : BPlusTree) : Prop :=
  tree.nodes.length ≤ u32Max ∧ ∀ node ∈ tree.nodes, node.Countable

instance Short.decidable : DecidablePred Short :=
  fun tree => inferInstanceAs (Decidable (∀ node ∈ tree.nodes, ∀ key ∈ node.keys, key.Short))

instance Countable.decidable : DecidablePred Countable :=
  fun tree => inferInstanceAs
    (Decidable (tree.nodes.length ≤ u32Max ∧ ∀ node ∈ tree.nodes, node.Countable))

/-- A tree that has been written. -/
def clean (tree : BPlusTree) : BPlusTree := { tree with dirty := false }

/-- A valid tree with a file, which holds its snapshot unless the tree has changed since. -/
structure Saved (path : String) (directory : Directory) (tree : BPlusTree) : Prop where
  valid : ∃ contents, tree.Stores contents
  present : directory.contains path
  current : tree.dirty = false → ∃ bytes, directory.get path = some bytes ∧
    encodeTree tree.maxKeys tree.root tree.nodes = .ok bytes

section Files

variable {path : String} {directory : Directory} {tree : BPlusTree}

theorem Saved.verify (h : Saved path directory tree) : tree.verify = .ok () := by
  obtain ⟨contents, hstores⟩ := h.valid
  exact hstores.verify

/-- A tree that has not changed is opened again exactly when its string keys are short. -/
theorem Saved.openFile (h : Saved path directory tree) (hclean : tree.dirty = false) :
    Decodes (openFile path directory) tree tree.Short := by
  obtain ⟨bytes, hfile, hencode⟩ := h.current hclean
  obtain ⟨hmax, hroot, hvalid⟩ := valid_of_verify h.verify
  have hne : tree.nodes ≠ [] := List.ne_nil_of_length_pos (Nat.zero_lt_of_lt hroot)
  have hdecode := decodes_encodeTree hmax hne hvalid hencode
  have htree : (⟨tree.maxKeys, tree.root, tree.nodes, false⟩ : BPlusTree) = tree := by
    rw [← hclean]
  rw [BPlusTree.openFile, hfile]
  constructor
  · intro hshort
    simp only [openBytes, hdecode.1 hshort, Result.lift, ok_bind, htree, h.verify, pure_eq_ok]
  · intro hlong
    obtain ⟨cause, hcause⟩ := hdecode.2 hlong
    exact ⟨.error cause, by simp only [openBytes, hcause, Result.lift, error_bind]⟩

/-- Writing a tree saves it, unless a size cannot be represented. -/
theorem Saved.sync (h : Saved path directory tree) :
    (tree.sync path).Ends directory
      (fun tree' directory' => tree' = tree.clean ∧ Saved path directory' tree.clean ∧
        ∀ other, other ≠ path → directory'.get other = directory.get other)
      (fun cause directory' => directory' = directory ∧ cause = .error sizeError ∧
        encodeTree tree.maxKeys tree.root tree.nodes = .error sizeError) := by
  obtain ⟨contents, hstores⟩ := h.valid
  have hclean : tree.clean.Stores contents := hstores.setDirty false
  rw [BPlusTree.sync]
  split
  · cases hencode : encodeTree tree.maxKeys tree.root tree.nodes with
    | error cause =>
        obtain rfl := failsOnly_encodeTree _ _ _ cause hencode
        have hsnapshot : tree.snapshot = .error (.error sizeError) := by
          rw [snapshot, h.verify, ok_bind, hencode]
          rfl
        refine .inr ⟨.error sizeError, directory, ?_, rfl, rfl, rfl⟩
        apply Action.bind_of_error
        rw [hsnapshot]
        rfl
    | ok bytes =>
        have hsnapshot : tree.snapshot = .ok bytes := by
          rw [snapshot, h.verify, ok_bind, hencode]
          rfl
        refine .inl ⟨tree.clean, directory.insert path bytes, ?_, rfl, ?_, ?_⟩
        · have hfirst : (Action.ofExcept tree.snapshot : Action Failure Directory Bytes) directory =
              (.ok bytes, directory) := by
            rw [hsnapshot]
            rfl
          exact (Action.bind_of_ok hfirst).trans
            (Action.bind_of_ok (Directory.overwrite_of_contains h.present))
        · refine ⟨⟨contents, hclean⟩, ?_, fun _ => ⟨bytes, ?_, hencode⟩⟩
          · exact (Directory.contains_insert ..).mpr (.inl rfl)
          · rw [SortedMap.get_insert, if_pos rfl]
        · intro other hother
          rw [SortedMap.get_insert, if_neg hother.symm]
  · rename_i hdirty
    have hsame : tree.clean = tree := by
      have hdirty : tree.dirty = false := by simpa using hdirty
      rw [clean, ← hdirty]
    refine .inl ⟨tree, directory, rfl, hsame.symm, hsame.symm ▸ h, fun _ _ => rfl⟩

/-- A new tree is saved. -/
theorem saved_createFileWithMaxKeys {maxKeys : Nat} {start : Directory}
    (h : createFileWithMaxKeys path maxKeys start = (.ok tree, directory)) :
    Saved path directory tree ∧ tree.Stores ∅ ∧ start.contains path = false ∧
      ∀ other, other ≠ path → directory.get other = start.get other := by
  simp only [createFileWithMaxKeys] at h
  cases hcreate : createWithMaxKeys maxKeys with
  | error cause =>
      have hfails : (Action.ofExcept (createWithMaxKeys maxKeys).lift :
          Action Failure Directory BPlusTree) start = (.error (.error cause), start) := by
        rw [hcreate]
        rfl
      rw [Action.bind_of_error hfails] at h
      simp at h
  | ok new =>
      have hnew : (Action.ofExcept (createWithMaxKeys maxKeys).lift :
          Action Failure Directory BPlusTree) start = (.ok new, start) := by
        rw [hcreate]
        rfl
      rw [Action.bind_of_ok hnew] at h
      by_cases hpath : start.contains path = true
      · have hexists : Directory.createNew path (.alreadyExists s!"index file {path}") [] start =
            (.error (.error (.alreadyExists s!"index file {path}")), start) := if_pos hpath
        rw [Action.bind_of_error hexists] at h
        simp at h
      · rw [Action.bind_of_ok (Directory.createNew_of_not_contains hpath)] at h
        have hstores := stores_createWithMaxKeys hcreate
        have hdirty : new.dirty = true := by
          obtain ⟨u, -, hnew⟩ := bind_eq_ok.mp hcreate
          cases hnew
          rfl
        have hsaved : Saved path (start.insert path []) new := by
          refine ⟨⟨∅, hstores⟩, (Directory.contains_insert ..).mpr (.inl rfl), fun hclean => ?_⟩
          simp [hdirty] at hclean
        rcases hsaved.sync with ⟨synced, last, hsync, rfl, hlast, hothers⟩ | ⟨cause, last, hsync, -⟩
        · obtain ⟨htree, rfl⟩ := Prod.mk.inj (hsync.symm.trans h)
          obtain rfl := Except.ok.inj htree
          refine ⟨hlast, hstores.setDirty false, by simpa using hpath, fun other hother => ?_⟩
          rw [hothers other hother, SortedMap.get_insert, if_neg hother.symm]
        · cases hsync.symm.trans h

end Files

end BPlusTree

/-- What can be done with a tree that has a file. -/
inductive TreeCall
  | change (call : Call)
  | sync

namespace BPlusTree

/-- Perform a call. A tree that could not be written stays as it was. -/
def perform (path : String) (state : BPlusTree × Directory) :
    TreeCall → Partial (BPlusTree × Directory)
  | .change call => do
      let tree ← state.1.apply call
      return (tree, state.2)
  | .sync =>
      match state.1.sync path state.2 with
      | (.ok tree, directory) => .ok (tree, directory)
      | (.error _, directory) => .ok (state.1, directory)

section Sessions

variable {path : String} {directory : Directory} {tree : BPlusTree}

theorem insert_dirty {key : IndexKey} {id : NovaId} {tree' : BPlusTree}
    (h : tree.insert key id = .ok tree') : tree'.dirty = true := by
  simp only [insert, bind_eq_ok] at h
  obtain ⟨⟨nodes, split⟩, -, h⟩ := h
  cases split with
  | none =>
      obtain rfl := Except.ok.inj h
      rfl
  | some added =>
      obtain rfl := Except.ok.inj h
      rfl

/-- A removal that finds nothing leaves the tree alone. -/
theorem remove_dirty {key : IndexKey} {id : NovaId} {removed : Bool} {tree' : BPlusTree}
    (h : tree.remove key id = .ok (removed, tree')) : tree' = tree ∨ tree'.dirty = true := by
  simp only [remove, bind_eq_ok] at h
  obtain ⟨leaf, -, node, -, h⟩ := h
  cases node with
  | internal keys children => cases h
  | leaf entries next =>
      simp only [bind_eq_ok] at h
      obtain ⟨removal, -, h⟩ := h
      cases removal with
      | none =>
          obtain ⟨-, rfl⟩ := Prod.mk.inj (Except.ok.inj h)
          exact .inl rfl
      | some entries =>
          obtain ⟨-, rfl⟩ := Prod.mk.inj (Except.ok.inj h)
          exact .inr rfl

/-- A change of a valid tree marks it, or changes nothing. -/
theorem Stores.apply {contents : Set (IndexKey × NovaId)} (h : tree.Stores contents)
    (call : Call) : ∃ tree', tree.apply call = .ok tree' ∧ (∃ contents', tree'.Stores contents') ∧
      (tree' = tree ∨ tree'.dirty = true) := by
  cases call with
  | insert key id =>
      obtain ⟨tree', hinsert, hstores⟩ := h.insert key id
      exact ⟨tree', hinsert, ⟨_, hstores⟩, .inr (insert_dirty hinsert)⟩
  | remove key id =>
      obtain ⟨removed, tree', hremove, -, hstores⟩ := h.remove key id
      exact ⟨tree', by rw [BPlusTree.apply, hremove, map_ok], ⟨_, hstores⟩, remove_dirty hremove⟩

/-- A saved tree that is changed, if at all, and marked then. -/
theorem Saved.changed {tree' : BPlusTree} (h : Saved path directory tree)
    (hvalid : ∃ contents, tree'.Stores contents) (hmarked : tree' = tree ∨ tree'.dirty = true) :
    Saved path directory tree' := by
  refine ⟨hvalid, h.present, fun hclean => ?_⟩
  rcases hmarked with rfl | hdirty
  · exact h.current hclean
  · rw [hclean] at hdirty
    cases hdirty

/-- A call leaves the tree and its file in accordance. -/
theorem Saved.perform (h : Saved path directory tree) (call : TreeCall) :
    ∃ tree' directory', BPlusTree.perform path (tree, directory) call = .ok (tree', directory') ∧
      Saved path directory' tree' := by
  cases call with
  | change call =>
      obtain ⟨contents, hstores⟩ := h.valid
      obtain ⟨tree', happly, hvalid, hmarked⟩ := hstores.apply call
      exact ⟨tree', directory, by simp only [BPlusTree.perform, happly, ok_bind, pure_eq_ok],
        h.changed hvalid hmarked⟩
  | sync =>
      rcases h.sync with ⟨tree', directory', hsync, rfl, hsaved, -⟩ |
        ⟨cause, directory', hsync, rfl, -⟩
      · exact ⟨tree.clean, directory', by simp only [BPlusTree.perform, hsync], hsaved⟩
      · exact ⟨tree, directory', by simp only [BPlusTree.perform, hsync], h⟩

/-- So do calls one after the other. -/
theorem Saved.performs (h : Saved path directory tree) (calls : List TreeCall) :
    ∃ tree' directory', calls.foldlM (BPlusTree.perform path) (tree, directory) =
      .ok (tree', directory') ∧ Saved path directory' tree' := by
  induction calls generalizing tree directory with
  | nil => exact ⟨tree, directory, rfl, h⟩
  | cons call rest ih =>
      obtain ⟨next, middle, hcall, hnext⟩ := h.perform call
      obtain ⟨tree', directory', hrest, hsaved⟩ := ih hnext
      exact ⟨tree', directory', by rw [List.foldlM_cons, hcall, ok_bind, hrest], hsaved⟩

end Sessions

end BPlusTree

/-- Snapshots are read back. For every tree that passes verification, whose nodes and ids can be
counted in four bytes and whose string keys are short, the snapshot is written and decodes to the
same capacity, root and nodes. After any insertions, removals and writes of a tree with a file,
writing such a tree and opening the file gives the tree again. -/
theorem tree_snapshots_round_trip :
    (∀ tree : BPlusTree, tree.verify = .ok () → tree.Countable → tree.Short →
      ∃ bytes, encodeTree tree.maxKeys tree.root tree.nodes = .ok bytes ∧
        decodeTree bytes = .ok (tree.maxKeys, tree.root, tree.nodes)) ∧
    ∀ path maxKeys start created directory,
      BPlusTree.createFileWithMaxKeys path maxKeys start = (.ok created, directory) →
      ∀ calls : List TreeCall, ∃ tree directory',
        calls.foldlM (BPlusTree.perform path) (created, directory) = .ok (tree, directory') ∧
        (tree.Countable → tree.Short → ∃ last, tree.sync path directory' = (.ok tree.clean, last) ∧
          BPlusTree.openFile path last = .ok tree.clean) := by
  constructor
  · rintro tree hverify ⟨hsize, hcountable⟩ hshort
    obtain ⟨bytes, hencode⟩ := encodes_tree hverify hsize hcountable hshort
    obtain ⟨hmax, hroot, hvalid⟩ := valid_of_verify hverify
    have hne : tree.nodes ≠ [] := List.ne_nil_of_length_pos (Nat.zero_lt_of_lt hroot)
    exact ⟨bytes, hencode, (decodes_encodeTree hmax hne hvalid hencode).1 hshort⟩
  · intro path maxKeys start created directory hcreate calls
    obtain ⟨hcreated, -⟩ := BPlusTree.saved_createFileWithMaxKeys hcreate
    obtain ⟨tree, directory', hcalls, hsaved⟩ := hcreated.performs calls
    refine ⟨tree, directory', hcalls, ?_⟩
    rintro ⟨hsize, hcountable⟩ hshort
    obtain ⟨bytes, hencode⟩ := encodes_tree hsaved.verify hsize hcountable hshort
    rcases hsaved.sync with ⟨tree', last, hsync, rfl, hclean, -⟩ | ⟨cause, last, -, -, -, herror⟩
    · exact ⟨last, hsync, (hclean.openFile rfl).1 hshort⟩
    · rw [hencode] at herror
      cases herror

/-- Calls that split a leaf and then empty its right half, with a write before the split. -/
def emptyingCalls : List TreeCall :=
  [.change (.insert (.string "a") (.filled 1)), .change (.insert (.string "b") (.filled 1)), .sync,
    .change (.insert (.float64 (.new F64.nan)) (.filled 2)),
    .change (.insert (.int64 1) (.filled 2)), .change (.remove (.string "b") (.filled 1)),
    .change (.remove (.string "a") (.filled 1))]

/-- The tree after these calls. Its separator is a string key that no leaf holds any more. -/
def emptiedTree : BPlusTree where
  maxKeys := 3
  root := 2
  nodes := [.leaf [(.int64 1, [.filled 2]), (.float64 (.new F64.nan), [.filled 2])] (some 1),
    .leaf [] none, .internal [.string "a"] [0, 1]]
  dirty := true

theorem tree_snapshots_round_trip_emptiedTree :
    (∃ bytes, encodeTree 3 2 emptiedTree.nodes = .ok bytes ∧
      decodeTree bytes = .ok (3, 2, emptiedTree.nodes)) ∧
    ∃ directory last, emptiedTree.sync "a.nvix" directory = (.ok emptiedTree.clean, last) ∧
      BPlusTree.openFile "a.nvix" last = .ok emptiedTree.clean := by
  have hcountable : emptiedTree.Countable := by decide
  have hshort : emptiedTree.Short := by decide +kernel
  have hcreate : BPlusTree.createFileWithMaxKeys "a.nvix" 3 .empty =
      (.ok ⟨3, 0, [.leaf [] none], false⟩,
        (BPlusTree.createFileWithMaxKeys "a.nvix" 3 .empty).2) :=
    Prod.ext (by decide +kernel) rfl
  obtain ⟨tree, directory, hcalls, hopens⟩ :=
    tree_snapshots_round_trip.2 _ _ _ _ _ hcreate emptyingCalls
  have htree : (emptyingCalls.foldlM (BPlusTree.perform "a.nvix")
      (⟨3, 0, [.leaf [] none], false⟩, (BPlusTree.createFileWithMaxKeys "a.nvix" 3 .empty).2)).map
        Prod.fst = .ok emptiedTree := by
    decide +kernel
  rw [hcalls] at htree
  obtain rfl : tree = emptiedTree := Except.ok.inj htree
  obtain ⟨last, hsync, hopen⟩ := hopens hcountable hshort
  refine ⟨?_, directory, last, hsync, hopen⟩
  exact tree_snapshots_round_trip.1 emptiedTree (by decide +kernel) hcountable hshort

end NovaBase.Index
