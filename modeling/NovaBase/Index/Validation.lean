import Mathlib.Data.List.Pairwise
import NovaBase.Index.Accepted
import NovaBase.Index.Snapshot

/-!
# What opening a snapshot guarantees

A snapshot that opens answers lookups and scans rightly exactly if its keys
respect the separators of all nodes above their leaves, and its empty leaves
are linked where they hang. `verify` checks neither.
-/

namespace NovaBase.Index

open Lib Lib.Bytes

namespace BPlusTree

/-- The pairs stored in the leaves of a tree. -/
def contents (tree : BPlusTree) : Set (IndexKey × NovaId) :=
  {p | ∃ entries next, Node.leaf entries next ∈ tree.nodes ∧ p ∈ pairs entries}

/-- Lookups and scans give exactly what is stored, in order. -/
def Answers (tree : BPlusTree) : Prop :=
  (∀ key, ∃ ids, tree.get key = .ok ids ∧ ids.Pairwise (· < ·) ∧
    ∀ id, id ∈ ids ↔ (key, id) ∈ tree.contents) ∧
  ∀ start stop, start ≤ stop → ∃ result, tree.range start stop = .ok result ∧
    result.Pairwise PairLt ∧ ∀ p, p ∈ result ↔ p ∈ tree.contents ∧ start ≤ p.1 ∧ p.1 ≤ stop

/-- Every stored key is on the right side of every separator above its leaf. -/
def Separated (tree : BPlusTree) : Prop := ∀ x ∈ tree.row, ∀ e ∈ x.entries, x.Admits e.1

/-- An empty leaf that some key belongs to is linked before the leaves to its right that hold
keys. -/
def Aligned (tree : BPlusTree) : Prop :=
  tree.row.Pairwise fun x y =>
    x.entries = [] → y.entries ≠ [] → (∃ key, x.Admits key) → Precedes tree.nodes x.id y.id

end BPlusTree

namespace Accepted

variable {tree : BPlusTree} {chain : List Cell} {x y : Route} {key : IndexKey}

/-- No key belongs to two leaves. -/
theorem unique (h : Accepted tree chain) (hx : x ∈ tree.row) (hy : y ∈ tree.row)
    (hkx : x.Admits key) (hky : y.Admits key) : x = y := by
  by_contra hne
  have happart : tree.row.Pairwise fun a b => ¬(a.Admits key ∧ b.Admits key) :=
    h.ordered.imp fun hbefore hboth => absurd (hbefore key key hboth.1 hboth.2) (lt_irrefl _)
  have hsymm : Std.Symm fun a b : Route => ¬(a.Admits key ∧ b.Admits key) :=
    ⟨fun a b hab hba => hab hba.symm⟩
  exact happart.forall hx hy hne ⟨hkx, hky⟩

/-- A leaf of the chain is the one of the row with its id. -/
theorem of_id (h : Accepted tree chain) (hx : x ∈ tree.row) {c : Cell} (hc : c ∈ chain)
    (hid : x.id = c.id) : x.entries = c.entries := by
  obtain ⟨start, seen, hchained⟩ := h.chained
  have hstored := h.stored x hx
  rw [hid, hchained.stored c hc] at hstored
  exact (Node.leaf.inj (Option.some.inj hstored)).1.symm

/-- What an accepted tree stores is in one of its leaves. -/
theorem mem_contents (h : Accepted tree chain) {p : IndexKey × NovaId} :
    p ∈ tree.contents ↔ ∃ x ∈ tree.row, p ∈ pairs x.entries := by
  constructor
  · rintro ⟨entries, next, hmem, hp⟩
    obtain ⟨i, hi⟩ := List.mem_iff_getElem?.mp hmem
    obtain ⟨x, hx, rfl⟩ := h.covered hi
    have hstored := h.stored x hx
    rw [hi] at hstored
    obtain ⟨rfl, -⟩ := Node.leaf.inj (Option.some.inj hstored)
    exact ⟨x, hx, hp⟩
  · rintro ⟨x, hx, hp⟩
    exact ⟨x.entries, x.next, List.mem_of_getElem? (h.stored x hx), hp⟩

/-- The cell of a leaf of the row. -/
theorem cell (h : Accepted tree chain) (hx : x ∈ tree.row) :
    ∃ c ∈ chain, c.id = x.id ∧ c.entries = x.entries := by
  obtain ⟨c, hc, hid⟩ := h.linkedAll (h.stored x hx)
  exact ⟨c, hc, hid, (h.of_id hx hc hid.symm).symm⟩

/-- The chain has all that is stored. -/
theorem mem_contents_chain (h : Accepted tree chain) {p : IndexKey × NovaId} :
    p ∈ tree.contents ↔ p ∈ pairs (entriesOf chain) := by
  obtain ⟨start, seen, hchained⟩ := h.chained
  obtain ⟨key, id⟩ := p
  rw [h.mem_contents, mem_pairs]
  constructor
  · rintro ⟨x, hx, hp⟩
    obtain ⟨e, he, hkey, hid⟩ := mem_pairs.mp hp
    obtain ⟨c, hc, -, hentries⟩ := h.cell hx
    exact ⟨e, List.mem_flatMap.mpr ⟨c, hc, hentries ▸ he⟩, hkey, hid⟩
  · rintro ⟨e, he, hkey, hid⟩
    obtain ⟨c, hc, he⟩ := List.mem_flatMap.mp he
    obtain ⟨x, hx, hxid⟩ := h.covered (hchained.stored c hc)
    exact ⟨x, hx, mem_pairs.mpr ⟨e, h.of_id hx hc hxid ▸ he, hkey, hid⟩⟩

/-- The keys along the chain of leaves are in order. -/
theorem chain_sorted (h : Accepted tree chain) : Sorted (entriesOf chain) := by
  obtain ⟨start, seen, hchained⟩ := h.chained
  refine ⟨hchained.keys, fun e he => ?_⟩
  obtain ⟨c, hc, he⟩ := List.mem_flatMap.mp he
  obtain ⟨x, hx, hid⟩ := h.covered (hchained.stored c hc)
  rw [← h.of_id hx hc hid] at he
  exact (h.sorted x hx).ids e he

/-- A key is stored in one leaf only. -/
theorem cell_unique (h : Accepted tree chain) {c d : Cell} (hc : c ∈ chain) (hd : d ∈ chain)
    {e f : LeafEntry} (he : e ∈ c.entries) (hf : f ∈ d.entries) (hkey : e.1 = f.1) : c = d := by
  by_contra hne
  have hkeys := List.pairwise_map.mp h.chain_sorted.keys
  have hacross := (List.pairwise_flatMap.mp hkeys).2
  have happart : chain.Pairwise fun a b => ∀ e ∈ a.entries, ∀ f ∈ b.entries, e.1 ≠ f.1 :=
    hacross.imp fun hlt e he f hf => (hlt e he f hf).ne
  have hsymm : Std.Symm fun a b : Cell => ∀ e ∈ a.entries, ∀ f ∈ b.entries, e.1 ≠ f.1 :=
    ⟨fun a b hab e he f hf => (hab f hf e he).symm⟩
  exact happart.forall hc hd hne e he f hf hkey

/-- A lookup searches the leaf that admits the key. -/
theorem get (h : Accepted tree chain) (key : IndexKey) :
    ∃ x ∈ tree.row, x.Admits key ∧ ∃ ids, tree.get key = .ok ids ∧ ids.Pairwise (· < ·) ∧
      ∀ id, id ∈ ids ↔ (key, id) ∈ pairs x.entries := by
  obtain ⟨x, hx, hkey, hleaf⟩ := h.found key
  obtain ⟨ids, hlookup, hsorted, hids⟩ := lookupEntry_spec (h.sorted x hx) key
  refine ⟨x, hx, hkey, ids, ?_, hsorted, hids⟩
  simp only [BPlusTree.get, hleaf, ok_bind, indexed_of (h.stored x hx), hlookup]

/-- A scan reads the chain from the leaf that admits its start. -/
theorem range (h : Accepted tree chain) {start stop : IndexKey} (hle : start ≤ stop) :
    ∃ x ∈ tree.row, x.Admits start ∧ ∃ before c after, chain = before ++ c :: after ∧
      c.id = x.id ∧ c.entries = x.entries ∧
      tree.range start stop =
        .ok ((pairs (entriesOf (c :: after))).filter (inRange start stop)) := by
  obtain ⟨x, hx, hkey, hleaf⟩ := h.found start
  obtain ⟨c, hc, hid, hentries⟩ := h.cell hx
  obtain ⟨first, seen, hchained⟩ := h.chained
  obtain ⟨before, after, rfl⟩ := List.append_of_mem hc
  have hsorted := h.chain_sorted
  rw [entriesOf, List.flatMap_append] at hsorted
  have hlength := h.length
  rw [List.length_append] at hlength
  have hwalk : rangeFrom tree.nodes start stop tree.nodes.length (some c.id) [] =
      .ok ([] ++ (pairs (entriesOf (c :: after))).filter (inRange start stop)) :=
    rangeFrom_spec hsorted.of_append.2
      (fun d hd => hchained.stored d (List.mem_append_right _ hd))
      (linkedTo_append.mp hchained.linked).2 [] (by omega)
  refine ⟨x, hx, hkey, before, c, after, rfl, hid, hentries, ?_⟩
  rw [BPlusTree.range, require_of _ hle, ok_bind, hleaf, ok_bind, ← hid]
  exact hwalk

/-- Two leaves of the row, in this order. -/
theorem before_of_lt (h : Accepted tree chain) {r : Route → Route → Prop}
    (hrow : tree.row.Pairwise r) (hx : x ∈ tree.row) (hy : y ∈ tree.row) {k l : IndexKey}
    (hk : x.Admits k) (hl : y.Admits l) (hlt : k < l) (hne : x ≠ y) : r x y := by
  have hboth : tree.row.Pairwise fun a b =>
      (a.Before b ∧ r a b) ∨ (b.Before a ∧ r b a) :=
    (h.ordered.and hrow).imp .inl
  have hsymm : Std.Symm fun a b : Route => (a.Before b ∧ r a b) ∨ (b.Before a ∧ r b a) :=
    ⟨fun a b => Or.symm⟩
  rcases hboth.forall hx hy hne with ⟨-, hr⟩ | ⟨hbefore, -⟩
  · exact hr
  · exact absurd (hbefore l k hl hk) hlt.not_gt

/-- In a separated and aligned tree, all that is linked before the leaf of a key is smaller. -/
theorem below (h : Accepted tree chain) (hseparated : tree.Separated) (haligned : tree.Aligned)
    (hx : x ∈ tree.row) (hkey : x.Admits key) {before after : List Cell} {c : Cell}
    (hchain : chain = before ++ c :: after) (hid : c.id = x.id) (hentries : c.entries = x.entries) :
    ∀ e ∈ entriesOf before, e.1 < key := by
  subst hchain
  obtain ⟨first, seen, hchained⟩ := h.chained
  intro e he
  by_contra hnot
  obtain ⟨d, hd, he⟩ := List.mem_flatMap.mp he
  have hdchain : d ∈ before ++ c :: after := List.mem_append_left _ hd
  obtain ⟨y, hy, hyid⟩ := h.covered (hchained.stored d hdchain)
  have hyentries : y.entries = d.entries := h.of_id hy hdchain hyid
  have hey : y.Admits e.1 := hseparated y hy e (hyentries ▸ he)
  have hnodup := hchained.nodup
  rw [List.map_append, List.nodup_append] at hnodup
  have hdistinct : ∀ f ∈ c :: after, d.id ≠ f.id := fun f hf =>
    hnodup.2.2 d.id (List.mem_map_of_mem hd) f.id (List.mem_map_of_mem hf)
  have hne : x ≠ y := by
    rintro rfl
    exact hdistinct c List.mem_cons_self (hyid.symm.trans hid.symm)
  have hlt : key < e.1 := by
    refine lt_of_le_of_ne (not_lt.mp hnot) fun hsame => hne ?_
    exact h.unique hx hy hkey (hsame ▸ hey)
  cases hempty : x.entries with
  | nil =>
      have hnonempty : y.entries ≠ [] := by
        rw [hyentries]
        exact List.ne_nil_of_mem he
      have hpath := h.before_of_lt haligned hx hy hkey hey hlt hne hempty hnonempty ⟨key, hkey⟩
      rw [← hid] at hpath
      obtain ⟨f, hf, hfid⟩ := (precedes_iff
        (fun f hf => hchained.stored f (List.mem_append_right _ hf))
        (linkedTo_append.mp hchained.linked).2 y.id).mp hpath
      exact hdistinct f (List.mem_cons_of_mem _ hf) (hyid.symm.trans hfid.symm)
  | cons f rest =>
      have hfx : f ∈ x.entries := by simp [hempty]
      have hfc : f ∈ c.entries := hentries ▸ hfx
      have hbeyond : e.1 < f.1 := by
        have hkeys := List.pairwise_map.mp h.chain_sorted.keys
        rw [entriesOf, List.flatMap_append, List.pairwise_append] at hkeys
        exact hkeys.2.2 e (List.mem_flatMap.mpr ⟨d, hd, he⟩) f
          (List.mem_flatMap.mpr ⟨c, List.mem_cons_self, hfc⟩)
      exact hne (h.unique hx hy (hkey.between (hseparated x hx f hfx) hlt.le hbeyond.le) hey)

/-- A separated and aligned tree answers rightly. -/
theorem answers (h : Accepted tree chain) (hseparated : tree.Separated)
    (haligned : tree.Aligned) : tree.Answers := by
  refine ⟨fun key => ?_, fun start stop hle => ?_⟩
  · obtain ⟨x, hx, hkey, ids, hget, hsorted, hids⟩ := h.get key
    refine ⟨ids, hget, hsorted, fun id => ?_⟩
    rw [hids, h.mem_contents]
    constructor
    · exact fun hmem => ⟨x, hx, hmem⟩
    · rintro ⟨y, hy, hmem⟩
      obtain ⟨e, he, hsame⟩ := key_of_mem_pairs hmem
      have hey := hseparated y hy e he
      rw [hsame] at hey
      rwa [h.unique hx hy hkey hey]
  · obtain ⟨x, hx, hkey, before, c, after, hchain, hid, hentries, hrange⟩ := h.range hle
    have hbelow := h.below hseparated haligned hx hkey hchain hid hentries
    have hsplit : entriesOf chain = entriesOf before ++ entriesOf (c :: after) := by
      rw [hchain, entriesOf, List.flatMap_append]
      rfl
    have hsorted := h.chain_sorted
    rw [hsplit] at hsorted
    refine ⟨_, hrange, (pairs_sorted hsorted.of_append.2).filter _, fun p => ?_⟩
    · rw [List.mem_filter, h.mem_contents_chain, hsplit, pairs_append, List.mem_append, inRange,
        decide_eq_true_eq]
      constructor
      · rintro ⟨hmem, hbounds⟩
        exact ⟨.inr hmem, hbounds⟩
      · rintro ⟨hmem | hmem, hbounds⟩
        · obtain ⟨e, he, hsame⟩ := key_of_mem_pairs hmem
          have hlt := hbelow e he
          rw [hsame] at hlt
          exact absurd hbounds.1 hlt.not_ge
        · exact ⟨hmem, hbounds⟩

/-- Right lookups show that the keys respect all separators. -/
theorem separated (h : Accepted tree chain) (hanswers : tree.Answers) : tree.Separated := by
  intro x hx e he
  obtain ⟨id, hid⟩ := List.exists_mem_of_ne_nil _ ((h.sorted x hx).ids e he).1
  have hstored : (e.1, id) ∈ tree.contents :=
    h.mem_contents.mpr ⟨x, hx, mem_pairs.mpr ⟨e, he, rfl, hid⟩⟩
  obtain ⟨y, hy, hkey, ids, hget, -, hids⟩ := h.get e.1
  obtain ⟨ids', hget', -, hids'⟩ := hanswers.1 e.1
  obtain rfl := Except.ok.inj (hget.symm.trans hget')
  obtain ⟨f, hf, hsame, -⟩ := mem_pairs.mp ((hids id).mp ((hids' id).mpr hstored))
  obtain ⟨c, hc, hcid, hcentries⟩ := h.cell hx
  obtain ⟨d, hd, hdid, hdentries⟩ := h.cell hy
  have hcell : c = d :=
    h.cell_unique hc hd (hcentries ▸ he) (hdentries ▸ hf) hsame.symm
  have hxy : x = y := by
    refine List.inj_on_of_nodup_map h.nodup hx hy ?_
    rw [← hcid, hcell, hdid]
  rwa [hxy]

/-- Right scans show that the empty leaves are linked where they hang. -/
theorem aligned (h : Accepted tree chain) (hanswers : tree.Answers) : tree.Aligned := by
  obtain ⟨first, seen, hchained⟩ := h.chained
  refine h.ordered.imp_of_mem fun {x y} hx hy hbefore hempty hfull ⟨key, hkey⟩ => ?_
  obtain ⟨e, he⟩ := List.exists_mem_of_ne_nil _ hfull
  obtain ⟨id, hid⟩ := List.exists_mem_of_ne_nil _ ((h.sorted y hy).ids e he).1
  have hlt : key < e.1 := hbefore key e.1 hkey (h.separated hanswers y hy e he)
  have hstored : (e.1, id) ∈ tree.contents :=
    h.mem_contents.mpr ⟨y, hy, mem_pairs.mpr ⟨e, he, rfl, hid⟩⟩
  obtain ⟨z, hz, hkz, before, c, after, rfl, hcid, hcentries, hrange⟩ := h.range hlt.le
  obtain rfl := h.unique hx hz hkey hkz
  obtain ⟨result, hrange', -, hresult⟩ := hanswers.2 key e.1 hlt.le
  obtain rfl := Except.ok.inj (hrange.symm.trans hrange')
  have hfound := (hresult (e.1, id)).mpr ⟨hstored, hlt.le, le_rfl⟩
  obtain ⟨f, hf, hsame⟩ := key_of_mem_pairs (List.mem_filter.mp hfound).1
  obtain ⟨d, hd, hf⟩ := List.mem_flatMap.mp hf
  have hdchain : d ∈ before ++ c :: after := List.mem_append_right _ hd
  obtain ⟨d', hd', hdid, hdentries⟩ := h.cell hy
  obtain rfl := h.cell_unique hdchain hd' hf (hdentries ▸ he) hsame
  rw [← hcid, ← hdid]
  refine (precedes_iff (fun f hf => hchained.stored f (List.mem_append_right _ hf))
    (linkedTo_append.mp hchained.linked).2 d.id).mpr ⟨d, ?_, rfl⟩
  refine (List.mem_cons.mp hd).resolve_left ?_
  intro hsame
  rw [hsame, hcentries, hempty] at hf
  simp at hf

end Accepted

/-- A snapshot that opens answers every lookup and every scan with exactly what is stored in its
leaves, in order, if and only if every stored key is on the right side of every separator above
its leaf and every empty leaf that a key can belong to is linked before the leaves to its right
that hold keys. -/
theorem opened_answers_iff {bytes : Bytes} {tree : BPlusTree}
    (h : BPlusTree.openBytes bytes = .ok tree) :
    tree.Answers ↔ tree.Separated ∧ tree.Aligned := by
  simp only [BPlusTree.openBytes, bind_eq_ok, pure_eq_ok, Except.ok.injEq] at h
  obtain ⟨⟨maxKeys, root, nodes⟩, -, u, hverify, rfl⟩ := h
  obtain ⟨chain, haccepted⟩ := accepted_of_verify hverify
  constructor
  · exact fun hanswers => ⟨haccepted.separated hanswers, haccepted.aligned hanswers⟩
  · rintro ⟨hseparated, haligned⟩
    exact haccepted.answers hseparated haligned

/-- A tree whose root sends a stored key away from its leaf: the key 30 hangs left of the
separator 10, and is compared with the separator 50 only. -/
def crossedTree : BPlusTree where
  maxKeys := 3
  root := 0
  nodes := [.internal [.int64 10] [1, 2], .internal [.int64 50] [3, 4],
    .internal [.int64 70] [5, 6], .leaf [(.int64 30, [.filled 1])] (some 4), .leaf [] (some 5),
    .leaf [] (some 6), .leaf [] none]
  dirty := false

/-- The snapshot of that tree. -/
def crossedSnapshot : Bytes :=
  magic ++ (toBigEndian 2 version ++ (toBigEndian 2 headerSize ++ (toBigEndian 4 3 ++
    (toBigEndian 4 0 ++ (toBigEndian 8 0 ++ (toBigEndian 8 7 ++ (toBigEndian 4 886736421 ++
      (toBigEndian 4 0 ++ (encodeNodes crossedTree.nodes).toOption.getD []))))))))

theorem crossed_snapshot_opens : BPlusTree.openBytes crossedSnapshot = .ok crossedTree := by
  decide +kernel

/-- The lookup of the stored key ends in an empty leaf. -/
theorem crossedTree_misses_key : ¬crossedTree.Answers := by
  rintro ⟨hget, -⟩
  obtain ⟨ids, hids, -, hmem⟩ := hget (.int64 30)
  have hmissed : crossedTree.get (.int64 30) = .ok [] := by decide +kernel
  obtain rfl := Except.ok.inj (hmissed.symm.trans hids)
  have hstored : (.int64 30, .filled 1) ∈ crossedTree.contents :=
    ⟨[(.int64 30, [.filled 1])], some 4, by simp [crossedTree], by simp [pairs]⟩
  simpa using (hmem _).mpr hstored

theorem opened_snapshot_misses_key :
    ¬∀ bytes tree, BPlusTree.openBytes bytes = .ok tree → tree.Answers :=
  fun hall => crossedTree_misses_key (hall crossedSnapshot crossedTree crossed_snapshot_opens)

theorem crossed_snapshot_misplaces_key : ¬(crossedTree.Separated ∧ crossedTree.Aligned) :=
  fun hplaced => crossedTree_misses_key ((opened_answers_iff crossed_snapshot_opens).mpr hplaced)

end NovaBase.Index
