import NovaBase.Index.Verify

/-!
# The tree is an ordered multimap

The purpose of a tree is to hold a set of pairs. `Stores` says which set; each
operation is shown to compute what it should on it, without a panic. The last
theorem follows any sequence of insertions and removals from a fresh tree.
-/

namespace NovaBase.Index

open Lib

/-- The tree is valid and holds exactly these pairs. -/
def BPlusTree.Stores (tree : BPlusTree) (contents : Set (IndexKey × NovaId)) : Prop :=
  ∃ height cells ids, Shaped tree height cells ids ∧
    ∀ p, p ∈ pairs (entriesOf cells) ↔ p ∈ contents

theorem stores_createWithMaxKeys {maxKeys : Nat} {tree : BPlusTree}
    (h : BPlusTree.createWithMaxKeys maxKeys = .ok tree) : tree.Stores ∅ := by
  obtain ⟨u, hvalid, htree⟩ := bind_eq_ok.mp h
  cases htree
  refine ⟨0, [⟨⊥, 0, [], none⟩], [0], ⟨?_, ?_, ?_, ?_, hvalid⟩, ?_⟩
  · exact ⟨[], none, rfl, rfl, rfl⟩
  · exact List.Perm.refl _
  · exact ordered_singleton (by simp) ⟨List.Pairwise.nil, by simp⟩ (Nat.zero_le _)
  · exact ⟨rfl, trivial⟩
  · simp [entriesOf, pairs]

section Operations

variable {tree : BPlusTree} {contents : Set (IndexKey × NovaId)}

/-- A tree that stores a set of pairs passes its own check. -/
theorem BPlusTree.Stores.verify (h : tree.Stores contents) : tree.verify = .ok () := by
  obtain ⟨height, cells, ids, hshaped, -⟩ := h
  exact hshaped.verify

/-- After an insertion the subtrees in the place of the old tree use every node. -/
theorem Outcome.allNodes {nodes nodes' : List Node} {maxKeys height : Nat} {b : Branch}
    {split : Option (IndexKey × Nat)} {branches : List Branch}
    (h : Outcome maxKeys nodes nodes' height b split branches)
    (hall : b.ids.Perm (List.range nodes.length)) :
    (branches.flatMap Branch.ids).Perm (List.range nodes'.length) := by
  obtain ⟨added, hadded, hperm⟩ := h.fresh
  have hrange : List.range nodes.length ++ List.range' nodes.length added =
      List.range nodes'.length := by
    rw [hadded, List.range_eq_range', List.range_eq_range', ← List.range'_append_1, Nat.zero_add]
  exact hrange ▸ hperm.trans (hall.append_right _)

/-- An insertion stores one pair more. -/
theorem BPlusTree.Stores.insert (h : tree.Stores contents) (key : IndexKey) (id : NovaId) :
    ∃ tree', tree.insert key id = .ok tree' ∧ tree'.Stores (Insert.insert (key, id) contents) := by
  obtain ⟨height, cells, ids, hshaped, hcontents⟩ := h
  have hbound : ∀ i ∈ ids, i < tree.nodes.length := fun i hi => hshaped.mem_ids.mp hi
  have hlo : (⊥ : WithBot IndexKey) ≤ (key : WithBot IndexKey) := bot_le
  obtain ⟨nodes', split, branches, before, c, after, new, hinsert, houtcome, hrouted, hreplaced,
    hnew⟩ := hshaped.represents.insertNode id hshaped.minMaxKeys_le hshaped.ordered hlo
      hshaped.nodup hbound hshaped.height_lt
  have hordered := hreplaced.ordered hrouted hshaped.ordered
  have hsplit : cells = before ++ c :: after := hrouted.split
  have hlinked := hreplaced.linked (hsplit ▸ hshaped.linked)
  have hall := houtcome.allNodes hshaped.allNodes
  have hpairs : ∀ p, p ∈ pairs (entriesOf (before ++ (new ++ after))) ↔
      p ∈ Insert.insert (key, id) contents := by
    intro p
    rw [hreplaced.mem_pairs, ← hsplit, hcontents, Set.mem_insert_iff]
  rw [← hnew] at hordered hlinked hpairs
  cases split with
  | none =>
      obtain ⟨x, rest, rfl, hchild, hrest⟩ := List.map_eq_cons_iff.mp houtcome.children
      have hrest : rest = [] := List.map_eq_nil_iff.mp hrest
      subst hrest
      obtain ⟨lower, child, cells', ids'⟩ := x
      have hlower : lower = ⊥ := (List.cons.inj houtcome.lowers).1
      have hchild : child = tree.root := hchild
      subst hlower hchild
      rw [List.flatMap_singleton] at hordered hlinked hpairs hall
      refine ⟨⟨tree.maxKeys, tree.root, nodes', true⟩, ?_, height, cells', ids',
        ⟨houtcome.stored _ List.mem_cons_self, hall, hordered, hlinked, hshaped.maxKeys⟩, hpairs⟩
      simp only [BPlusTree.insert, hinsert, ok_bind, pure_eq_ok]
  | some right =>
      obtain ⟨separator, right⟩ := right
      have hchildren : branches.map Branch.child = [tree.root, right] := houtcome.children
      have hlowers : branches.map Branch.lower = [⊥, WithBot.some separator] := houtcome.lowers
      refine ⟨⟨tree.maxKeys, nodes'.length,
        nodes' ++ [.internal [separator] [tree.root, right]], true⟩, ?_, height + 1,
        branches.flatMap Branch.cells, nodes'.length :: branches.flatMap Branch.ids,
        ⟨?_, ?_, hordered, hlinked, hshaped.maxKeys⟩, hpairs⟩
      · simp only [BPlusTree.insert, hinsert, ok_bind, pure_eq_ok]
      · have hmax := hshaped.minMaxKeys_le
        unfold minMaxKeys at hmax
        refine ⟨[separator], branches, ?_, hlowers, by simp, by simp; omega, fun x hx => ?_, rfl,
          rfl⟩
        · rw [hchildren]
          simp
        · refine (houtcome.stored x hx).frame fun i hi => ?_
          have hmem := hall.mem_iff.mp (List.mem_flatMap.mpr ⟨x, hx, hi⟩)
          rw [List.getElem?_append_left (List.mem_range.mp hmem)]
      · rw [List.length_append, List.length_singleton, List.range_succ]
        exact (hall.cons _).trans (List.perm_append_singleton _ _).symm

/-- The leaf that the descent for a key ends at. -/
theorem Shaped.findLeaf {height : Nat} {cells : List Cell} {ids : List Nat}
    (h : Shaped tree height cells ids) (key : IndexKey) :
    ∃ before c after, Routed key cells before c after ∧ tree.findLeaf key = .ok c.id ∧
      tree.nodes[c.id]? = some (.leaf c.entries c.next) ∧ Sorted c.entries := by
  have hlo : (⊥ : WithBot IndexKey) ≤ (key : WithBot IndexKey) := bot_le
  obtain ⟨before, c, after, hrouted, hfound⟩ :=
    h.represents.findLeafFrom h.ordered hlo h.height_lt
  have hc : c ∈ cells := by
    have hsplit : cells = before ++ c :: after := hrouted.split
    simp [hsplit]
  exact ⟨before, c, after, hrouted, hfound, h.represents.stored hc, h.ordered.sorted c hc⟩

/-- All pairs with a key are in the leaf that the key belongs to. -/
theorem Routed.mem_pairs_iff {maxKeys : Nat} {key : IndexKey} {cells before after : List Cell}
    {c : Cell} (hrouted : Routed key cells before c after) (h : Ordered maxKeys cells)
    (id : NovaId) : (key, id) ∈ pairs (entriesOf cells) ↔ (key, id) ∈ pairs c.entries := by
  rw [hrouted.entries, pairs_append, pairs_append, List.mem_append, List.mem_append]
  constructor
  · rintro (hmem | hmem | hmem)
    · obtain ⟨e, he, hkey⟩ := key_of_mem_pairs hmem
      exact absurd hkey (hrouted.below h e he).ne
    · exact hmem
    · obtain ⟨e, he, hkey⟩ := key_of_mem_pairs hmem
      exact absurd hkey (hrouted.beyond h e he).ne'
  · exact fun hmem => .inr (.inl hmem)

/-- A lookup lists the identifiers of a key in order. -/
theorem BPlusTree.Stores.get (h : tree.Stores contents) (key : IndexKey) :
    ∃ ids, tree.get key = .ok ids ∧ ids.Pairwise (· < ·) ∧
      ∀ id, id ∈ ids ↔ (key, id) ∈ contents := by
  obtain ⟨height, cells, nodeIds, hshaped, hcontents⟩ := h
  obtain ⟨before, c, after, hrouted, hleaf, hnode, hsorted⟩ := hshaped.findLeaf key
  obtain ⟨ids, hlookup, hincreasing, hids⟩ := lookupEntry_spec hsorted key
  refine ⟨ids, ?_, hincreasing, fun id => ?_⟩
  · simp only [BPlusTree.get, hleaf, ok_bind, indexed_of hnode, hlookup]
  · rw [hids, ← hrouted.mem_pairs_iff hshaped.ordered, hcontents]

theorem Cell.map_update {cells before after : List Cell} {c : Cell} (entries : List LeafEntry)
    (hsplit : cells = before ++ c :: after) (hnodup : (cells.map Cell.id).Nodup) :
    cells.map (Cell.update c.id entries) = before ++ { c with entries := entries } :: after := by
  subst hsplit
  rw [List.map_append, List.map_cons, List.nodup_append, List.nodup_cons] at hnodup
  obtain ⟨-, ⟨hafter, -⟩, hbefore⟩ := hnodup
  have hsame (row : List Cell) (hrow : ∀ d ∈ row, d.id ≠ c.id) :
      row.map (Cell.update c.id entries) = row :=
    (List.map_congr_left fun d hd => if_neg (hrow d hd)).trans (List.map_id' row)
  have hself : Cell.update c.id entries c = { c with entries := entries } := if_pos rfl
  rw [List.map_append, List.map_cons, hself, hsame before, hsame after]
  · exact fun d hd heq => hafter (heq ▸ List.mem_map_of_mem hd)
  · exact fun d hd heq => hbefore _ (List.mem_map_of_mem hd) _ List.mem_cons_self heq

/-- Removing a pair from a leaf keeps the row in order. -/
theorem Removed.ordered {maxKeys : Nat} {key : IndexKey} {id : NovaId} {before after : List Cell}
    {c : Cell} {entries : List LeafEntry} (hremoved : Removed key id c.entries entries)
    (h : Ordered maxKeys (before ++ c :: after)) :
    Ordered maxKeys (before ++ ([{ c with entries := entries }] ++ after)) := by
  have hmem : c ∈ before ++ c :: after := by simp
  have hafter := (List.pairwise_cons.mp (List.pairwise_append.mp h.separated).2.1).1
  refine h.replace (ordered_singleton (fun e he => ?_) hremoved.sorted
    (hremoved.length_le.trans (h.capacity c hmem))) (by simp) fun d hd a ha => ?_
  · obtain ⟨e', he', hkey⟩ := hremoved.keys e he
    rw [← hkey]
    exact h.above c hmem e' he'
  · rw [List.mem_singleton.mp hd]
    refine ⟨(hafter a ha).1, fun e he => ?_⟩
    obtain ⟨e', he', hkey⟩ := hremoved.keys e he
    rw [← hkey]
    exact (hafter a ha).2 e' he'

/-- Removing a pair from the leaf it belongs to removes it from the row. -/
theorem Routed.mem_pairs_removed {maxKeys : Nat} {key : IndexKey} {id : NovaId}
    {cells before after : List Cell} {c : Cell} {entries : List LeafEntry}
    (hrouted : Routed key cells before c after) (hremoved : Removed key id c.entries entries)
    (h : Ordered maxKeys cells) (p : IndexKey × NovaId) :
    p ∈ pairs (entriesOf (before ++ { c with entries := entries } :: after)) ↔
      p ∈ pairs (entriesOf cells) ∧ p ≠ (key, id) := by
  have hrow : entriesOf (before ++ { c with entries := entries } :: after) =
      entriesOf before ++ (entries ++ entriesOf after) := by
    simp [entriesOf]
  have houtside : p = (key, id) → p ∉ pairs (entriesOf before) ∧ p ∉ pairs (entriesOf after) := by
    rintro rfl
    refine ⟨fun hmem => ?_, fun hmem => ?_⟩
    · obtain ⟨e, he, hkey⟩ := key_of_mem_pairs hmem
      exact (hrouted.below h e he).ne hkey
    · obtain ⟨e, he, hkey⟩ := key_of_mem_pairs hmem
      exact (hrouted.beyond h e he).ne' hkey
  rw [hrow, hrouted.entries]
  simp only [pairs_append, List.mem_append, hremoved.pairs]
  grind

/-- A removal takes one pair out, and says whether it was there. -/
theorem BPlusTree.Stores.remove (h : tree.Stores contents) (key : IndexKey) (id : NovaId) :
    ∃ removed tree', tree.remove key id = .ok (removed, tree') ∧
      (removed = true ↔ (key, id) ∈ contents) ∧ tree'.Stores (contents \ {(key, id)}) := by
  obtain ⟨height, cells, ids, hshaped, hcontents⟩ := h
  obtain ⟨before, c, after, hrouted, hleaf, hnode, hsorted⟩ := hshaped.findLeaf key
  have hpresent := hrouted.mem_pairs_iff hshaped.ordered id
  rcases removeEntry_spec hsorted key id with ⟨hremove, habsent⟩ | ⟨entries, hremove, hremoved⟩
  · have hmissing : (key, id) ∉ contents := by
      rw [← hcontents, hpresent]
      exact habsent
    refine ⟨false, tree, ?_, by simpa using hmissing, height, cells, ids, hshaped, fun p => ?_⟩
    · simp only [BPlusTree.remove, hleaf, ok_bind, indexed_of hnode, hremove, pure_eq_ok]
    · rw [hcontents, Set.sdiff_singleton_eq_self hmissing]
  · have hcells := Cell.map_update entries hrouted.split
      (hshaped.represents.cells_sublist.nodup hshaped.nodup)
    have hordered := hremoved.ordered (hrouted.split ▸ hshaped.ordered)
    refine ⟨true, ⟨tree.maxKeys, tree.root, tree.nodes.set c.id (.leaf entries c.next), true⟩, ?_,
      ?_, height, cells.map (Cell.update c.id entries), ids,
      ⟨hshaped.represents.update hnode, ?_, ?_, ?_, hshaped.maxKeys⟩, fun p => ?_⟩
    · simp only [BPlusTree.remove, hleaf, ok_bind, indexed_of hnode, hremove, pure_eq_ok]
    · simpa [← hcontents, hpresent] using hremoved.present
    · rw [List.length_set]
      exact hshaped.allNodes
    · rw [hcells]
      exact hordered
    · have hlinked := hshaped.linked
      rw [hrouted.split, linkedTo_append] at hlinked
      rw [hcells]
      exact linkedTo_append.mpr hlinked
    · rw [hcells, hrouted.mem_pairs_removed hremoved hshaped.ordered, hcontents]
      rfl

/-- The pairs of a range. -/
def inRange (start stop : IndexKey) (p : IndexKey × NovaId) : Bool :=
  decide (start ≤ p.1 ∧ p.1 ≤ stop)

theorem filter_map_eq_nil {start stop key : IndexKey} {ids : List NovaId}
    (h : ¬(start ≤ key ∧ key ≤ stop)) :
    (ids.map fun id => (key, id)).filter (inRange start stop) = [] := by
  refine List.filter_eq_nil_iff.mpr fun p hp => ?_
  obtain ⟨i, -, rfl⟩ := List.mem_map.mp hp
  simpa [inRange] using h

/-- The scan of a leaf takes the pairs in range, and stops only at a key above it. -/
theorem scanLeaf_spec (start stop : IndexKey) {entries : List LeafEntry} (h : Sorted entries) :
    (scanLeaf start stop entries).1 = (pairs entries).filter (inRange start stop) ∧
      ((scanLeaf start stop entries).2 = true → ∃ e ∈ entries, stop < e.1) := by
  induction entries with
  | nil => exact ⟨rfl, by simp [scanLeaf]⟩
  | cons entry rest ih =>
      obtain ⟨key, ids⟩ := entry
      have hcons : pairs ((key, ids) :: rest) = ids.map (fun id => (key, id)) ++ pairs rest := rfl
      have hrest : Sorted ([(key, ids)] ++ rest) := h
      obtain ⟨hpairs, hfinished⟩ := ih hrest.of_append.2
      have hlater : ∀ p ∈ pairs rest, key < p.1 := by
        intro p hp
        obtain ⟨e, he, hkey⟩ := key_of_mem_pairs hp
        rw [← hkey]
        exact (List.pairwise_cons.mp h.keys).1 e.1 (List.mem_map_of_mem he)
      rw [hcons, List.filter_append, scanLeaf]
      split
      case isTrue hlow =>
        refine ⟨?_, fun hfin => ?_⟩
        · have hnone : (ids.map fun id => (key, id)).filter (inRange start stop) = [] :=
            filter_map_eq_nil fun hin => hlow.not_ge hin.1
          rw [hnone, List.nil_append, hpairs]
        · obtain ⟨e, he, hlt⟩ := hfinished hfin
          exact ⟨e, List.mem_cons_of_mem _ he, hlt⟩
      case isFalse hlow =>
        split
        case isTrue hhigh =>
          refine ⟨?_, fun _ => ⟨(key, ids), List.mem_cons_self, hhigh⟩⟩
          have hnone : (ids.map fun id => (key, id)).filter (inRange start stop) = [] :=
            filter_map_eq_nil fun hin => hhigh.not_ge hin.2
          have hnoneRest : (pairs rest).filter (inRange start stop) = [] := by
            refine List.filter_eq_nil_iff.mpr fun p hp => ?_
            simp [inRange, (hhigh.trans (hlater p hp)).not_ge]
          rw [hnone, hnoneRest, List.nil_append]
        case isFalse hhigh =>
          refine ⟨?_, fun hfin => ?_⟩
          · have hall : (ids.map fun id => (key, id)).filter (inRange start stop) =
                ids.map fun id => (key, id) := by
              refine List.filter_eq_self.mpr fun p hp => ?_
              obtain ⟨i, -, rfl⟩ := List.mem_map.mp hp
              simp [inRange, not_lt.mp hlow, not_lt.mp hhigh]
            rw [hall, ← hpairs]
          · obtain ⟨e, he, hlt⟩ := hfinished hfin
            exact ⟨e, List.mem_cons_of_mem _ he, hlt⟩

/-- The walk along the leaves collects the pairs in range. -/
theorem rangeFrom_spec {nodes : List Node} {start stop : IndexKey} {cells : List Cell}
    (hsorted : Sorted (entriesOf cells))
    (hstored : ∀ d ∈ cells, nodes[d.id]? = some (.leaf d.entries d.next))
    (hlinked : LinkedTo none cells) (result : List (IndexKey × NovaId)) {rounds : Nat}
    (hrounds : cells.length ≤ rounds) :
    rangeFrom nodes start stop rounds (cells.head?.map Cell.id) result =
      .ok (result ++ (pairs (entriesOf cells)).filter (inRange start stop)) := by
  induction cells generalizing result rounds with
  | nil => simp [rangeFrom, entriesOf, pairs]
  | cons c rest ih =>
      obtain ⟨rounds, rfl⟩ :=
        Nat.exists_eq_succ_of_ne_zero (Nat.ne_of_gt (Nat.lt_of_lt_of_le (Nat.succ_pos _) hrounds))
      have hrow : Sorted (c.entries ++ entriesOf rest) := hsorted
      obtain ⟨hpairs, hfinished⟩ := scanLeaf_spec start stop hrow.of_append.1
      have hnext : c.next = rest.head?.map Cell.id := by simpa using hlinked.1
      have hcons : (pairs (entriesOf (c :: rest))).filter (inRange start stop) =
          (scanLeaf start stop c.entries).1 ++
            (pairs (entriesOf rest)).filter (inRange start stop) := by
        rw [hpairs, ← List.filter_append, ← pairs_append]
        rfl
      rw [List.head?_cons, Option.map_some, rangeFrom, indexed_of (hstored c List.mem_cons_self),
        ok_bind, hcons]
      simp only
      split
      case isTrue hfin =>
        obtain ⟨e, he, hlt⟩ := hfinished hfin
        have hnone : (pairs (entriesOf rest)).filter (inRange start stop) = [] := by
          refine List.filter_eq_nil_iff.mpr fun p hp => ?_
          obtain ⟨d, hd, hkey⟩ := key_of_mem_pairs hp
          have hkeys := hrow.keys
          rw [List.map_append, List.pairwise_append] at hkeys
          have hbeyond := hkeys.2.2 e.1 (List.mem_map_of_mem he) d.1 (List.mem_map_of_mem hd)
          rw [hkey] at hbeyond
          simp [inRange, (hlt.trans hbeyond).not_ge]
        rw [hnone, List.append_nil]
        rfl
      case isFalse =>
        rw [hnext, ih hrow.of_append.2 (fun d hd => hstored d (List.mem_cons_of_mem _ hd))
          hlinked.2 _ (Nat.le_of_succ_le_succ hrounds), List.append_assoc]

/-- A range lists the pairs whose keys lie in it, in order. -/
theorem BPlusTree.Stores.range (h : tree.Stores contents) {start stop : IndexKey}
    (hle : start ≤ stop) :
    ∃ result, tree.range start stop = .ok result ∧ result.Pairwise PairLt ∧
      ∀ p, p ∈ result ↔ p ∈ contents ∧ start ≤ p.1 ∧ p.1 ≤ stop := by
  obtain ⟨height, cells, ids, hshaped, hcontents⟩ := h
  obtain ⟨before, c, after, hrouted, hleaf, -, -⟩ := hshaped.findLeaf start
  have hsplit : cells = before ++ c :: after := hrouted.split
  have hrow : Ordered tree.maxKeys (c :: after) := (hsplit ▸ hshaped.ordered).of_append.2
  have hlinked : LinkedTo none (c :: after) :=
    (linkedTo_append.mp (hsplit ▸ hshaped.linked)).2
  have hstored : ∀ d ∈ c :: after, tree.nodes[d.id]? = some (.leaf d.entries d.next) := by
    intro d hd
    refine hshaped.represents.stored ?_
    rw [hsplit]
    exact List.mem_append_right _ hd
  have hrounds : (c :: after).length ≤ tree.nodes.length := by
    have hcount := hshaped.represents.cells_sublist.length_le
    rw [List.length_map, hshaped.allNodes.length_eq, List.length_range, hsplit,
      List.length_append] at hcount
    omega
  have hwalk : rangeFrom tree.nodes start stop tree.nodes.length (some c.id) [] =
      .ok ([] ++ (pairs (entriesOf (c :: after))).filter (inRange start stop)) :=
    rangeFrom_spec hrow.entries_sorted hstored hlinked [] hrounds
  refine ⟨(pairs (entriesOf (c :: after))).filter (inRange start stop), ?_, ?_, fun p => ?_⟩
  · rw [BPlusTree.range, require_of _ hle, ok_bind, hleaf, ok_bind]
    exact hwalk
  · exact (pairs_sorted hrow.entries_sorted).filter _
  · have hrest : entriesOf cells = entriesOf before ++ entriesOf (c :: after) := by
      simp [hsplit, entriesOf]
    rw [List.mem_filter, ← hcontents, hrest, pairs_append, List.mem_append, inRange,
      decide_eq_true_eq]
    constructor
    · rintro ⟨hmem, hbounds⟩
      exact ⟨.inr hmem, hbounds⟩
    · rintro ⟨hmem | hmem, hbounds⟩
      · obtain ⟨e, he, hkey⟩ := key_of_mem_pairs hmem
        have hbelow := hrouted.below hshaped.ordered e he
        rw [hkey] at hbelow
        exact absurd hbounds.1 hbelow.not_ge
      · exact ⟨hmem, hbounds⟩

end Operations

/-- One call on a tree. -/
inductive Call
  | insert (key : IndexKey) (id : NovaId)
  | remove (key : IndexKey) (id : NovaId)
  deriving DecidableEq

/-- Make a call on a tree. -/
def BPlusTree.apply (tree : BPlusTree) : Call → Partial BPlusTree
  | .insert key id => tree.insert key id
  | .remove key id => Prod.snd <$> tree.remove key id

/-- The pair was inserted by one of the calls and not removed by a later one. -/
def Live (calls : List Call) (p : IndexKey × NovaId) : Prop :=
  ∃ earlier later, calls = earlier ++ Call.insert p.1 p.2 :: later ∧ Call.remove p.1 p.2 ∉ later

section Live

variable {calls : List Call} {p : IndexKey × NovaId}

/-- The last call decides about its own pair and about no other. -/
theorem live_concat {call : Call} :
    Live (calls ++ [call]) p ↔
      call = .insert p.1 p.2 ∨ Live calls p ∧ call ≠ .remove p.1 p.2 := by
  constructor
  · rintro ⟨earlier, later, hcalls, hlater⟩
    rcases List.eq_nil_or_concat later with rfl | ⟨later, last, rfl⟩
    · exact .inl (List.append_inj_right' hcalls rfl |> List.singleton_inj.mp)
    · rw [List.concat_eq_append] at hcalls hlater
      have hsplit : calls ++ [call] = (earlier ++ Call.insert p.1 p.2 :: later) ++ [last] := by
        simpa using hcalls
      obtain ⟨hinitial, hlast⟩ := List.append_inj' hsplit rfl
      obtain rfl := List.singleton_inj.mp hlast
      rw [List.mem_append, not_or, List.mem_singleton] at hlater
      exact .inr ⟨⟨earlier, later, hinitial, hlater.1⟩, fun heq => hlater.2 heq.symm⟩
  · rintro (rfl | ⟨⟨earlier, later, rfl, hlater⟩, hne⟩)
    · exact ⟨calls, [], rfl, by simp⟩
    · refine ⟨earlier, later ++ [call], by simp, ?_⟩
      rw [List.mem_append, not_or, List.mem_singleton]
      exact ⟨hlater, fun heq => hne heq.symm⟩

theorem live_nil : ¬Live [] p := by
  rintro ⟨earlier, later, hcalls, -⟩
  simp at hcalls

end Live

/-- Every sequence of calls succeeds, and the tree then holds the live pairs. -/
theorem run_stores {tree : BPlusTree} (hnew : tree.Stores ∅) (calls : List Call) :
    ∃ tree', calls.foldlM BPlusTree.apply tree = .ok tree' ∧ tree'.Stores {p | Live calls p} := by
  induction calls using List.reverseRecOn with
  | nil =>
      have hnone : {p | Live [] p} = (∅ : Set (IndexKey × NovaId)) :=
        Set.eq_empty_iff_forall_notMem.mpr fun p => live_nil
      exact ⟨tree, rfl, hnone ▸ hnew⟩
  | append_singleton calls call ih =>
      obtain ⟨tree', hrun, hstores⟩ := ih
      have hstep : ∃ tree'', tree'.apply call = .ok tree'' ∧
          tree''.Stores {p | Live (calls ++ [call]) p} := by
        cases call with
        | insert key id =>
            obtain ⟨tree'', hinsert, hstores'⟩ := hstores.insert key id
            refine ⟨tree'', hinsert, ?_⟩
            convert hstores' using 1
            ext ⟨k, i⟩
            simp [live_concat, eq_comm]
        | remove key id =>
            obtain ⟨removed, tree'', hremove, -, hstores'⟩ := hstores.remove key id
            refine ⟨tree'', by simp [BPlusTree.apply, hremove], ?_⟩
            convert hstores' using 1
            ext ⟨k, i⟩
            simp [live_concat, eq_comm]
      obtain ⟨tree'', happly, hstores'⟩ := hstep
      refine ⟨tree'', ?_, hstores'⟩
      rw [List.foldlM_append, hrun]
      simp only [ok_bind, List.foldlM_cons, List.foldlM_nil, happly, pure_eq_ok]

/-- After any calls on a fresh tree: the tree passes verification, lookups and scans return exactly
the live pairs in order, and a removal says whether its pair was live. -/
theorem multimap_correct {maxKeys : Nat} {tree : BPlusTree}
    (hcreate : BPlusTree.createWithMaxKeys maxKeys = .ok tree) (calls : List Call) :
    ∃ tree', calls.foldlM BPlusTree.apply tree = .ok tree' ∧ tree'.verify = .ok () ∧
      (∀ key, ∃ ids, tree'.get key = .ok ids ∧ ids.Pairwise (· < ·) ∧
        ∀ id, id ∈ ids ↔ Live calls (key, id)) ∧
      (∀ key id, ∃ removed rest, tree'.remove key id = .ok (removed, rest) ∧
        (removed = true ↔ Live calls (key, id))) ∧
      ∀ start stop, start ≤ stop → ∃ result, tree'.range start stop = .ok result ∧
        result.Pairwise PairLt ∧
        ∀ p, p ∈ result ↔ Live calls p ∧ start ≤ p.1 ∧ p.1 ≤ stop := by
  obtain ⟨tree', hrun, hstores⟩ := run_stores (stores_createWithMaxKeys hcreate) calls
  refine ⟨tree', hrun, hstores.verify, hstores.get, fun key id => ?_, fun start stop hle => ?_⟩
  · obtain ⟨removed, rest, hremove, hpresent, -⟩ := hstores.remove key id
    exact ⟨removed, rest, hremove, hpresent⟩
  · exact hstores.range hle

/-- Enough calls to split leaves and an internal node and to empty a leaf. -/
def sampleCalls : List Call :=
  let id : NovaId := .filled 1
  [.insert (.int64 1) id, .insert (.int64 2) id, .insert (.int64 3) id, .insert (.string "a") id,
    .insert (.string "b") id, .insert (.int64 9) id, .insert (.int64 8) id, .insert (.int64 7) id,
    .insert (.string "c") id, .insert (.string "d") id, .insert (.string "e") id,
    .insert (.string "f") id, .remove (.int64 1) id, .remove (.int64 2) id]

theorem multimap_after_splits : ∃ tree',
    sampleCalls.foldlM BPlusTree.apply ⟨3, 0, [.leaf [] none], true⟩ = .ok tree' ∧
      tree'.verify = .ok () ∧
      ∃ ids, tree'.get (.int64 1) = .ok ids ∧
        ∀ id, id ∈ ids ↔ Live sampleCalls (.int64 1, id) := by
  have hcreate : BPlusTree.createWithMaxKeys 3 = .ok ⟨3, 0, [.leaf [] none], true⟩ := rfl
  obtain ⟨tree', hrun, hverify, hget, -⟩ := multimap_correct hcreate sampleCalls
  obtain ⟨ids, hids, -, hlive⟩ := hget (.int64 1)
  exact ⟨tree', hrun, hverify, ids, hids, hlive⟩

end NovaBase.Index
