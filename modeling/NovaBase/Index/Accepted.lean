import Mathlib.Data.List.Perm.Subperm
import Mathlib.Logic.Relation
import NovaBase.Index.Multimap
import NovaBase.Index.Routes

/-!
# What an accepted tree is

A tree that passes `verify` has two orders of its leaves: the one in which they
are linked, in which the keys increase, and the one in which they hang in the
tree, which decides where a lookup ends. Both have every leaf once. Nothing that
is checked relates the two where leaves are empty.
-/

namespace NovaBase.Index

open Lib

/-- The leaves of a tree, from left to right. -/
def BPlusTree.row (tree : BPlusTree) : List Route :=
  routes tree.nodes (tree.nodes.length + 1) tree.root

/-- The leaf names the other one as the next. -/
def Linked (nodes : List Node) (i j : Nat) : Prop :=
  ∃ entries, nodes[i]? = some (.leaf entries (some j))

/-- The second leaf is met when the links are followed from the first. -/
def Precedes (nodes : List Node) : Nat → Nat → Prop := Relation.TransGen (Linked nodes)

section Chain

variable {nodes : List Node}

/-- The walk along a leaf has seen keys in order, all above those before. -/
theorem order_of_verifyOrder {previous last : Option IndexKey} {entries : List LeafEntry}
    (h : verifyOrder previous entries = .ok last) :
    (entries.map Prod.fst).Pairwise (· < ·) ∧
      (∀ prior ∈ previous, ∀ e ∈ entries, prior < e.1) ∧
      ∀ key, (∀ prior ∈ last, prior < key) →
        (∀ prior ∈ previous, prior < key) ∧ ∀ e ∈ entries, e.1 < key := by
  induction entries generalizing previous with
  | nil =>
      obtain rfl : previous = last := by simpa [verifyOrder] using h
      exact ⟨List.Pairwise.nil, by simp, fun key hkey => ⟨hkey, by simp⟩⟩
  | cons entry rest ih =>
      obtain ⟨key, ids⟩ := entry
      simp only [verifyOrder, bind_eq_ok, check_eq_ok] at h
      obtain ⟨-, hprevious, hrest⟩ := h
      obtain ⟨hkeys, habove, hlast⟩ := ih hrest
      have hfirst : ∀ prior ∈ previous, prior < key := by
        rintro prior ⟨⟩
        exact of_decide_eq_true hprevious
      have hlater : ∀ e ∈ rest, key < e.1 := habove key rfl
      refine ⟨?_, fun prior hprior => ?_, fun bound hbound => ?_⟩
      · refine List.pairwise_cons.mpr ⟨fun k hk => ?_, hkeys⟩
        obtain ⟨e, he, rfl⟩ := List.mem_map.mp hk
        exact hlater e he
      · refine List.forall_mem_cons.mpr ⟨hfirst prior hprior, fun e he => ?_⟩
        exact (hfirst prior hprior).trans (hlater e he)
      · obtain ⟨hkey, hbelow⟩ := hlast bound hbound
        have hlt : key < bound := hkey key rfl
        exact ⟨fun prior hprior => (hfirst prior hprior).trans hlt,
          List.forall_mem_cons.mpr ⟨hlt, hbelow⟩⟩

/-- A chain of leaves that starts with a node, is new to the walk, and has increasing keys. -/
structure Chained (nodes : List Node) (nodeId : Nat) (seen : List Bool)
    (previous : Option IndexKey) (cells : List Cell) : Prop where
  head : cells.head?.map Cell.id = some nodeId
  stored : ∀ c ∈ cells, nodes[c.id]? = some (.leaf c.entries c.next)
  linked : LinkedTo none cells
  fresh : ∀ c ∈ cells, seen[c.id]? = some false
  nodup : (cells.map Cell.id).Nodup
  keys : ((entriesOf cells).map Prod.fst).Pairwise (· < ·)
  above : ∀ prior ∈ previous, ∀ e ∈ entriesOf cells, prior < e.1

/-- The walk along the links has followed a chain of leaves. -/
theorem chained_of_verifyChain {rounds nodeId count total : Nat} {seen : List Bool}
    {previous : Option IndexKey}
    (h : verifyChain nodes rounds nodeId seen previous count = .ok total) :
    ∃ cells, Chained nodes nodeId seen previous cells ∧ total = count + cells.length := by
  induction rounds generalizing nodeId seen previous count with
  | zero => simp [verifyChain] at h
  | succ rounds ih =>
      simp only [verifyChain, bind_eq_ok, check_eq_ok] at h
      obtain ⟨mark, hmark, -, rfl, node, hnode, h⟩ := h
      have hfresh : seen[nodeId]? = some false := indexed_eq_ok.mp hmark
      have hstored : nodes[nodeId]? = some node := indexed_eq_ok.mp hnode
      cases node with
      | internal keys children => simp at h
      | leaf entries next =>
          simp only [bind_eq_ok] at h
          obtain ⟨last, horder, h⟩ := h
          obtain ⟨hkeys, habove, hlast⟩ := order_of_verifyOrder horder
          cases next with
          | none =>
              obtain rfl : count + 1 = total := by simpa using h
              refine ⟨[⟨⊥, nodeId, entries, none⟩], ⟨rfl, by simpa using hstored, ⟨rfl, trivial⟩,
                by simpa using hfresh, by simp, by simpa [entriesOf] using hkeys,
                by simpa [entriesOf] using habove⟩, rfl⟩
          | some nextId =>
              obtain ⟨cells, hrest, rfl⟩ := ih h
              have hlt : nodeId < seen.length := (List.getElem?_eq_some_iff.mp hfresh).1
              have hother : ∀ c ∈ cells, nodeId ≠ c.id := by
                rintro c hc rfl
                have hseen := hrest.fresh c hc
                simp [hlt] at hseen
              have hbelow : ∀ e ∈ entries, ∀ f ∈ entriesOf cells, e.1 < f.1 := fun e he f hf =>
                (hlast f.1 fun prior hprior => hrest.above prior hprior f hf).2 e he
              refine ⟨⟨⊥, nodeId, entries, some nextId⟩ :: cells, ⟨rfl, ?_, ?_, ?_, ?_, ?_, ?_⟩, ?_⟩
              · exact List.forall_mem_cons.mpr ⟨hstored, hrest.stored⟩
              · refine ⟨?_, hrest.linked⟩
                rw [hrest.head]
                rfl
              · refine List.forall_mem_cons.mpr ⟨hfresh, fun c hc => ?_⟩
                have hseen := hrest.fresh c hc
                rwa [List.getElem?_set_ne (hother c hc)] at hseen
              · refine List.nodup_cons.mpr ⟨fun hmem => ?_, hrest.nodup⟩
                obtain ⟨c, hc, hsame⟩ := List.mem_map.mp hmem
                exact hother c hc hsame.symm
              · rw [entriesOf, List.flatMap_cons, List.map_append]
                refine List.pairwise_append.mpr ⟨hkeys, hrest.keys, fun k hk l hl => ?_⟩
                obtain ⟨e, he, rfl⟩ := List.mem_map.mp hk
                obtain ⟨f, hf, rfl⟩ := List.mem_map.mp hl
                exact hbelow e he f hf
              · intro prior hprior
                refine List.forall_mem_append.mpr ⟨habove prior hprior, fun f hf => ?_⟩
                exact (hlast f.1 fun last hl => hrest.above last hl f hf).1 prior hprior
              · rw [List.length_cons]
                omega

theorem linked_iff {c : Cell} {after : List Cell}
    (hstored : nodes[c.id]? = some (.leaf c.entries c.next)) (hlinked : LinkedTo none (c :: after))
    (i : Nat) : Linked nodes c.id i ↔ after.head?.map Cell.id = some i := by
  have hnext : c.next = after.head?.map Cell.id := by simpa using hlinked.1
  rw [Linked, hstored, ← hnext]
  constructor
  · rintro ⟨entries, hsame⟩
    exact (Node.leaf.inj (Option.some.inj hsame)).2
  · intro hsame
    exact ⟨c.entries, by rw [hsame]⟩

/-- The leaves that follow one in a chain are those behind it. -/
theorem precedes_iff {c : Cell} {after : List Cell}
    (hstored : ∀ d ∈ c :: after, nodes[d.id]? = some (.leaf d.entries d.next))
    (hlinked : LinkedTo none (c :: after)) (j : Nat) :
    Precedes nodes c.id j ↔ ∃ d ∈ after, d.id = j := by
  induction after generalizing c with
  | nil =>
      refine iff_of_false (fun hpath => ?_) (by simp)
      obtain ⟨i, hfirst, -⟩ := Relation.TransGen.head'_iff.mp hpath
      simp [linked_iff (hstored c List.mem_cons_self) hlinked] at hfirst
  | cons d rest ih =>
      have hrest : Precedes nodes d.id j ↔ ∃ e ∈ rest, e.id = j :=
        ih (fun e he => hstored e (List.mem_cons_of_mem _ he)) hlinked.2
      have hfirst : ∀ i, Linked nodes c.id i ↔ i = d.id := by
        intro i
        rw [linked_iff (hstored c List.mem_cons_self) hlinked]
        simp [eq_comm]
      calc Precedes nodes c.id j
          ↔ ∃ i, Linked nodes c.id i ∧ Relation.ReflTransGen (Linked nodes) i j :=
            Relation.TransGen.head'_iff
        _ ↔ j = d.id ∨ Precedes nodes d.id j := by
            simp only [hfirst, exists_eq_left, Relation.reflTransGen_iff_eq_or_transGen]
            rfl
        _ ↔ ∃ e ∈ d :: rest, e.id = j := by
            rw [hrest, List.exists_mem_cons_iff, eq_comm]

end Chain

/-- What `verify` has established of a tree with a chain of leaves. -/
structure Accepted (tree : BPlusTree) (chain : List Cell) : Prop where
  stored : ∀ x ∈ tree.row, tree.nodes[x.id]? = some (.leaf x.entries x.next)
  nodup : (tree.row.map Route.id).Nodup
  sorted : ∀ x ∈ tree.row, Sorted x.entries
  ordered : tree.row.Pairwise Route.Before
  covered : ∀ {i entries next}, tree.nodes[i]? = some (.leaf entries next) →
    ∃ x ∈ tree.row, x.id = i
  found : ∀ key, ∃ x ∈ tree.row, x.Admits key ∧ tree.findLeaf key = .ok x.id
  chained : ∃ start seen, Chained tree.nodes start seen none chain
  linkedAll : ∀ {i entries next}, tree.nodes[i]? = some (.leaf entries next) →
    ∃ c ∈ chain, c.id = i
  length : chain.length ≤ tree.nodes.length

/-- A tree that passes the check has a chain of leaves that reaches every one of them. -/
theorem accepted_of_verify {tree : BPlusTree} {u : Unit} (h : tree.verify = .ok u) :
    ∃ chain, Accepted tree chain := by
  simp only [BPlusTree.verify, bind_eq_ok, check_eq_ok] at h
  obtain ⟨-, -, h⟩ := h
  split at h
  · simp at h
  simp only [bind_eq_ok, check_eq_ok, BPlusTree.verifyLeafChain] at h
  obtain ⟨⟨depth, visited⟩, hnodes, -, hall, first, -, count, hchain, hcount⟩ := h
  obtain ⟨hexplored, hfind⟩ := explored_of_verifyNode hnodes
  obtain ⟨chain, hchained, htotal⟩ := chained_of_verifyChain hchain
  rw [Nat.zero_add] at htotal
  have hleaves : tree.nodes.countP Node.isLeaf =
      ((List.range tree.nodes.length).filter fun i => tree.nodes[i]?.any Node.isLeaf).length := by
    rw [← countP_range_leaves, List.countP_eq_length_filter]
  have hcovers : (chain.map Cell.id).Perm
      ((List.range tree.nodes.length).filter fun i => tree.nodes[i]?.any Node.isLeaf) := by
    refine (List.subperm_of_subset hchained.nodup fun i hi => ?_).perm_of_length_le ?_
    · obtain ⟨c, hc, rfl⟩ := List.mem_map.mp hi
      have hstored := hchained.stored c hc
      refine List.mem_filter.mpr ⟨List.mem_range.mpr (List.getElem?_eq_some_iff.mp hstored).1, ?_⟩
      simp [hstored, Node.isLeaf]
    · rw [← hleaves, ← hcount, htotal, List.length_map]
  refine ⟨chain, hexplored.stored, hexplored.nodup, hexplored.sorted, hexplored.ordered,
    fun {i entries next} hleaf => ?_, fun key => ?_, ⟨_, _, hchained⟩,
    fun {i entries next} hleaf => ?_, ?_⟩
  · have hlt : i < visited.length := by
      rw [hexplored.length, List.length_replicate]
      exact (List.getElem?_eq_some_iff.mp hleaf).1
    have htrue : visited[i]? = some true := by
      rw [List.getElem?_eq_getElem hlt]
      exact congrArg some (List.all_eq_true.mp hall _ (List.getElem_mem hlt))
    rw [hexplored.marked hleaf] at htrue
    split at htrue
    · rename_i hmem
      exact List.mem_map.mp hmem
    · simp [List.getElem?_replicate] at htrue
  · exact hfind key tree.nodes.length (by simp)
  · have hmem : i ∈ (List.range tree.nodes.length).filter
        fun i => tree.nodes[i]?.any Node.isLeaf := by
      refine List.mem_filter.mpr ⟨List.mem_range.mpr (List.getElem?_eq_some_iff.mp hleaf).1, ?_⟩
      simp [hleaf, Node.isLeaf]
    exact List.mem_map.mp (hcovers.mem_iff.mpr hmem)
  · rw [← htotal, hcount]
    exact List.countP_le_length

end NovaBase.Index
