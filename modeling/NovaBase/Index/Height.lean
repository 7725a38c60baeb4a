import Mathlib.Algebra.GroupWithZero.Nat
import Mathlib.Algebra.Order.BigOperators.Group.List
import Mathlib.Data.Nat.Log
import NovaBase.Index.Multimap

/-!
# The height of the tree

A split leaves every internal node but the root with at least half of the children
it has room for, and nothing takes them away again. A leaf is only added when one
has overflowed. So the height is at most logarithmic in the number of insertions,
and this bounds every walk from the root.
-/

namespace NovaBase.Index

open Lib

/-- The least number of children of an internal node that is not the root. -/
def minChildren (maxKeys : Nat) : Nat := (maxKeys + 1) / 2

/-- The node has no more keys than it may, and a child on either side of each separator. -/
def Node.Fits (maxKeys : Nat) : Node → Prop
  | .leaf entries _ => entries.length ≤ maxKeys
  | .internal keys children => keys.length ≤ maxKeys ∧ children.length = keys.length + 1

/-- An internal node has its least number of children. -/
def Node.Filled (maxKeys : Nat) : Node → Prop
  | .leaf _ _ => True
  | .internal _ children => minChildren maxKeys ≤ children.length

/-- What a node counts for. A leaf counts for its entries, but at least for half of its capacity. -/
def Node.weight (maxKeys : Nat) : Node → Nat
  | .leaf entries _ => max (minChildren maxKeys) entries.length
  | .internal _ _ => 0

/-- What all nodes count for. -/
def weight (maxKeys : Nat) (nodes : List Node) : Nat := (nodes.map (Node.weight maxKeys)).sum

/-- Every node fits, and every internal node outside `exempt` has enough children. -/
structure Occupied (maxKeys : Nat) (exempt : Set Nat) (nodes : List Node) : Prop where
  fits : ∀ (i : Nat) (node : Node), nodes[i]? = some node → node.Fits maxKeys
  filled : ∀ (i : Nat) (node : Node), nodes[i]? = some node → i ∉ exempt → node.Filled maxKeys

section Nodes

variable {maxKeys i : Nat} {exempt exempt' : Set Nat} {nodes : List Node} {node old : Node}

theorem Occupied.mono (h : Occupied maxKeys exempt nodes) (hsub : exempt ⊆ exempt') :
    Occupied maxKeys exempt' nodes where
  fits := h.fits
  filled i node hnode hi := h.filled i node hnode fun hmem => hi (hsub hmem)

/-- A node that is written must fit, and be filled unless it is exempt. -/
theorem Occupied.set (h : Occupied maxKeys exempt nodes) (hfits : node.Fits maxKeys)
    (hfilled : i ∈ exempt' ∨ node.Filled maxKeys) (hsub : ∀ j ∈ exempt, j = i ∨ j ∈ exempt') :
    Occupied maxKeys exempt' (nodes.set i node) := by
  constructor
  · intro j found hfound
    rw [List.getElem?_set] at hfound
    split at hfound
    · split at hfound
      · exact Option.some.inj hfound ▸ hfits
      · cases hfound
    · exact h.fits j found hfound
  · intro j found hfound hj
    rw [List.getElem?_set] at hfound
    split at hfound
    · rename_i hsame
      subst hsame
      split at hfound
      · exact Option.some.inj hfound ▸ hfilled.resolve_left hj
      · cases hfound
    · rename_i hother
      refine h.filled j found hfound fun hmem => ?_
      rcases hsub j hmem with hsame | hexempt
      · exact hother hsame.symm
      · exact hj hexempt

/-- A new node must fit, and be filled unless it is exempt. -/
theorem Occupied.append (h : Occupied maxKeys exempt nodes) (hfits : node.Fits maxKeys)
    (hfilled : nodes.length ∈ exempt ∨ node.Filled maxKeys) :
    Occupied maxKeys exempt (nodes ++ [node]) := by
  have hlast : ∀ j found, (nodes ++ [node])[j]? = some found →
      nodes[j]? = some found ∨ j = nodes.length ∧ found = node := by
    intro j found hfound
    rcases Nat.lt_trichotomy j nodes.length with hlt | rfl | hgt
    · rw [List.getElem?_append_left hlt] at hfound
      exact .inl hfound
    · rw [List.getElem?_concat_length] at hfound
      exact .inr ⟨rfl, (Option.some.inj hfound).symm⟩
    · rw [List.getElem?_eq_none (by simp; omega)] at hfound
      cases hfound
  constructor
  · intro j found hfound
    rcases hlast j found hfound with hold | ⟨-, rfl⟩
    · exact h.fits j found hold
    · exact hfits
  · intro j found hfound hj
    rcases hlast j found hfound with hold | ⟨rfl, rfl⟩
    · exact h.filled j found hold hj
    · exact hfilled.resolve_left hj

/-- Writing a node exchanges its weight for that of the old one. -/
theorem weight_set (hold : nodes[i]? = some old) :
    weight maxKeys (nodes.set i node) + old.weight maxKeys =
      weight maxKeys nodes + node.weight maxKeys := by
  obtain ⟨hlt, rfl⟩ := List.getElem?_eq_some_iff.mp hold
  have hnodes : nodes = nodes.take i ++ nodes[i] :: nodes.drop (i + 1) := by
    rw [List.getElem_cons_drop, List.take_append_drop]
  rw [List.set_eq_take_append_cons_drop, if_pos hlt]
  nth_rewrite 4 [hnodes]
  simp only [weight, List.map_append, List.map_cons, List.sum_append, List.sum_cons]
  omega

theorem weight_set_le (hnode : node.weight maxKeys = 0) :
    weight maxKeys (nodes.set i node) ≤ weight maxKeys nodes := by
  cases hold : nodes[i]? with
  | none => rw [List.set_eq_of_length_le (List.getElem?_eq_none_iff.mp hold)]
  | some old =>
      have hset := @weight_set maxKeys i nodes node old hold
      omega

theorem weight_append : weight maxKeys (nodes ++ [node]) =
    weight maxKeys nodes + node.weight maxKeys := by
  simp [weight]

/-- Every leaf counts for half of its capacity. -/
theorem leaves_le_weight :
    minChildren maxKeys * nodes.countP Node.isLeaf ≤ weight maxKeys nodes := by
  induction nodes with
  | nil => simp [weight]
  | cons node rest ih =>
      rw [weight, List.map_cons, List.sum_cons, List.countP_cons]
      rw [weight] at ih
      cases node with
      | internal keys children => simpa [Node.isLeaf, Node.weight] using ih
      | leaf entries next =>
          have hleaf : minChildren maxKeys ≤ max (minChildren maxKeys) entries.length :=
            le_max_left _ _
          simp only [Node.isLeaf, if_true, Node.weight, Nat.mul_add, Nat.mul_one]
          omega

end Nodes

section Insertion

variable {maxKeys rounds nodeId : Nat} {exempt : Set Nat} {nodes nodes' : List Node}
  {key : IndexKey} {id : NovaId} {split : Option (IndexKey × Nat)}

theorem length_insertEntry {entries entries' : List LeafEntry}
    (h : insertEntry entries key id = .ok (some entries')) :
    entries'.length ≤ entries.length + 1 := by
  unfold insertEntry at h
  split at h
  · obtain ⟨⟨found, ids⟩, -, h⟩ := bind_eq_ok.mp h
    dsimp only at h
    split at h
    · cases h
    · cases h
      simp
  · cases h
    rw [List.length_insertIdx]
    split <;> omega

theorem length_removeEntry {entries entries' : List LeafEntry}
    (h : removeEntry entries key id = .ok (some entries')) : entries'.length ≤ entries.length := by
  unfold removeEntry at h
  split at h
  · cases h
  · obtain ⟨⟨found, ids⟩, -, h⟩ := bind_eq_ok.mp h
    dsimp only at h
    split at h
    · cases h
    · split at h
      · cases h
        exact List.length_eraseIdx_le _ _
      · cases h
        simp

/-- The nodes that are still exempt after an insertion below a node. One that splits is not. -/
def stillExempt (exempt : Set Nat) (nodeId : Nat) (split : Option (IndexKey × Nat)) : Set Nat :=
  {i | i ∈ exempt ∧ (split.isSome → i ≠ nodeId)}

theorem mem_of_stillExempt : stillExempt exempt nodeId split ⊆ exempt := fun _ h => h.1

theorem mem_stillExempt_none {j : Nat} (hj : j ∈ exempt) : j ∈ stillExempt exempt nodeId none :=
  ⟨hj, fun h => absurd h Bool.false_ne_true⟩

/-- A leaf that has room takes one more entry. -/
theorem Occupied.setLeaf (h : Occupied maxKeys exempt nodes) {entries entries' : List LeafEntry}
    {next : Option Nat} (hnode : nodes[nodeId]? = some (.leaf entries next))
    (hlength : entries'.length ≤ entries.length + 1) (hroom : entries'.length ≤ maxKeys) :
    Occupied maxKeys (stillExempt exempt nodeId none) (nodes.set nodeId (.leaf entries' next)) ∧
      weight maxKeys (nodes.set nodeId (.leaf entries' next)) ≤ weight maxKeys nodes + 1 := by
  constructor
  · exact h.set hroom (.inr trivial) fun j hj => .inr (mem_stillExempt_none hj)
  · have hset := @weight_set maxKeys nodeId nodes (.leaf entries' next) _ hnode
    simp only [Node.weight] at hset
    omega

theorem mem_stillExempt_of_ne {separator : IndexKey × Nat} {j : Nat} (hj : j ∈ exempt) :
    j = nodeId ∨ j ∈ stillExempt exempt nodeId (some separator) := by
  by_cases hsame : j = nodeId
  · exact .inl hsame
  · exact .inr ⟨hj, fun _ => hsame⟩

/-- A leaf that has overflowed gives half of its entries to a new leaf. -/
theorem Occupied.splitLeaf (hodd : maxKeys % 2 = 1) (h : Occupied maxKeys exempt nodes)
    {entries entries' : List LeafEntry} {next : Option Nat} {separator : IndexKey × Nat}
    (hnode : nodes[nodeId]? = some (.leaf entries next))
    (hlength : entries'.length ≤ entries.length + 1) (hfull : ¬entries'.length ≤ maxKeys)
    (right : Nat) :
    let nodes' := nodes.set nodeId
      (.leaf (entries'.take (entries'.length / 2)) (some right)) ++
        [.leaf (entries'.drop (entries'.length / 2)) next]
    Occupied maxKeys (stillExempt exempt nodeId (some separator)) nodes' ∧
      weight maxKeys nodes' ≤ weight maxKeys nodes + 1 := by
  intro nodes'
  have hfits : entries.length ≤ maxKeys := h.fits nodeId _ hnode
  have hleft : (entries'.take (entries'.length / 2)).length = minChildren maxKeys := by
    rw [List.length_take, minChildren]
    omega
  have hright : (entries'.drop (entries'.length / 2)).length = minChildren maxKeys := by
    rw [List.length_drop, minChildren]
    omega
  have hhalf : minChildren maxKeys ≤ maxKeys := by
    rw [minChildren]
    omega
  constructor
  · apply Occupied.append
    · exact h.set (hleft.le.trans hhalf) (.inr trivial) fun j => mem_stillExempt_of_ne
    · exact hright.le.trans hhalf
    · exact .inr trivial
  · have hset := @weight_set maxKeys nodeId nodes
      (.leaf (entries'.take (entries'.length / 2)) (some right)) _ hnode
    have hsum : weight maxKeys nodes' = weight maxKeys (nodes.set nodeId
        (.leaf (entries'.take (entries'.length / 2)) (some right))) + _ := weight_append
    simp only [Node.weight, hleft, hright, max_self, minChildren] at hset hsum
    omega

/-- A split adds at most one key and one child to the node above it. -/
theorem length_addChild {keys : List IndexKey} {children : List Nat} {index : Nat}
    (hlength : children.length = keys.length + 1) (hindex : index < children.length) :
    (addChild keys children index split).1.length ≤ keys.length + 1 ∧
      (addChild keys children index split).2.length =
        (addChild keys children index split).1.length + 1 ∧
      children.length ≤ (addChild keys children index split).2.length := by
  cases split with
  | none => exact ⟨Nat.le_succ _, hlength, le_rfl⟩
  | some separator =>
      have hkeys : (keys.insertIdx index separator.1).length = keys.length + 1 :=
        List.length_insertIdx_of_le_length (by omega) _
      have hchildren : (children.insertIdx (index + 1) separator.2).length = children.length + 1 :=
        List.length_insertIdx_of_le_length hindex _
      simp only [addChild]
      omega

/-- An internal node that is full gives half of its children to a new node. -/
theorem Occupied.splitInternal (hodd : maxKeys % 2 = 1) (h : Occupied maxKeys exempt nodes)
    {keys : List IndexKey} {children : List Nat} (nodeId : Nat) (separator : IndexKey × Nat)
    (hlength : keys.length ≤ maxKeys + 1) (hchildren : children.length = keys.length + 1)
    (hfull : ¬keys.length ≤ maxKeys) :
    let nodes' := nodes.set nodeId
      (.internal (keys.take (keys.length / 2)) (children.take (keys.length / 2 + 1))) ++
        [.internal (keys.drop (keys.length / 2 + 1)) (children.drop (keys.length / 2 + 1))]
    Occupied maxKeys (stillExempt exempt nodeId (some separator)) nodes' ∧
      weight maxKeys nodes' ≤ weight maxKeys nodes := by
  intro nodes'
  constructor
  · apply Occupied.append
    · apply h.set
      · constructor
        · rw [List.length_take]
          omega
        · rw [List.length_take, List.length_take]
          omega
      · right
        rw [Node.Filled, minChildren, List.length_take]
        omega
      · exact fun j => mem_stillExempt_of_ne
    · constructor
      · rw [List.length_drop]
        omega
      · rw [List.length_drop, List.length_drop]
        omega
    · right
      rw [Node.Filled, minChildren, List.length_drop]
      omega
  · have hsum : weight maxKeys nodes' = _ := weight_append
    rw [hsum, Node.weight, Nat.add_zero]
    exact weight_set_le rfl

/-- An insertion keeps the nodes occupied, and they count for at most one more. -/
theorem Occupied.insertNode (hodd : maxKeys % 2 = 1) (h : Occupied maxKeys exempt nodes)
    (hinsert : Index.insertNode maxKeys rounds nodes nodeId key id = .ok (nodes', split)) :
    Occupied maxKeys (stillExempt exempt nodeId split) nodes' ∧
      weight maxKeys nodes' ≤ weight maxKeys nodes + 1 := by
  induction rounds generalizing nodes nodeId exempt nodes' split with
  | zero => cases hinsert
  | succ rounds ih =>
      rw [Index.insertNode] at hinsert
      obtain ⟨node, hnode, hinsert⟩ := bind_eq_ok.mp hinsert
      rw [indexed_eq_ok] at hnode
      have hfits := h.fits nodeId node hnode
      cases node with
      | leaf entries next =>
          obtain ⟨found, hfound, hinsert⟩ := bind_eq_ok.mp hinsert
          cases found with
          | none =>
              cases hinsert
              exact ⟨h.mono fun i hi => mem_stillExempt_none hi, Nat.le_succ _⟩
          | some entries' =>
              have hlength := length_insertEntry hfound
              simp only at hinsert
              split at hinsert
              · rename_i hroom
                cases hinsert
                exact h.setLeaf hnode hlength hroom
              · rename_i hfull
                obtain ⟨⟨separator, ids⟩, -, hinsert⟩ := bind_eq_ok.mp hinsert
                cases hinsert
                exact h.splitLeaf hodd hnode hlength hfull nodes.length
      | internal keys children =>
          obtain ⟨child, hchild, hinsert⟩ := bind_eq_ok.mp hinsert
          obtain ⟨⟨below, lower⟩, hbelow, hinsert⟩ := bind_eq_ok.mp hinsert
          obtain ⟨hoccupied, hweight⟩ := ih h hbelow
          rw [indexed_eq_ok] at hchild
          have hindex := (List.getElem?_eq_some_iff.mp hchild).1
          obtain ⟨hkeys, hchildren, hgrown⟩ := @length_addChild lower _ _ _ hfits.2 hindex
          have hstill := hoccupied.mono mem_of_stillExempt
          simp only at hinsert
          split at hinsert
          · rename_i hroom
            cases hinsert
            refine ⟨hstill.set ⟨hroom, hchildren⟩ ?_ fun j hj => .inr (mem_stillExempt_none hj),
              ?_⟩
            · by_cases hexempt : nodeId ∈ exempt
              · exact .inl (mem_stillExempt_none hexempt)
              · exact .inr ((h.filled nodeId _ hnode hexempt).trans hgrown)
            · exact (weight_set_le rfl).trans hweight
          · rename_i hfull
            split at hinsert
            · cases hinsert
            · rename_i separator _
              obtain ⟨-, -, hinsert⟩ := bind_eq_ok.mp hinsert
              cases hinsert
              have hsplit := hstill.splitInternal hodd nodeId (separator, below.length)
                (hkeys.trans (Nat.add_le_add_right hfits.1 1)) hchildren hfull
              exact ⟨hsplit.1, hsplit.2.trans hweight⟩

end Insertion

section Trees

variable {maxKeys height : Nat} {tree tree' : BPlusTree} {nodes : List Node} {b : Branch}

/-- Branches with so many leaves each have that many times their number together. -/
theorem length_leaves {branches : List Branch} {least : Nat}
    (h : ∀ x ∈ branches, least ≤ x.cells.length) :
    branches.length * least ≤ (branches.flatMap Branch.cells).length := by
  rw [List.length_flatMap]
  have hsum := List.card_nsmul_le_sum (branches.map fun x => x.cells.length) least
    (by simpa using h)
  rwa [List.length_map, Nat.nsmul_eq_mul] at hsum

/-- A subtree of filled nodes has as many leaves as its height asks for. -/
theorem Occupied.leaves (h : Occupied maxKeys {i | i ∉ b.ids} nodes)
    (hb : Represents maxKeys nodes height b) : minChildren maxKeys ^ height ≤ b.cells.length := by
  induction height generalizing b with
  | zero =>
      obtain ⟨entries, next, -, hcells, -⟩ := hb
      simp [hcells]
  | succ height ih =>
      obtain ⟨keys, branches, hnode, -, -, -, hbranches, hcells, hids⟩ := hb
      have hfilled : minChildren maxKeys ≤ (branches.map Branch.child).length :=
        h.filled _ _ hnode (by simp [hids])
      have hbelow : ∀ x ∈ branches, minChildren maxKeys ^ height ≤ x.cells.length := by
        intro x hx
        refine ih (h.mono fun i hi hmem => hi ?_) (hbranches x hx)
        rw [hids]
        exact List.mem_cons_of_mem _ (List.mem_flatMap.mpr ⟨x, hx, hmem⟩)
      rw [List.length_map] at hfilled
      calc minChildren maxKeys ^ (height + 1)
          = minChildren maxKeys * minChildren maxKeys ^ height := Nat.pow_succ'
        _ ≤ branches.length * minChildren maxKeys ^ height := Nat.mul_le_mul_right _ hfilled
        _ ≤ b.cells.length := by
            rw [hcells]
            exact length_leaves hbelow

/-- The root may have fewer children, but at least two. -/
theorem Occupied.leaves_root (h : Occupied maxKeys {b.child} nodes) (hnodup : b.ids.Nodup)
    (hb : Represents maxKeys nodes (height + 1) b) :
    2 * minChildren maxKeys ^ height ≤ b.cells.length := by
  obtain ⟨keys, branches, hnode, hlower, hne, -, hbranches, hcells, hids⟩ := hb
  have hroot : b.child ∉ branches.flatMap Branch.ids := by
    rw [hids] at hnodup
    exact (List.nodup_cons.mp hnodup).1
  have hbelow : ∀ x ∈ branches, minChildren maxKeys ^ height ≤ x.cells.length := by
    intro x hx
    refine Occupied.leaves (h.mono ?_) (hbranches x hx)
    rintro _ rfl hmem
    exact hroot (List.mem_flatMap.mpr ⟨x, hx, hmem⟩)
  have htwo : 2 ≤ branches.length := by
    have hlength := congrArg List.length hlower
    rw [List.length_map, List.length_cons, List.length_map] at hlength
    have hpos := List.length_pos_of_ne_nil hne
    omega
  rw [hcells]
  exact (Nat.mul_le_mul_right _ htwo).trans (length_leaves hbelow)

/-- The walks of a tree are as long as what its nodes count for allows. -/
theorem Shaped.height_le {cells : List Cell} {ids : List Nat} (h : Shaped tree height cells ids)
    (hoccupied : Occupied tree.maxKeys {tree.root} tree.nodes) {insertions : Nat}
    (hweight : weight tree.maxKeys tree.nodes ≤ minChildren tree.maxKeys + insertions) :
    height ≤ Nat.log (minChildren tree.maxKeys) insertions := by
  cases height with
  | zero => exact Nat.zero_le _
  | succ height =>
      have hleaves : minChildren tree.maxKeys * cells.length ≤ weight tree.maxKeys tree.nodes := by
        have hcount := h.represents.countP_leaves
        rw [h.allNodes.countP_eq, countP_range_leaves] at hcount
        exact hcount ▸ leaves_le_weight
      have hroot : 2 * minChildren tree.maxKeys ^ height ≤ cells.length :=
        hoccupied.leaves_root h.nodup h.represents
      have hpow : 2 * minChildren tree.maxKeys ^ (height + 1) ≤
          minChildren tree.maxKeys + insertions := by
        calc 2 * minChildren tree.maxKeys ^ (height + 1)
            = minChildren tree.maxKeys * (2 * minChildren tree.maxKeys ^ height) := by
              rw [Nat.pow_succ', Nat.mul_left_comm]
          _ ≤ minChildren tree.maxKeys * cells.length := Nat.mul_le_mul_left _ hroot
          _ ≤ minChildren tree.maxKeys + insertions := hleaves.trans hweight
      have hleast : minChildren tree.maxKeys ≤ minChildren tree.maxKeys ^ (height + 1) :=
        Nat.le_self_pow (Nat.succ_ne_zero _) _
      have hvalid := h.minMaxKeys_le
      have htwo : 1 < minChildren tree.maxKeys := by
        rw [minMaxKeys] at hvalid
        rw [minChildren]
        omega
      apply Nat.le_log_of_pow_le htwo
      omega

/-- An insertion keeps the nodes filled, the root apart. -/
theorem Occupied.insert (hodd : tree.maxKeys % 2 = 1) (hmax : 1 ≤ tree.maxKeys)
    (h : Occupied tree.maxKeys {tree.root} tree.nodes) {key : IndexKey} {id : NovaId}
    (hinsert : tree.insert key id = .ok tree') :
    tree'.maxKeys = tree.maxKeys ∧ Occupied tree.maxKeys {tree'.root} tree'.nodes ∧
      weight tree.maxKeys tree'.nodes ≤ weight tree.maxKeys tree.nodes + 1 := by
  obtain ⟨⟨nodes, split⟩, hbelow, hinsert⟩ := bind_eq_ok.mp hinsert
  obtain ⟨hoccupied, hweight⟩ := h.insertNode hodd hbelow
  cases split with
  | none =>
      cases hinsert
      exact ⟨rfl, hoccupied.mono mem_of_stillExempt, hweight⟩
  | some separator =>
      cases hinsert
      refine ⟨rfl, ?_, ?_⟩
      · apply Occupied.append
        · exact hoccupied.mono fun i hi => absurd hi.1 (hi.2 rfl)
        · exact ⟨hmax, rfl⟩
        · exact .inl rfl
      · exact weight_append.le.trans hweight

/-- A removal takes no node away. -/
theorem Occupied.remove (h : Occupied tree.maxKeys {tree.root} tree.nodes) {key : IndexKey}
    {id : NovaId} {removed : Bool} (hremove : tree.remove key id = .ok (removed, tree')) :
    tree'.maxKeys = tree.maxKeys ∧ Occupied tree.maxKeys {tree'.root} tree'.nodes ∧
      weight tree.maxKeys tree'.nodes ≤ weight tree.maxKeys tree.nodes := by
  obtain ⟨leaf, -, hremove⟩ := bind_eq_ok.mp hremove
  obtain ⟨node, hnode, hremove⟩ := bind_eq_ok.mp hremove
  rw [indexed_eq_ok] at hnode
  have hfits := h.fits leaf node hnode
  cases node with
  | internal keys children => cases hremove
  | leaf entries next =>
      obtain ⟨found, hfound, hremove⟩ := bind_eq_ok.mp hremove
      cases found with
      | none =>
          cases hremove
          exact ⟨rfl, h, le_rfl⟩
      | some entries' =>
          cases hremove
          have hlength := length_removeEntry hfound
          refine ⟨rfl, h.set (hlength.trans hfits) (.inr trivial) fun j hj => .inr hj, ?_⟩
          change weight tree.maxKeys (tree.nodes.set leaf (.leaf entries' next)) ≤ _
          have hset := @weight_set tree.maxKeys leaf tree.nodes (.leaf entries' next) _ hnode
          simp only [Node.weight] at hset
          omega

end Trees

/-- How many of the calls insert. -/
def insertions (calls : List Call) : Nat :=
  calls.countP fun
    | .insert _ _ => true
    | .remove _ _ => false

section Runs

variable {tree tree' : BPlusTree} {maxKeys : Nat}

/-- So the nodes are filled after any calls. -/
theorem Occupied.run (hodd : tree.maxKeys % 2 = 1) (hmax : 1 ≤ tree.maxKeys)
    (h : Occupied tree.maxKeys {tree.root} tree.nodes) (calls : List Call)
    (hrun : calls.foldlM BPlusTree.apply tree = .ok tree') :
    tree'.maxKeys = tree.maxKeys ∧ Occupied tree.maxKeys {tree'.root} tree'.nodes ∧
      weight tree.maxKeys tree'.nodes ≤ weight tree.maxKeys tree.nodes + insertions calls := by
  induction calls generalizing tree with
  | nil =>
      cases hrun
      exact ⟨rfl, h, Nat.le_add_right _ _⟩
  | cons call calls ih =>
      rw [List.foldlM_cons] at hrun
      obtain ⟨next, happly, hrest⟩ := bind_eq_ok.mp hrun
      cases call with
      | insert key id =>
          obtain ⟨hsame, hnext, hweight⟩ := h.insert hodd hmax happly
          rw [← hsame] at hodd hmax hnext hweight ⊢
          obtain ⟨hlast, hoccupied, hle⟩ := ih hodd hmax hnext hrest
          refine ⟨hlast, hoccupied, ?_⟩
          simp only [insertions, List.countP_cons, if_true] at hle ⊢
          omega
      | remove key id =>
          obtain ⟨removed, hremove⟩ : ∃ removed, tree.remove key id = .ok (removed, next) := by
            rw [BPlusTree.apply] at happly
            cases hremove : tree.remove key id with
            | error cause =>
                rw [hremove] at happly
                cases happly
            | ok result =>
                rw [hremove] at happly
                cases happly
                exact ⟨result.1, rfl⟩
          obtain ⟨hsame, hnext, hweight⟩ := h.remove hremove
          rw [← hsame] at hodd hmax hnext hweight ⊢
          obtain ⟨hlast, hoccupied, hle⟩ := ih hodd hmax hnext hrest
          refine ⟨hlast, hoccupied, ?_⟩
          simp only [insertions, List.countP_cons] at hle ⊢
          exact hle.trans (Nat.add_le_add_right hweight _)

/-- A walk that ends does so at the same leaf, however many rounds it is given. -/
theorem findLeafFrom_unique {nodes : List Node} {key : IndexKey} {rounds rounds' i leaf leaf' : Nat}
    (h : findLeafFrom nodes key rounds i = .ok leaf)
    (h' : findLeafFrom nodes key rounds' i = .ok leaf') : leaf = leaf' := by
  induction rounds generalizing rounds' i with
  | zero => cases h
  | succ rounds ih =>
      cases rounds' with
      | zero => cases h'
      | succ rounds' =>
          obtain ⟨node, hnode, h⟩ := bind_eq_ok.mp h
          obtain ⟨_, hsame, h'⟩ := bind_eq_ok.mp h'
          cases hnode.symm.trans hsame
          cases node with
          | leaf entries next =>
              cases h
              cases h'
              rfl
          | internal keys children =>
              obtain ⟨child, hchild, h⟩ := bind_eq_ok.mp h
              obtain ⟨_, hsame, h'⟩ := bind_eq_ok.mp h'
              cases hchild.symm.trans hsame
              exact ih h h'

/-- A fresh tree is one leaf, which counts for half of its capacity. -/
theorem occupied_createWithMaxKeys (hcreate : BPlusTree.createWithMaxKeys maxKeys = .ok tree) :
    tree.maxKeys = maxKeys ∧ maxKeys % 2 = 1 ∧ 1 ≤ maxKeys ∧
      Occupied maxKeys {tree.root} tree.nodes ∧
        weight maxKeys tree.nodes = minChildren maxKeys := by
  obtain ⟨_, hvalid, htree⟩ := bind_eq_ok.mp hcreate
  cases htree
  obtain ⟨hmin, hodd, -⟩ := require_eq_ok.mp hvalid
  rw [minMaxKeys] at hmin
  refine ⟨rfl, by omega, by omega, ⟨?_, ?_⟩, ?_⟩
  · intro i node hnode
    obtain rfl := List.mem_singleton.mp (List.mem_of_getElem? hnode)
    exact Nat.zero_le _
  · intro i node hnode _
    obtain rfl := List.mem_singleton.mp (List.mem_of_getElem? hnode)
    trivial
  · simp [weight, Node.weight]

/-- After any calls on a fresh tree, the walk from the root to a leaf and that of an insertion end
within one round more than the logarithm of the number of insertions. -/
theorem walks_are_short (hcreate : BPlusTree.createWithMaxKeys maxKeys = .ok tree)
    (calls : List Call) :
    ∃ tree', calls.foldlM BPlusTree.apply tree = .ok tree' ∧
      let rounds := Nat.log (minChildren maxKeys) (insertions calls) + 1
      ∀ key, (∃ leaf, findLeafFrom tree'.nodes key rounds tree'.root = .ok leaf ∧
          tree'.findLeaf key = .ok leaf) ∧
        ∀ id, ∃ result, insertNode maxKeys rounds tree'.nodes tree'.root key id = .ok result := by
  obtain ⟨tree', hrun, height, cells, ids, hshaped, -⟩ :=
    run_stores (stores_createWithMaxKeys hcreate) calls
  obtain ⟨rfl, hodd, hmax, hoccupied, hweight⟩ := occupied_createWithMaxKeys hcreate
  obtain ⟨hsame, hlast, hle⟩ := hoccupied.run hodd hmax calls hrun
  rw [hweight] at hle
  rw [← hsame] at hlast hle ⊢
  have hrounds := Nat.lt_succ_of_le (hshaped.height_le hlast hle)
  have hlo : ∀ key : IndexKey, (⊥ : WithBot IndexKey) ≤ key := fun _ => bot_le
  refine ⟨tree', hrun, fun key => ⟨?_, fun id => ?_⟩⟩
  · obtain ⟨_, c, _, -, hfound⟩ :=
      hshaped.represents.findLeafFrom hshaped.ordered (hlo key) hrounds
    obtain ⟨_, other, _, -, hwhole⟩ :=
      hshaped.represents.findLeafFrom hshaped.ordered (hlo key) hshaped.height_lt
    rw [findLeafFrom_unique hwhole hfound] at hwhole
    exact ⟨c.id, hfound, hwhole⟩
  · obtain ⟨nodes, split, _, _, _, _, _, hinsert, -⟩ := hshaped.represents.insertNode id
      hshaped.minMaxKeys_le hshaped.ordered (hlo key) hshaped.nodup
      (fun i hi => hshaped.mem_ids.mp hi) hrounds
    exact ⟨(nodes, split), hinsert⟩

theorem walks_are_short_after_splits : ∃ tree',
    sampleCalls.foldlM BPlusTree.apply ⟨3, 0, [.leaf [] none], true⟩ = .ok tree' ∧
      ∃ leaf, findLeafFrom tree'.nodes (.int64 1) 4 tree'.root = .ok leaf ∧
        tree'.findLeaf (.int64 1) = .ok leaf := by
  have hcreate : BPlusTree.createWithMaxKeys 3 = .ok ⟨3, 0, [.leaf [] none], true⟩ := rfl
  obtain ⟨tree', hrun, hwalks⟩ := walks_are_short hcreate sampleCalls
  have hrounds : Nat.log (minChildren 3) (insertions sampleCalls) + 1 = 4 := by decide
  obtain ⟨leaf, hleaf⟩ := (hwalks (.int64 1)).1
  exact ⟨tree', hrun, leaf, hrounds ▸ hleaf⟩

end Runs

end NovaBase.Index
