import NovaBase.Index.Shape

/-!
# Insertion

An insertion below a node replaces the subtree by one or two subtrees of the
same height. The nodes outside the subtree stay as they were, and the nodes
added at the end of the vector are exactly the new ids.
-/

namespace NovaBase.Index

open Lib

/-- The subtrees that an insertion below `b` leaves in its place. -/
structure Outcome (maxKeys : Nat) (nodes nodes' : List Node) (height : Nat) (b : Branch)
    (split : Option (IndexKey × Nat)) (branches : List Branch) : Prop where
  stored : ∀ x ∈ branches, Represents maxKeys nodes' height x
  children : branches.map Branch.child = b.child :: split.toList.map Prod.snd
  lowers : branches.map Branch.lower = b.lower :: split.toList.map fun s => WithBot.some s.1
  frame : ∀ i < nodes.length, i ∉ b.ids → nodes'[i]? = nodes[i]?
  fresh : ∃ added, nodes'.length = nodes.length + added ∧
    (branches.flatMap Branch.ids).Perm (b.ids ++ List.range' nodes.length added)

/-- The two halves of entries that exceed the capacity by one. -/
theorem split_entries {maxKeys : Nat} (hmax : minMaxKeys ≤ maxKeys) {entries : List LeafEntry}
    (hlong : ¬entries.length ≤ maxKeys) (hlength : entries.length ≤ maxKeys + 1) :
    ∃ left middle right, entries = left ++ middle :: right ∧ left ≠ [] ∧
      left.length ≤ maxKeys ∧ right.length < maxKeys ∧
      entries.take (entries.length / 2) = left ∧
      entries.drop (entries.length / 2) = middle :: right := by
  unfold minMaxKeys at hmax
  have hdrop : (entries.drop (entries.length / 2)).length = entries.length - entries.length / 2 :=
    List.length_drop
  have htake : (entries.take (entries.length / 2)).length = entries.length / 2 := by
    rw [List.length_take]
    omega
  cases hright : entries.drop (entries.length / 2) with
  | nil =>
      rw [hright, List.length_nil] at hdrop
      omega
  | cons middle right =>
      rw [hright, List.length_cons] at hdrop
      refine ⟨_, middle, right, ?_, ?_, by omega, by omega, rfl, rfl⟩
      · rw [← hright, List.take_append_drop]
      · intro hnil
        rw [hnil, List.length_nil] at htake
        omega

section Leaf

variable {maxKeys : Nat} {nodes : List Node} {b : Branch} {key : IndexKey}

/-- The base case: the key goes into one leaf, which may be split. -/
theorem insertNode_leaf (id : NovaId) (hmax : minMaxKeys ≤ maxKeys) {rounds : Nat}
    (h : Represents maxKeys nodes 0 b) (hordered : Ordered maxKeys b.cells)
    (hlo : b.lower ≤ (key : WithBot IndexKey)) :
    ∃ nodes' split branches before c after new,
      insertNode maxKeys (rounds + 1) nodes b.child key id = .ok (nodes', split) ∧
      Outcome maxKeys nodes nodes' 0 b split branches ∧ Routed key b.cells before c after ∧
      Replaced maxKeys nodes.length key id c new ∧
      branches.flatMap Branch.cells = before ++ (new ++ after) := by
  obtain ⟨entries, next, hnode, hcells, hids⟩ := h
  have hlt : b.child < nodes.length := (List.getElem?_eq_some_iff.mp hnode).1
  have hsorted : Sorted entries := hordered.sorted ⟨b.lower, b.child, entries, next⟩
    (by simp [hcells])
  have hcapacity : entries.length ≤ maxKeys :=
    hordered.capacity ⟨b.lower, b.child, entries, next⟩ (by simp [hcells])
  have hrouted : Routed key b.cells [] ⟨b.lower, b.child, entries, next⟩ [] :=
    ⟨hcells, hlo, by simp⟩
  rcases insertEntry_spec hsorted key id with ⟨hinsert, hpresent⟩ | ⟨entries', hinsert, hinserted⟩
  · refine ⟨nodes, none, [b], _, _, _, _, ?_, ⟨?_, rfl, rfl, fun _ _ _ => rfl, 0, rfl, by simp⟩,
      hrouted, .present hpresent, by simp [hcells]⟩
    · simp only [insertNode, indexed_of hnode, ok_bind, hinsert, pure_eq_ok]
    · simpa using ⟨entries, next, hnode, hcells, hids⟩
  · by_cases hfits : entries'.length ≤ maxKeys
    · refine ⟨nodes.set b.child (.leaf entries' next), none,
        [⟨b.lower, b.child, [⟨b.lower, b.child, entries', next⟩], [b.child]⟩], _, _, _, _, ?_,
        ⟨?_, rfl, rfl, ?_, 0, by simp, by simp [hids]⟩, hrouted, .grown hinserted hfits, by simp⟩
      · simp only [insertNode, indexed_of hnode, ok_bind, hinsert, pure_eq_ok, if_pos hfits]
      · simpa using ⟨entries', next, by simp [hlt], rfl, rfl⟩
      · intro i _ hi
        rw [List.getElem?_set_ne]
        rintro rfl
        simp [hids] at hi
    · obtain ⟨left, middle, right, rfl, hne, hleft, hright, htake, hdrop⟩ :=
        split_entries hmax hfits (hinserted.length_le.trans (Nat.add_le_add_right hcapacity 1))
      refine ⟨nodes.set b.child (.leaf left (some nodes.length)) ++ [.leaf (middle :: right) next],
        some (middle.1, nodes.length),
        [⟨b.lower, b.child, [⟨b.lower, b.child, left, some nodes.length⟩], [b.child]⟩,
          ⟨middle.1, nodes.length, [⟨middle.1, nodes.length, middle :: right, next⟩],
            [nodes.length]⟩], _, _, _, _, ?_,
        ⟨?_, rfl, rfl, ?_, 1, by simp, by simp [hids]⟩, hrouted,
        .split hinserted hne hleft hright, by simp⟩
      · have hmiddle : indexed (middle :: right) 0 = .ok middle := rfl
        simp only [insertNode, indexed_of hnode, ok_bind, hinsert, pure_eq_ok, if_neg hfits, htake,
          hdrop, hmiddle]
      · intro x hx
        rcases List.mem_cons.mp hx with rfl | hx
        · refine ⟨left, some nodes.length, ?_, rfl, rfl⟩
          rw [List.getElem?_append_left (by simpa using hlt), List.getElem?_set_self hlt]
        · rw [List.mem_singleton.mp hx]
          exact ⟨middle :: right, next, by simp, rfl, rfl⟩
      · intro i hi hnot
        have hne : b.child ≠ i := by
          rintro rfl
          simp [hids] at hnot
        rw [List.getElem?_append_left (by simpa using hi), List.getElem?_set_ne hne]

end Leaf

/-- The children of a node after the insertion below one of them, before the node is written. -/
structure Merged (maxKeys : Nat) (nodes nodes' : List Node) (height : Nat) (b : Branch)
    (keys : List IndexKey) (branches : List Branch) : Prop where
  stored : ∀ x ∈ branches, Represents maxKeys nodes' height x
  lowers : branches.map Branch.lower = b.lower :: keys.map WithBot.some
  nonempty : keys ≠ []
  length_le : keys.length ≤ maxKeys + 1
  frame : ∀ i < nodes.length, i ∉ b.ids → nodes'[i]? = nodes[i]?
  fresh : ∃ added, nodes'.length = nodes.length + added ∧
    (b.child :: branches.flatMap Branch.ids).Perm (b.ids ++ List.range' nodes.length added)
  nodup : b.ids.Nodup
  bound : ∀ i ∈ b.ids, i < nodes.length
  root : b.child ∈ b.ids

namespace Merged

variable {maxKeys : Nat} {nodes nodes' : List Node} {height : Nat} {b : Branch}
  {keys : List IndexKey} {branches : List Branch}

theorem ids_nodup (h : Merged maxKeys nodes nodes' height b keys branches) :
    (b.child :: branches.flatMap Branch.ids).Nodup := by
  obtain ⟨added, -, hperm⟩ := h.fresh
  refine hperm.nodup_iff.mpr (h.nodup.append List.nodup_range' fun i hi hfresh => ?_)
  have hlt := h.bound i hi
  have hge := (List.mem_range'_1.mp hfresh).1
  omega

theorem root_lt (h : Merged maxKeys nodes nodes' height b keys branches) :
    b.child < nodes'.length := by
  obtain ⟨added, hlength, -⟩ := h.fresh
  have := h.bound b.child h.root
  omega

/-- Writing the node leaves its subtrees alone. -/
theorem stored_set (h : Merged maxKeys nodes nodes' height b keys branches) (node : Node)
    (others : List Node) {x : Branch} (hx : x ∈ branches) :
    Represents maxKeys (nodes'.set b.child node ++ others) height x := by
  refine (h.stored x hx).frame fun i hi => ?_
  have hmem : i ∈ branches.flatMap Branch.ids := List.mem_flatMap.mpr ⟨x, hx, hi⟩
  have hne : b.child ≠ i := by
    rintro rfl
    exact (List.nodup_cons.mp h.ids_nodup).1 hmem
  have hlt : i < nodes'.length := by
    obtain ⟨added, hlength, hperm⟩ := h.fresh
    rcases List.mem_append.mp (hperm.mem_iff.mp (List.mem_cons_of_mem _ hmem)) with hold | hnew
    · have := h.bound i hold
      omega
    · have := List.mem_range'_1.mp hnew
      omega
  rw [List.getElem?_append_left (by simpa using hlt), List.getElem?_set_ne hne]

theorem frame_set (h : Merged maxKeys nodes nodes' height b keys branches) (node : Node)
    (others : List Node) :
    ∀ i < nodes.length, i ∉ b.ids → (nodes'.set b.child node ++ others)[i]? = nodes[i]? := by
  intro i hi hnot
  have hne : b.child ≠ i := by
    rintro rfl
    exact hnot h.root
  obtain ⟨added, hlength, -⟩ := h.fresh
  rw [List.getElem?_append_left (by simp; omega), List.getElem?_set_ne hne, h.frame i hi hnot]

/-- The node has room for its keys. -/
theorem fits (h : Merged maxKeys nodes nodes' height b keys branches)
    (hfits : keys.length ≤ maxKeys) :
    Outcome maxKeys nodes (nodes'.set b.child (.internal keys (branches.map Branch.child)))
      (height + 1) b none [⟨b.lower, b.child, branches.flatMap Branch.cells,
        b.child :: branches.flatMap Branch.ids⟩] where
  stored := by
    intro x hx
    rw [List.mem_singleton.mp hx]
    refine ⟨keys, branches, List.getElem?_set_self h.root_lt, h.lowers, h.nonempty, hfits,
      fun y hy => ?_, rfl, rfl⟩
    simpa using h.stored_set (.internal keys (branches.map Branch.child)) [] hy
  children := rfl
  lowers := rfl
  frame := by simpa using h.frame_set (.internal keys (branches.map Branch.child)) []
  fresh := by simpa using h.fresh

/-- The node that takes the children from a position on is the only one more. -/
theorem fresh_halves (h : Merged maxKeys nodes nodes' height b keys branches) (count : Nat) :
    ∃ added, nodes'.length + 1 = nodes.length + added ∧
      ((b.child :: (branches.take count).flatMap Branch.ids) ++
          nodes'.length :: (branches.drop count).flatMap Branch.ids).Perm
        (b.ids ++ List.range' nodes.length added) := by
  obtain ⟨added, hadded, hperm⟩ := h.fresh
  refine ⟨added + 1, by omega, ?_⟩
  rw [List.range'_concat, ← List.append_assoc]
  have hids : branches.flatMap Branch.ids =
      (branches.take count).flatMap Branch.ids ++ (branches.drop count).flatMap Branch.ids := by
    rw [← List.flatMap_append, List.take_append_drop]
  rw [hids, ← List.cons_append] at hperm
  have hlast : nodes'.length = nodes.length + 1 * added := by omega
  rw [← hlast]
  exact List.perm_middle.trans
    ((hperm.cons _).trans (List.perm_append_singleton _ _).symm)

/-- The node is full and gives its upper half to a new right sibling. -/
theorem splits (h : Merged maxKeys nodes nodes' height b keys branches)
    (hmax : minMaxKeys ≤ maxKeys) (hfull : ¬keys.length ≤ maxKeys) :
    ∃ separator, keys[keys.length / 2]? = some separator ∧
      keys.length / 2 + 1 ≤ (branches.map Branch.child).length ∧
      Outcome maxKeys nodes
        (nodes'.set b.child (.internal (keys.take (keys.length / 2))
            ((branches.map Branch.child).take (keys.length / 2 + 1))) ++
          [.internal (keys.drop (keys.length / 2 + 1))
            ((branches.map Branch.child).drop (keys.length / 2 + 1))])
        (height + 1) b (some (separator, nodes'.length))
        [⟨b.lower, b.child, (branches.take (keys.length / 2 + 1)).flatMap Branch.cells,
            b.child :: (branches.take (keys.length / 2 + 1)).flatMap Branch.ids⟩,
          ⟨WithBot.some separator, nodes'.length,
            (branches.drop (keys.length / 2 + 1)).flatMap Branch.cells,
            nodes'.length :: (branches.drop (keys.length / 2 + 1)).flatMap Branch.ids⟩] := by
  unfold minMaxKeys at hmax
  have hlength := h.length_le
  have hcount : branches.length = keys.length + 1 := by
    have := congrArg List.length h.lowers
    simpa using this
  generalize hmiddle : keys.length / 2 = middle
  have hlt : middle < keys.length := by omega
  have hkeys : keys = keys.take middle ++ keys[middle] :: keys.drop (middle + 1) := by
    rw [List.getElem_cons_drop, List.take_append_drop]
  refine ⟨keys[middle], List.getElem?_eq_getElem hlt, by simp; omega, ?_⟩
  have hlowers := h.lowers
  have hleft : (branches.take (middle + 1)).map Branch.lower =
      b.lower :: (keys.take middle).map WithBot.some := by
    rw [List.map_take, hlowers, List.take_succ_cons, List.map_take]
  have hright : (branches.drop (middle + 1)).map Branch.lower =
      WithBot.some keys[middle] :: (keys.drop (middle + 1)).map WithBot.some := by
    rw [List.map_drop, hlowers, List.drop_succ_cons, ← List.map_drop, ← List.getElem_cons_drop hlt,
      List.map_cons]
  have htake : (keys.take middle).length = middle := by
    rw [List.length_take]
    omega
  have hdrop : (keys.drop (middle + 1)).length = keys.length - (middle + 1) := List.length_drop
  constructor
  · intro x hx
    rcases List.mem_cons.mp hx with rfl | hx
    · refine ⟨keys.take middle, branches.take (middle + 1), ?_, hleft, ?_, ?_, fun y hy => ?_, rfl,
        rfl⟩
      · rw [List.getElem?_append_left (by simpa using h.root_lt),
          List.getElem?_set_self h.root_lt, List.map_take]
      · exact List.ne_nil_of_length_pos (by omega)
      · omega
      · exact h.stored_set _ _ (List.mem_of_mem_take hy)
    · rw [List.mem_singleton.mp hx]
      refine ⟨keys.drop (middle + 1), branches.drop (middle + 1), ?_, hright, ?_, ?_,
        fun y hy => ?_, rfl, rfl⟩
      · rw [List.map_drop]
        simp
      · exact List.ne_nil_of_length_pos (by omega)
      · omega
      · exact h.stored_set _ _ (List.mem_of_mem_drop hy)
  · rfl
  · rfl
  · exact h.frame_set _ _
  · obtain ⟨added, hadded, hperm⟩ := h.fresh_halves (middle + 1)
    refine ⟨added, by simp [hadded], ?_⟩
    simp only [List.flatMap_cons, List.flatMap_nil, List.append_nil]
    exact hperm

end Merged

section Internal

variable {maxKeys : Nat} {nodes nodes' : List Node} {height : Nat} {b x : Branch}
  {front back branches : List Branch} {low high : List IndexKey} {split : Option (IndexKey × Nat)}

/-- An insertion below one child leaves the subtrees of the others as they are. -/
theorem Outcome.stored_others (houtcome : Outcome maxKeys nodes nodes' height x split branches)
    (hstored : ∀ y ∈ front ++ x :: back, Represents maxKeys nodes height y)
    (hids : b.ids = b.child :: (front ++ x :: back).flatMap Branch.ids) (hnodup : b.ids.Nodup)
    (hbound : ∀ i ∈ b.ids, i < nodes.length) :
    ∀ y ∈ front ++ back, Represents maxKeys nodes' height y := by
  intro y hy
  have hmem : y ∈ front ++ x :: back := by
    rcases List.mem_append.mp hy with hy | hy <;> simp [hy]
  refine (hstored y hmem).frame fun i hi => houtcome.frame i (hbound i ?_) fun hix => ?_
  · rw [hids]
    exact List.mem_cons_of_mem _ (List.mem_flatMap.mpr ⟨y, hmem, hi⟩)
  · rw [hids, List.flatMap_append, List.flatMap_cons] at hnodup
    have hparts := List.nodup_append.mp (List.nodup_cons.mp hnodup).2
    rcases List.mem_append.mp hy with hy | hy
    · exact hparts.2.2 i (List.mem_flatMap.mpr ⟨y, hy, hi⟩) i
        (List.mem_append_left _ hix) rfl
    · exact (List.nodup_append.mp hparts.2.1).2.2 i hix i
        (List.mem_flatMap.mpr ⟨y, hy, hi⟩) rfl

/-- Putting the outcome for one child among the other children. -/
theorem Outcome.merge (houtcome : Outcome maxKeys nodes nodes' height x split branches)
    (hstored : ∀ y ∈ front ++ x :: back, Represents maxKeys nodes height y)
    (hids : b.ids = b.child :: (front ++ x :: back).flatMap Branch.ids)
    (hfront : (front ++ [x]).map Branch.lower = b.lower :: low.map WithBot.some)
    (hback : back.map Branch.lower = high.map WithBot.some) (hne : low ++ high ≠ [])
    (hlength : (low ++ high).length ≤ maxKeys) (hnodup : b.ids.Nodup)
    (hbound : ∀ i ∈ b.ids, i < nodes.length) :
    Merged maxKeys nodes nodes' height b (low ++ (split.toList.map Prod.fst ++ high))
      (front ++ (branches ++ back)) where
  stored := by
    have hothers := houtcome.stored_others hstored hids hnodup hbound
    intro y hy
    rcases List.mem_append.mp hy with hy | hy
    · exact hothers y (List.mem_append_left _ hy)
    · rcases List.mem_append.mp hy with hy | hy
      · exact houtcome.stored y hy
      · exact hothers y (List.mem_append_right _ hy)
  lowers := by
    have hsplit : split.toList.map (fun s => WithBot.some s.1) =
        (split.toList.map Prod.fst).map WithBot.some := by
      rw [List.map_map]
      rfl
    rw [List.map_append, List.map_append, houtcome.lowers, hback, hsplit]
    rw [List.map_append, List.map_singleton] at hfront
    rw [List.map_append, List.map_append, ← List.cons_append, ← hfront]
    simp
  nonempty := by
    intro hnil
    simp at hnil
    simp [hnil] at hne
  length_le := by
    have hsplit : (split.toList.map Prod.fst).length ≤ 1 := by
      cases split <;> simp
    simp only [List.length_append] at hlength ⊢
    omega
  frame := by
    intro i hi hnot
    refine houtcome.frame i hi fun hix => hnot ?_
    rw [hids]
    simp [hix]
  fresh := by
    obtain ⟨added, hadded, hperm⟩ := houtcome.fresh
    refine ⟨added, hadded, ?_⟩
    simp only [hids, List.flatMap_append, List.flatMap_cons, List.cons_append, List.append_assoc]
    refine ((hperm.append_right _).trans ?_).append_left _ |>.cons _
    rw [List.append_assoc]
    exact List.perm_append_comm.append_left _
  nodup := hnodup
  bound := hbound
  root := by simp [hids]

/-- The new child stands right behind the one that was split. -/
theorem addChild_merge (hindex : front.length = low.length)
    (hchildren : branches.map Branch.child = x.child :: split.toList.map Prod.snd) :
    addChild (low ++ high) ((front ++ x :: back).map Branch.child) front.length split =
      (low ++ (split.toList.map Prod.fst ++ high),
        (front ++ (branches ++ back)).map Branch.child) := by
  cases split with
  | none =>
      simp only [Option.toList_none, List.map_nil] at hchildren
      simp [addChild, hchildren]
  | some right =>
      have hlength : front.length + 1 = ((front ++ [x]).map Branch.child).length := by simp
      have hlist : (front ++ x :: back).map Branch.child =
          (front ++ [x]).map Branch.child ++ back.map Branch.child := by
        simp
      rw [addChild, hlist, hlength, insertIdx_append, hindex, insertIdx_append, List.map_append,
        List.map_append, List.map_append, hchildren]
      simp

/-- Inserting below a node replaces its subtree, changes one leaf of the row and touches nothing
else. -/
theorem Represents.insertNode {key : IndexKey} (id : NovaId) (hmax : minMaxKeys ≤ maxKeys)
    (h : Represents maxKeys nodes height b) (hordered : Ordered maxKeys b.cells)
    (hlo : b.lower ≤ (key : WithBot IndexKey)) (hnodup : b.ids.Nodup)
    (hbound : ∀ i ∈ b.ids, i < nodes.length) {rounds : Nat} (hrounds : height < rounds) :
    ∃ nodes' split branches before c after new,
      Index.insertNode maxKeys rounds nodes b.child key id = .ok (nodes', split) ∧
      Outcome maxKeys nodes nodes' height b split branches ∧ Routed key b.cells before c after ∧
      Replaced maxKeys nodes.length key id c new ∧
      branches.flatMap Branch.cells = before ++ (new ++ after) := by
  induction height generalizing b rounds with
  | zero =>
      obtain ⟨rounds, rfl⟩ := Nat.exists_eq_succ_of_ne_zero (Nat.ne_of_gt hrounds)
      exact insertNode_leaf id hmax h hordered hlo
  | succ height ih =>
      obtain ⟨rounds, rfl⟩ :=
        Nat.exists_eq_succ_of_ne_zero (Nat.ne_of_gt (Nat.zero_lt_of_lt hrounds))
      obtain ⟨front, x, back, low, high, hnode, hindex, hlow, hfront, hbackLower, hne, hlength,
        hbranches, hcells, hids, hx, hback⟩ := h.descend hordered hlo
      have hxordered : Ordered maxKeys x.cells := (hcells ▸ hordered).of_append.2.of_append.1
      have hxids : x.ids.Sublist b.ids := by
        rw [hids, List.flatMap_append, List.flatMap_cons]
        exact ((List.sublist_append_left _ _).trans (List.sublist_append_right _ _)).cons _
      obtain ⟨nodes', split, branches, before, c, after, new, hinsert, houtcome, hrouted, hreplaced,
        hnew⟩ := ih (hbranches x (by simp)) hxordered hx (hxids.nodup hnodup)
          (fun i hi => hbound i (hxids.subset hi)) (Nat.lt_of_succ_lt_succ hrounds)
      have hmerged := houtcome.merge hbranches hids hfront hbackLower hne hlength hnodup hbound
      have hrouted' := hrouted.extend (fun y hy => hbranches y (by simp [hy]))
        (hcells ▸ hordered) hback
      have hrow : (front ++ (branches ++ back)).flatMap Branch.cells =
          (front.flatMap Branch.cells ++ before) ++
            (new ++ (after ++ back.flatMap Branch.cells)) := by
        simp only [List.flatMap_append, hnew, List.append_assoc]
      have hchild : ((front ++ x :: back).map Branch.child)[childIndex (low ++ high) key]? =
          some x.child := by
        rw [← hindex]
        simp
      have hupdate : addChild (low ++ high) ((front ++ x :: back).map Branch.child) front.length
          split = (low ++ (split.toList.map Prod.fst ++ high),
            (front ++ (branches ++ back)).map Branch.child) :=
        addChild_merge hlow.symm houtcome.children
      rw [hindex] at hupdate
      by_cases hfits : (low ++ (split.toList.map Prod.fst ++ high)).length ≤ maxKeys
      · refine ⟨_, none, _, _, c, _, new, ?_, hmerged.fits hfits, hcells ▸ hrouted', hreplaced,
          ?_⟩
        · simp only [Index.insertNode, indexed_of hnode, ok_bind, indexed_of hchild, hinsert,
            hupdate, if_pos hfits, pure_eq_ok]
        · simpa using hrow
      · obtain ⟨separator, hseparator, hcount, hout⟩ := hmerged.splits hmax hfits
        refine ⟨_, some (separator, nodes'.length), _, _, c, _, new, ?_, hout, hcells ▸ hrouted',
          hreplaced, ?_⟩
        · simp only [Index.insertNode, indexed_of hnode, ok_bind, indexed_of hchild, hinsert,
            hupdate, if_neg hfits, hseparator, require_of _ hcount, pure_eq_ok]
        · rw [← hrow]
          simp only [List.flatMap_cons, List.flatMap_nil, List.append_nil]
          rw [← List.flatMap_append, List.take_append_drop]

end Internal

end NovaBase.Index
