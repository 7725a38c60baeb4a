import NovaBase.Index.Leaves

/-!
# The shape of the tree

`Represents` says that a node is the root of a tree of a given height, and
which row of leaves and which nodes lie below it. Descent and insertion follow
the recursion of this predicate; what is not below the node stays as it was.
-/

namespace NovaBase.Index

open Lib

/-- A subtree: the bound below its keys, its root, its leaves and all its nodes. -/
structure Branch where
  lower : WithBot IndexKey
  child : Nat
  cells : List Cell
  ids : List Nat

/-- The subtree is stored in the nodes, with all leaves at depth `height`. -/
def Represents (maxKeys : Nat) (nodes : List Node) : Nat → Branch → Prop
  | 0, b => ∃ entries next, nodes[b.child]? = some (.leaf entries next) ∧
      b.cells = [⟨b.lower, b.child, entries, next⟩] ∧ b.ids = [b.child]
  | height + 1, b => ∃ (keys : List IndexKey) (branches : List Branch),
      nodes[b.child]? = some (.internal keys (branches.map Branch.child)) ∧
      branches.map Branch.lower = b.lower :: keys.map WithBot.some ∧
      keys ≠ [] ∧ keys.length ≤ maxKeys ∧
      (∀ x ∈ branches, Represents maxKeys nodes height x) ∧
      b.cells = branches.flatMap Branch.cells ∧
      b.ids = b.child :: branches.flatMap Branch.ids

section Structure

variable {maxKeys : Nat} {nodes nodes' : List Node} {height : Nat} {b : Branch}

/-- A subtree is stored wherever its nodes are. -/
theorem Represents.frame (h : Represents maxKeys nodes height b)
    (hsame : ∀ i ∈ b.ids, nodes'[i]? = nodes[i]?) : Represents maxKeys nodes' height b := by
  induction height generalizing b with
  | zero =>
      obtain ⟨entries, next, hnode, hcells, hids⟩ := h
      exact ⟨entries, next, by rw [hsame _ (by simp [hids]), hnode], hcells, hids⟩
  | succ height ih =>
      obtain ⟨keys, branches, hnode, hlower, hne, hlen, hbranches, hcells, hids⟩ := h
      refine ⟨keys, branches, by rw [hsame _ (by simp [hids]), hnode], hlower, hne, hlen,
        fun x hx => ih (hbranches x hx) fun i hi => hsame i ?_, hcells, hids⟩
      rw [hids]
      exact List.mem_cons_of_mem _ (List.mem_flatMap.mpr ⟨x, hx, hi⟩)

/-- The first leaf of a subtree has the subtree's lower bound. -/
theorem Represents.head (h : Represents maxKeys nodes height b) :
    ∃ c rest, b.cells = c :: rest ∧ c.lower = b.lower := by
  induction height generalizing b with
  | zero =>
      obtain ⟨entries, next, -, hcells, -⟩ := h
      exact ⟨_, [], hcells, rfl⟩
  | succ height ih =>
      obtain ⟨keys, branches, -, hlower, -, -, hbranches, hcells, -⟩ := h
      obtain ⟨x, others, rfl, hx, -⟩ := List.map_eq_cons_iff.mp hlower
      obtain ⟨c, rest, hfirst, hc⟩ := ih (hbranches x List.mem_cons_self)
      refine ⟨c, rest ++ others.flatMap Branch.cells, ?_, hc.trans hx⟩
      rw [hcells, List.flatMap_cons, hfirst, List.cons_append]

/-- No leaf of a branch begins below it. -/
theorem Represents.lower_le (h : Represents maxKeys nodes height b)
    (hordered : Ordered maxKeys b.cells) {c : Cell} (hc : c ∈ b.cells) : b.lower ≤ c.lower := by
  obtain ⟨first, rest, hcells, hlower⟩ := h.head
  rw [← hlower]
  rw [hcells] at hc
  rcases List.mem_cons.mp hc with rfl | hmem
  · exact le_rfl
  · have hseparated := hordered.separated
    rw [hcells] at hseparated
    exact ((List.pairwise_cons.mp hseparated).1 c hmem).1.le

/-- Every leaf of the row is stored under its own id. -/
theorem Represents.stored (h : Represents maxKeys nodes height b) {c : Cell} (hc : c ∈ b.cells) :
    nodes[c.id]? = some (.leaf c.entries c.next) := by
  induction height generalizing b with
  | zero =>
      obtain ⟨entries, next, hnode, hcells, -⟩ := h
      rw [hcells, List.mem_singleton] at hc
      subst hc
      exact hnode
  | succ height ih =>
      obtain ⟨keys, branches, -, -, -, -, hbranches, hcells, -⟩ := h
      rw [hcells] at hc
      obtain ⟨x, hx, hc⟩ := List.mem_flatMap.mp hc
      exact ih (hbranches x hx) hc

theorem Represents.root_mem (h : Represents maxKeys nodes height b) : b.child ∈ b.ids := by
  cases height with
  | zero =>
      obtain ⟨-, -, -, -, hids⟩ := h
      simp [hids]
  | succ height =>
      obtain ⟨_, _, -, -, -, -, -, -, hids⟩ := h
      simp [hids]

/-- The ids of the leaves come in the same order among all ids. -/
theorem Represents.cells_sublist (h : Represents maxKeys nodes height b) :
    (b.cells.map Cell.id).Sublist b.ids := by
  induction height generalizing b with
  | zero =>
      obtain ⟨entries, next, -, hcells, hids⟩ := h
      rw [hcells, hids]
      exact List.Sublist.refl _
  | succ height ih =>
      obtain ⟨keys, branches, -, -, -, -, hbranches, hcells, hids⟩ := h
      rw [hcells, hids, List.map_flatMap]
      refine List.Sublist.cons _ ?_
      clear hcells hids
      induction branches with
      | nil => exact List.Sublist.refl _
      | cons x rest ihrest =>
          rw [List.flatMap_cons, List.flatMap_cons]
          exact (ih (hbranches x List.mem_cons_self)).append
            (ihrest fun y hy => hbranches y (List.mem_cons_of_mem _ hy))

/-- A tree has more nodes than its height. -/
theorem Represents.height_lt (h : Represents maxKeys nodes height b) : height < b.ids.length := by
  induction height generalizing b with
  | zero =>
      obtain ⟨-, -, -, -, hids⟩ := h
      simp [hids]
  | succ height ih =>
      obtain ⟨keys, branches, -, hlower, -, -, hbranches, -, hids⟩ := h
      obtain ⟨x, others, rfl, -, -⟩ := List.map_eq_cons_iff.mp hlower
      have hx := ih (hbranches x List.mem_cons_self)
      rw [hids, List.length_cons, List.flatMap_cons, List.length_append]
      omega

/-- Replace the contents of a leaf. -/
def Cell.update (i : Nat) (entries : List LeafEntry) (c : Cell) : Cell :=
  if c.id = i then { c with entries := entries } else c

/-- Storing new entries in a leaf changes this leaf of the row and nothing else. -/
theorem Represents.update (h : Represents maxKeys nodes height b) {i : Nat}
    {old entries : List LeafEntry} {next : Option Nat} (hi : nodes[i]? = some (.leaf old next)) :
    Represents maxKeys (nodes.set i (.leaf entries next)) height
      { b with cells := b.cells.map (Cell.update i entries) } := by
  have hlt : i < nodes.length := (List.getElem?_eq_some_iff.mp hi).1
  induction height generalizing b with
  | zero =>
      obtain ⟨stored, next', hnode, hcells, hids⟩ := h
      by_cases heq : b.child = i
      · subst heq
        rw [hnode] at hi
        cases hi
        exact ⟨entries, next, by simp [hlt], by simp [hcells, Cell.update], hids⟩
      · exact ⟨stored, next', by rw [List.getElem?_set_ne (Ne.symm heq), hnode],
          by simp [hcells, Cell.update, heq], hids⟩
  | succ height ih =>
      obtain ⟨keys, branches, hnode, hlower, hne, hlen, hbranches, hcells, hids⟩ := h
      have hother : i ≠ b.child := by
        rintro rfl
        rw [hnode] at hi
        cases hi
      let changed (x : Branch) : Branch := { x with cells := x.cells.map (Cell.update i entries) }
      refine ⟨keys, branches.map changed, ?_, ?_, hne, hlen, ?_, ?_, ?_⟩
      · rw [List.getElem?_set_ne hother, hnode, List.map_map]
        rfl
      · rw [List.map_map]
        exact hlower
      · intro x hx
        obtain ⟨y, hy, rfl⟩ := List.mem_map.mp hx
        exact ih (hbranches y hy)
      · rw [List.flatMap_map, hcells, List.map_flatMap]
      · rw [List.flatMap_map]
        exact hids

/-- As many leaves are stored below a subtree as its row has. -/
theorem Represents.countP_leaves (h : Represents maxKeys nodes height b) :
    b.ids.countP (fun i => nodes[i]?.any Node.isLeaf) = b.cells.length := by
  induction height generalizing b with
  | zero =>
      obtain ⟨entries, next, hnode, hcells, hids⟩ := h
      simp [hcells, hids, hnode, Node.isLeaf]
  | succ height ih =>
      obtain ⟨keys, branches, hnode, -, -, -, hbranches, hcells, hids⟩ := h
      rw [hcells, hids, List.countP_cons_of_neg (by simp [hnode, Node.isLeaf]),
        List.countP_flatMap, List.length_flatMap]
      exact congrArg List.sum (List.map_congr_left fun x hx => ih (hbranches x hx))

/-- The branches of ordered leaves are ordered. -/
theorem branches_increasing {branches : List Branch}
    (h : ∀ x ∈ branches, Represents maxKeys nodes height x)
    (hordered : Ordered maxKeys (branches.flatMap Branch.cells)) :
    (branches.map Branch.lower).Pairwise (· < ·) := by
  obtain ⟨-, hacross⟩ := List.pairwise_flatMap.mp hordered.separated
  rw [List.pairwise_map]
  refine hacross.imp_of_mem fun {x y} hx hy hxy => ?_
  obtain ⟨c, rest, hc, hclower⟩ := (h x hx).head
  obtain ⟨d, rest', hd, hdlower⟩ := (h y hy).head
  rw [← hclower, ← hdlower]
  exact (hxy c (by simp [hc]) d (by simp [hd])).1

end Structure

section Routing

variable {maxKeys : Nat} {nodes : List Node} {height : Nat} {key : IndexKey}

/-- The separators of a node that are at most a key come first, and its child is where they end. -/
theorem childIndex_keys (key : IndexKey) {keys : List IndexKey} (hkeys : keys.Pairwise (· < ·)) :
    ∃ low high, keys = low ++ high ∧ low.length = childIndex keys key ∧ (∀ k ∈ low, k ≤ key) ∧
      ∀ k ∈ high, key < k := by
  have hdecreasing : keys.Pairwise fun x y =>
      decide (y ≤ key) = true → decide (x ≤ key) = true := by
    refine hkeys.imp fun {x y} hxy hy => ?_
    simp only [decide_eq_true_eq] at hy ⊢
    exact hxy.le.trans hy
  obtain ⟨low, high, hsplit, hlength, hlow, hhigh⟩ := partitionPoint_split_of_pairwise hdecreasing
  simp only [decide_eq_true_eq, decide_eq_false_iff_not, not_le] at hlow hhigh
  exact ⟨low, high, hsplit, hlength, hlow, hhigh⟩

/-- The child that a key belongs to, among all children of a node. -/
theorem childIndex_split (key : IndexKey) {branches : List Branch} {lower : WithBot IndexKey}
    {keys : List IndexKey} (hlower : branches.map Branch.lower = lower :: keys.map WithBot.some)
    (hkeys : keys.Pairwise (· < ·)) :
    ∃ before x after low high, branches = before ++ x :: after ∧ keys = low ++ high ∧
      before.length = childIndex keys key ∧ low.length = childIndex keys key ∧
      (before ++ [x]).map Branch.lower = lower :: low.map WithBot.some ∧
      after.map Branch.lower = high.map WithBot.some ∧ (∀ k ∈ low, k ≤ key) ∧
      ∀ k ∈ high, key < k := by
  obtain ⟨low, high, rfl, hlength, hlow, hhigh⟩ := childIndex_keys key hkeys
  rw [List.map_append, ← List.cons_append] at hlower
  obtain ⟨front, after, rfl, hfront, hafter⟩ := List.map_eq_append_iff.mp hlower
  rcases List.eq_nil_or_concat front with rfl | ⟨before, x, rfl⟩
  · simp at hfront
  · rw [List.concat_eq_append] at *
    have hbefore : before.length = low.length := by
      have := congrArg List.length hfront
      simpa using this
    exact ⟨before, x, after, low, high, by simp, rfl, hbefore.trans hlength, hlength, hfront,
      hafter, hlow, hhigh⟩

/-- A leaf that is right in a child's row is right in the row of the node. -/
theorem Routed.extend {x : Branch} {others : List Branch} {front before after : List Cell}
    {c : Cell} (hrouted : Routed key x.cells before c after)
    (hothers : ∀ y ∈ others, Represents maxKeys nodes height y)
    (hordered : Ordered maxKeys (front ++ (x.cells ++ others.flatMap Branch.cells)))
    (hupper : ∀ y ∈ others, (key : WithBot IndexKey) < y.lower) :
    Routed key (front ++ (x.cells ++ others.flatMap Branch.cells)) (front ++ before) c
      (after ++ others.flatMap Branch.cells) where
  split := by
    rw [hrouted.split]
    simp
  lower := hrouted.lower
  upper := by
    intro d hd
    rcases List.mem_append.mp hd with hd | hd
    · exact hrouted.upper d hd
    · obtain ⟨y, hy, hmem⟩ := List.mem_flatMap.mp hd
      obtain ⟨one, two, rfl⟩ := List.append_of_mem hy
      have hy' : Ordered maxKeys y.cells := by
        have := hordered.of_append.2.of_append.2
        rw [List.flatMap_append, List.flatMap_cons] at this
        exact this.of_append.2.of_append.1
      exact lt_of_lt_of_le (hupper y hy) ((hothers y hy).lower_le hy' hmem)

/-- The descent of one round: the child of a key, its part of the row, and the bounds around it. -/
theorem Represents.descend {b : Branch} (h : Represents maxKeys nodes (height + 1) b)
    (hordered : Ordered maxKeys b.cells) (hlo : b.lower ≤ (key : WithBot IndexKey)) :
    ∃ before x after low high,
      nodes[b.child]? = some (.internal (low ++ high)
        ((before ++ x :: after).map Branch.child)) ∧
      before.length = childIndex (low ++ high) key ∧ low.length = before.length ∧
      (before ++ [x]).map Branch.lower = b.lower :: low.map WithBot.some ∧
      after.map Branch.lower = high.map WithBot.some ∧
      low ++ high ≠ [] ∧ (low ++ high).length ≤ maxKeys ∧
      (∀ y ∈ before ++ x :: after, Represents maxKeys nodes height y) ∧
      b.cells = before.flatMap Branch.cells ++ (x.cells ++ after.flatMap Branch.cells) ∧
      b.ids = b.child :: (before ++ x :: after).flatMap Branch.ids ∧
      x.lower ≤ (key : WithBot IndexKey) ∧
      ∀ y ∈ after, (key : WithBot IndexKey) < y.lower := by
  obtain ⟨keys, branches, hnode, hlower, hne, hlen, hbranches, hcells, hids⟩ := h
  have hincreasing := branches_increasing hbranches (hcells ▸ hordered)
  rw [hlower] at hincreasing
  have hkeys : keys.Pairwise (· < ·) :=
    (List.pairwise_map.mp (List.pairwise_cons.mp hincreasing).2).imp WithBot.coe_lt_coe.mp
  obtain ⟨before, x, after, low, high, rfl, rfl, hbefore, hlow, hfront, hback, hle, hlt⟩ :=
    childIndex_split key hlower hkeys
  refine ⟨before, x, after, low, high, hnode, hbefore, hlow.trans hbefore.symm, hfront, hback, hne,
    hlen, hbranches, by rw [hcells]; simp, hids, ?_, fun y hy => ?_⟩
  · have hx : x.lower ∈ b.lower :: low.map WithBot.some := by
      rw [← hfront]
      simp
    rcases List.mem_cons.mp hx with heq | hmem
    · rw [heq]
      exact hlo
    · obtain ⟨k, hk, hxk⟩ := List.mem_map.mp hmem
      rw [← hxk]
      exact WithBot.coe_le_coe.mpr (hle k hk)
  · have hy' : y.lower ∈ high.map WithBot.some := by
      rw [← hback]
      exact List.mem_map_of_mem hy
    obtain ⟨k, hk, hyk⟩ := List.mem_map.mp hy'
    rw [← hyk]
    exact WithBot.coe_lt_coe.mpr (hlt k hk)

/-- The walk down ends at the leaf that the key belongs to. -/
theorem Represents.findLeafFrom {b : Branch} (h : Represents maxKeys nodes height b)
    (hordered : Ordered maxKeys b.cells) (hlo : b.lower ≤ (key : WithBot IndexKey)) {rounds : Nat}
    (hrounds : height < rounds) :
    ∃ before c after, Routed key b.cells before c after ∧
      Index.findLeafFrom nodes key rounds b.child = .ok c.id := by
  induction height generalizing b rounds with
  | zero =>
      obtain ⟨entries, next, hnode, hcells, -⟩ := h
      obtain ⟨rounds, rfl⟩ := Nat.exists_eq_succ_of_ne_zero (Nat.ne_of_gt hrounds)
      refine ⟨[], _, [], ⟨hcells, hlo, by simp⟩, ?_⟩
      simp only [Index.findLeafFrom, indexed_of hnode, ok_bind, pure_eq_ok]
  | succ height ih =>
      obtain ⟨rounds, rfl⟩ := Nat.exists_eq_succ_of_ne_zero
        (Nat.ne_of_gt (Nat.zero_lt_of_lt hrounds))
      obtain ⟨front, x, back, low, high, hnode, hindex, -, -, -, -, -, hbranches, hcells, -, hx,
        hback⟩ := h.descend hordered hlo
      have hxordered : Ordered maxKeys x.cells := (hcells ▸ hordered).of_append.2.of_append.1
      obtain ⟨before, c, after, hrouted, hfound⟩ :=
        ih (hbranches x (by simp)) hxordered hx (Nat.lt_of_succ_lt_succ hrounds)
      refine ⟨_, c, _, hcells ▸ hrouted.extend (fun y hy => hbranches y (by simp [hy]))
        (hcells ▸ hordered) hback, ?_⟩
      have hchild : ((front ++ x :: back).map Branch.child)[childIndex (low ++ high) key]? =
          some x.child := by
        rw [← hindex]
        simp
      simp only [Index.findLeafFrom, indexed_of hnode, ok_bind, indexed_of hchild, hfound]

end Routing

end NovaBase.Index
