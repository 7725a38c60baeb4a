import NovaBase.Index.Insertion

/-!
# Verification accepts valid trees

`Shaped` is the invariant of a tree: one subtree that uses every node, a row of
leaves in order, and links from each leaf to the next. Every check that
`verify` makes follows from it.
-/

namespace NovaBase.Index

open Lib

/-- The whole tree is one subtree with the given row of leaves. -/
structure Shaped (tree : BPlusTree) (height : Nat) (cells : List Cell) (ids : List Nat) :
    Prop where
  represents : Represents tree.maxKeys tree.nodes height ⟨⊥, tree.root, cells, ids⟩
  allNodes : ids.Perm (List.range tree.nodes.length)
  ordered : Ordered tree.maxKeys cells
  linked : LinkedTo none cells
  maxKeys : validateMaxKeys tree.maxKeys = .ok ()

namespace Shaped

variable {tree : BPlusTree} {height : Nat} {cells : List Cell} {ids : List Nat}

theorem nodup (h : Shaped tree height cells ids) : ids.Nodup :=
  h.allNodes.nodup_iff.mpr List.nodup_range

theorem mem_ids (h : Shaped tree height cells ids) {i : Nat} : i ∈ ids ↔ i < tree.nodes.length := by
  rw [h.allNodes.mem_iff, List.mem_range]

theorem height_lt (h : Shaped tree height cells ids) : height < tree.nodes.length := by
  have hlt := h.represents.height_lt
  rwa [h.allNodes.length_eq, List.length_range] at hlt

theorem next_lt (h : Shaped tree height cells ids) :
    ∀ c ∈ cells, c.next.all fun nextId => decide (nextId < tree.nodes.length) := by
  intro c hc
  cases hnext : c.next with
  | none => rfl
  | some i =>
      obtain ⟨d, hd, rfl⟩ := h.linked.next_mem hc hnext
      exact decide_eq_true (List.getElem?_eq_some_iff.mp (h.represents.stored hd)).1

theorem minMaxKeys_le (h : Shaped tree height cells ids) : minMaxKeys ≤ tree.maxKeys :=
  (require_eq_ok.mp h.maxKeys).1

end Shaped

theorem check_of {condition : Prop} [Decidable condition] {message : Message} (h : condition) :
    check condition message = .ok () :=
  require_of _ h

theorem all_le_iff (lower : WithBot IndexKey) (key : IndexKey) :
    Option.all (fun bound => decide (bound ≤ key)) lower = true ↔
      lower ≤ (key : WithBot IndexKey) := by
  cases lower with
  | bot => simp [Option.all]
  | coe bound =>
      rw [WithBot.coe_le_coe]
      exact decide_eq_true_iff

theorem all_of_lt {upper : WithBot IndexKey} {key : IndexKey}
    (h : (key : WithBot IndexKey) < upper) :
    Option.all (fun bound => decide (key < bound)) upper = true := by
  cases upper with
  | bot => exact absurd h not_lt_bot
  | coe bound => exact decide_eq_true (WithBot.coe_lt_coe.mp h)

/-- Mark nodes as visited. -/
def markAll (visited : List Bool) (ids : List Nat) : List Bool :=
  ids.foldl (fun marks i => marks.set i true) visited

theorem length_markAll (visited : List Bool) (ids : List Nat) :
    (markAll visited ids).length = visited.length := by
  induction ids generalizing visited with
  | nil => rfl
  | cons i rest ih => rw [markAll, List.foldl_cons, ← markAll, ih, List.length_set]

theorem getElem?_markAll_of_not_mem {visited : List Bool} {ids : List Nat} {i : Nat}
    (h : i ∉ ids) : (markAll visited ids)[i]? = visited[i]? := by
  induction ids generalizing visited with
  | nil => rfl
  | cons j rest ih =>
      rw [List.mem_cons, not_or] at h
      rw [markAll, List.foldl_cons, ← markAll, ih h.2, List.getElem?_set_ne (Ne.symm h.1)]

theorem getElem?_markAll_of_mem {visited : List Bool} {ids : List Nat} {i : Nat} (h : i ∈ ids)
    (hlt : i < visited.length) : (markAll visited ids)[i]? = some true := by
  induction ids generalizing visited with
  | nil => simp at h
  | cons j rest ih =>
      rw [markAll, List.foldl_cons, ← markAll]
      by_cases hmem : i ∈ rest
      · exact ih hmem (by simpa using hlt)
      · rcases List.mem_cons.mp h with rfl | hmem'
        · rw [getElem?_markAll_of_not_mem hmem, List.getElem?_set_self hlt]
        · exact absurd hmem' hmem

theorem markAll_append (visited : List Bool) (a b : List Nat) :
    markAll visited (a ++ b) = markAll (markAll visited a) b :=
  List.foldl_append

section Nodes

variable {maxKeys : Nat} {nodes : List Node}

/-- Entries between their bounds pass the check. -/
theorem verifyEntries_ok {lower upper : Option IndexKey} {entries : List LeafEntry}
    (hsorted : ∀ e ∈ entries, e.2 ≠ [] ∧ e.2.Pairwise (· < ·))
    (hlower : ∀ e ∈ entries, lower.all fun bound => decide (bound ≤ e.1))
    (hupper : ∀ e ∈ entries, upper.all fun bound => decide (e.1 < bound)) :
    verifyEntries lower upper entries = .ok () := by
  induction entries with
  | nil => rfl
  | cons entry rest ih =>
      obtain ⟨⟨hne, hids⟩, hrest⟩ := List.forall_mem_cons.mp hsorted
      obtain ⟨hlow, hlowRest⟩ := List.forall_mem_cons.mp hlower
      obtain ⟨hup, hupRest⟩ := List.forall_mem_cons.mp hupper
      rw [verifyEntries, verifyEntry, check_of ⟨hlow, hup⟩,
        check_of ⟨hne, List.isChain_iff_pairwise.mpr hids⟩]
      exact ih hrest hlowRest hupRest

/-- What neighbouring subtrees need to pass the checks below their roots. -/
structure Checkable (maxKeys : Nat) (nodes : List Node) (height : Nat) (upper : Option IndexKey)
    (visited : List Bool) (branches : List Branch) : Prop where
  stored : ∀ x ∈ branches, Represents maxKeys nodes height x
  ordered : Ordered maxKeys (branches.flatMap Branch.cells)
  nodup : (branches.flatMap Branch.ids).Nodup
  bound : ∀ i ∈ branches.flatMap Branch.ids, i < nodes.length
  unvisited : ∀ i ∈ branches.flatMap Branch.ids, visited[i]? = some false
  upper : ∀ e ∈ entriesOf (branches.flatMap Branch.cells),
    upper.all fun bound => decide (e.1 < bound)
  next : ∀ c ∈ branches.flatMap Branch.cells,
    c.next.all fun nextId => decide (nextId < nodes.length)

/-- The bound above a child: the separator to its right neighbour, if it has one. -/
def upperOf (upper : Option IndexKey) : List Branch → Option IndexKey
  | [] => upper
  | y :: _ => y.lower

/-- The first branch can be checked before the others. -/
theorem Checkable.head {height : Nat} {upper : Option IndexKey} {visited : List Bool} {x : Branch}
    {rest : List Branch} (h : Checkable maxKeys nodes height upper visited (x :: rest)) :
    Checkable maxKeys nodes height (upperOf upper rest) visited [x] := by
  obtain ⟨hstored, hordered, hnodup, hbound, hunvisited, hupper, hnext⟩ := h
  simp only [List.flatMap_cons, List.mem_append] at hordered hnodup hbound hunvisited hupper hnext
  refine ⟨by simpa using hstored x List.mem_cons_self, ?_, ?_, ?_, ?_, ?_, ?_⟩ <;>
    simp only [List.flatMap_cons, List.flatMap_nil, List.append_nil]
  · exact hordered.of_append.1
  · exact (List.nodup_append.mp hnodup).1
  · exact fun i hi => hbound i (.inl hi)
  · exact fun i hi => hunvisited i (.inl hi)
  · intro e he
    cases rest with
    | nil => exact hupper e (by simpa [entriesOf] using he)
    | cons y rest =>
        obtain ⟨d, others, hd, hlower⟩ := (hstored y (by simp)).head
        obtain ⟨c, hc, he⟩ := List.mem_flatMap.mp he
        have hlt := ((List.pairwise_append.mp hordered.separated).2.2 c hc d
          (by simp [hd])).2 e he
        rw [hlower] at hlt
        exact all_of_lt hlt
  · exact fun c hc => hnext c (.inl hc)

/-- When it has been checked, the others still can be. -/
theorem Checkable.tail {height : Nat} {upper : Option IndexKey} {visited : List Bool} {x : Branch}
    {rest : List Branch} (h : Checkable maxKeys nodes height upper visited (x :: rest)) :
    Checkable maxKeys nodes height upper (markAll visited x.ids) rest := by
  obtain ⟨hstored, hordered, hnodup, hbound, hunvisited, hupper, hnext⟩ := h
  simp only [List.flatMap_cons, List.mem_append] at hordered hnodup hbound hunvisited hnext
  refine ⟨fun y hy => hstored y (List.mem_cons_of_mem _ hy), hordered.of_append.2,
    (List.nodup_append.mp hnodup).2.1, fun i hi => hbound i (.inr hi), fun i hi => ?_,
    fun e he => hupper e ?_, fun c hc => hnext c (.inr hc)⟩
  · rw [getElem?_markAll_of_not_mem, hunvisited i (.inr hi)]
    exact fun hix => (List.nodup_append.mp hnodup).2.2 i hix i hi rfl
  · simp only [entriesOf, List.flatMap_cons, List.flatMap_append]
    exact List.mem_append_right _ he

/-- The separators around the child at a position. -/
theorem bounds_at {α : Type} {keys : List α} {x lower : Option α} (upper : Option α)
    {front rest : List (Option α)} (h : front ++ x :: rest = lower :: keys.map some) {n : Nat}
    (hn : front.length = n) :
    (if n = 0 then lower else keys[n - 1]?) = x ∧
      (if n = keys.length then upper else keys[n]?) = rest.head?.getD upper := by
  subst hn
  have hlength : keys.length = front.length + rest.length := by
    have := congrArg List.length h
    simp only [List.length_map, List.length_append, List.length_cons] at this
    omega
  have hat : (lower :: keys.map some)[front.length]? = some x := by
    rw [← h, List.getElem?_append_right le_rfl, Nat.sub_self, List.getElem?_cons_zero]
  have hnext : (keys.map some)[front.length]? = rest.head? := by
    have hshift : (lower :: keys.map some)[front.length + 1]? = rest.head? := by
      rw [← h, List.getElem?_append_right (by omega), Nat.add_sub_cancel_left,
        List.getElem?_cons_succ, List.head?_eq_getElem?]
    rwa [List.getElem?_cons_succ] at hshift
  constructor
  · cases hfront : front.length with
    | zero =>
        rw [hfront, List.getElem?_cons_zero] at hat
        exact Option.some.inj hat
    | succ n =>
        rw [hfront, List.getElem?_cons_succ, List.getElem?_map] at hat
        obtain ⟨k, hk, hkx⟩ := Option.map_eq_some_iff.mp hat
        rw [if_neg (Nat.succ_ne_zero n), Nat.add_sub_cancel, hk, hkx]
  · cases rest with
    | nil =>
        rw [if_pos (by simpa using hlength.symm)]
        rfl
    | cons y rest =>
        rw [List.length_cons] at hlength
        rw [List.getElem?_map, List.head?_cons] at hnext
        obtain ⟨k, hk, hky⟩ := Option.map_eq_some_iff.mp hnext
        rw [if_neg (by omega), hk, hky]
        rfl

/-- The bounds of a child are the separators around it. -/
theorem separators_at {keys : List IndexKey} {lower : Option IndexKey} (upper : Option IndexKey)
    {front rest : List Branch} {x : Branch}
    (h : (front ++ x :: rest).map Branch.lower = lower :: keys.map WithBot.some) :
    (if front.length = 0 then lower else keys[front.length - 1]?) = x.lower ∧
      (if front.length = keys.length then upper else keys[front.length]?) =
        upperOf upper rest := by
  rw [List.map_append, List.map_cons] at h
  have hbounds := bounds_at upper h (List.length_map Branch.lower)
  refine ⟨hbounds.1, hbounds.2.trans ?_⟩
  cases rest <;> rfl

/-- The loop over the children visits each child between its two separators. -/
theorem verifyChildren_ok {visit : Nat → Option IndexKey → Option IndexKey → Visit → Partial Visit}
    {height depth : Nat} {keys : List IndexKey} {lower upper : Option IndexKey}
    {front rest : List Branch}
    (hlowers : (front ++ rest).map Branch.lower = lower :: keys.map WithBot.some)
    (hvisit : ∀ {x : Branch} {upper : Option IndexKey} {leafDepth : Option Nat}
      {visited : List Bool}, Checkable maxKeys nodes height upper visited [x] →
      leafDepth.all (fun expected => decide (expected = depth)) →
      visit x.child x.lower upper (leafDepth, visited) =
        .ok (some depth, markAll visited x.ids))
    {leafDepth : Option Nat} {visited : List Bool}
    (hrest : Checkable maxKeys nodes height upper visited rest)
    (hdepth : leafDepth.all fun expected => decide (expected = depth))
    (hsome : rest = [] → leafDepth = some depth) :
    verifyChildren visit keys lower upper (rest.map Branch.child) front.length
        (leafDepth, visited) =
      .ok (some depth, markAll visited (rest.flatMap Branch.ids)) := by
  induction rest generalizing front leafDepth visited with
  | nil => rw [hsome rfl]; rfl
  | cons x rest ih =>
      obtain ⟨hlow, hup⟩ := separators_at upper hlowers
      have hnext : verifyChildren visit keys lower upper (rest.map Branch.child)
          (front ++ [x]).length (some depth, markAll visited x.ids) =
            .ok (some depth, markAll (markAll visited x.ids) (rest.flatMap Branch.ids)) :=
        ih (by simpa using hlowers) hrest.tail (by simp) (fun _ => rfl)
      rw [List.length_append, List.length_singleton] at hnext
      rw [List.map_cons, verifyChildren]
      simp only [hlow, hup, hvisit hrest.head hdepth, ok_bind, hnext]
      rw [List.flatMap_cons, markAll_append]

/-- A leaf that can be checked passes its checks. -/
theorem verifyNode_leaf_ok {depth rounds : Nat} {b : Branch} {upper : Option IndexKey}
    {leafDepth : Option Nat} {visited : List Bool}
    (h : Checkable maxKeys nodes 0 upper visited [b])
    (hdepth : leafDepth.all fun expected => decide (expected = depth)) :
    verifyNode nodes maxKeys (rounds + 1) depth b.child b.lower upper (leafDepth, visited) =
      .ok (some depth, markAll visited b.ids) := by
  obtain ⟨entries, next, hnode, hcells, hids⟩ := h.stored b (by simp)
  have hlt : b.child < nodes.length := (List.getElem?_eq_some_iff.mp hnode).1
  have hunvisited : visited[b.child]? = some false := h.unvisited b.child (by simp [hids])
  have hordered : Ordered maxKeys [⟨b.lower, b.child, entries, next⟩] := by
    simpa [hcells] using h.ordered
  have hsorted : Sorted entries := by simpa using hordered.sorted
  have hcapacity : entries.length ≤ maxKeys := by simpa using hordered.capacity
  have habove : ∀ e ∈ entries, b.lower ≤ (e.1 : WithBot IndexKey) := by
    simpa using hordered.above
  have hupper : ∀ e ∈ entries, upper.all fun bound => decide (e.1 < bound) := by
    simpa [hcells, entriesOf] using h.upper
  have hnext : next.all fun nextId => decide (nextId < nodes.length) := by
    simpa [hcells] using h.next
  have hentries : verifyEntries b.lower upper entries = .ok () :=
    verifyEntries_ok hsorted.ids (fun e he => (all_le_iff b.lower e.1).mpr (habove e he)) hupper
  simp only [verifyNode, check_of (And.intro hlt hunvisited), ok_bind, indexed_of hnode,
    check_of hcapacity, check_of hnext, check_of (List.isChain_iff_pairwise.mpr hsorted.keys),
    hentries, pure_eq_ok, hids]
  rw [check_of hdepth]
  rfl

/-- The children of a node can be checked when the node has been visited. -/
theorem Checkable.children {height : Nat} {upper : Option IndexKey} {visited : List Bool}
    {b : Branch} {branches : List Branch}
    (h : Checkable maxKeys nodes (height + 1) upper visited [b])
    (hbranches : ∀ x ∈ branches, Represents maxKeys nodes height x)
    (hcells : b.cells = branches.flatMap Branch.cells)
    (hids : b.ids = b.child :: branches.flatMap Branch.ids) :
    Checkable maxKeys nodes height upper (visited.set b.child true) branches := by
  obtain ⟨-, hordered, hnodup, hbound, hunvisited, hupper, hnext⟩ := h
  rw [List.flatMap_singleton] at hordered hnodup hbound hunvisited hupper hnext
  rw [hids] at hnodup hbound hunvisited
  obtain ⟨hroot, hnodup⟩ := List.nodup_cons.mp hnodup
  refine ⟨hbranches, hcells ▸ hordered, hnodup,
    fun i hi => hbound i (List.mem_cons_of_mem _ hi), fun i hi => ?_, hcells ▸ hupper,
    hcells ▸ hnext⟩
  have hne : b.child ≠ i := by
    rintro rfl
    exact hroot hi
  rw [List.getElem?_set_ne hne, hunvisited i (List.mem_cons_of_mem _ hi)]

/-- A valid subtree passes the checks below its root, and exactly its nodes are marked. -/
theorem verifyNode_ok {height depth : Nat} {b : Branch} {upper : Option IndexKey}
    {leafDepth : Option Nat} {visited : List Bool}
    (h : Checkable maxKeys nodes height upper visited [b])
    (hdepth : leafDepth.all fun expected => decide (expected = depth + height)) {rounds : Nat}
    (hrounds : height < rounds) :
    verifyNode nodes maxKeys rounds depth b.child b.lower upper (leafDepth, visited) =
      .ok (some (depth + height), markAll visited b.ids) := by
  obtain ⟨rounds, rfl⟩ := Nat.exists_eq_succ_of_ne_zero (Nat.ne_of_gt (Nat.zero_lt_of_lt hrounds))
  induction height generalizing b depth upper leafDepth visited rounds with
  | zero => exact verifyNode_leaf_ok h hdepth
  | succ height ih =>
      obtain ⟨keys, branches, hnode, hlowers, hne, hlength, hbranches, hcells, hids⟩ :=
        h.stored b (by simp)
      have hroot : b.child ∈ [b].flatMap Branch.ids := by simp [hids]
      have hcount : (branches.map Branch.child).length = keys.length + 1 := by
        have := congrArg List.length hlowers
        simpa using this
      have hrow := h.children hbranches hcells hids
      have hincreasing := branches_increasing hbranches hrow.ordered
      rw [hlowers] at hincreasing
      have hkeys : keys.Pairwise (· < ·) :=
        (List.pairwise_map.mp (List.pairwise_cons.mp hincreasing).2).imp WithBot.coe_lt_coe.mp
      have hchild {x : Branch} {upper : Option IndexKey} {leafDepth : Option Nat}
          {visited : List Bool} (hx : Checkable maxKeys nodes height upper visited [x])
          (hdepth : leafDepth.all fun expected => decide (expected = depth + (height + 1))) :
          verifyNode nodes maxKeys rounds (depth + 1) x.child x.lower upper (leafDepth, visited) =
            .ok (some (depth + (height + 1)), markAll visited x.ids) := by
        have hfewer : height < rounds := Nat.lt_of_succ_lt_succ hrounds
        obtain ⟨rounds, rfl⟩ :=
          Nat.exists_eq_succ_of_ne_zero (Nat.ne_of_gt (Nat.zero_lt_of_lt hfewer))
        have hsum : depth + (height + 1) = depth + 1 + height := by omega
        rw [hsum] at hdepth ⊢
        exact ih hx hdepth rounds hfewer
      have hchildren := verifyChildren_ok (show ([] ++ branches).map Branch.lower =
        b.lower :: keys.map WithBot.some from hlowers) hchild hrow hdepth ?_
      · simp only [verifyNode, check_of (And.intro (h.bound _ hroot) (h.unvisited _ hroot)),
          ok_bind, indexed_of hnode, check_of (And.intro hne (And.intro hlength hcount)),
          check_of (List.isChain_iff_pairwise.mpr hkeys)]
        rw [hids]
        exact hchildren
      · rintro rfl
        simp at hlowers

/-- The walk down the first children ends at the first leaf of the row. -/
theorem Represents.leftmostLeaf {height : Nat} {b : Branch}
    (h : Represents maxKeys nodes height b) {rounds : Nat} (hrounds : height < rounds) :
    ∃ c rest, b.cells = c :: rest ∧ Index.leftmostLeaf nodes rounds b.child = .ok c.id := by
  obtain ⟨rounds, rfl⟩ := Nat.exists_eq_succ_of_ne_zero (Nat.ne_of_gt (Nat.zero_lt_of_lt hrounds))
  induction height generalizing b rounds with
  | zero =>
      obtain ⟨entries, next, hnode, hcells, -⟩ := h
      refine ⟨_, [], hcells, ?_⟩
      simp only [Index.leftmostLeaf, indexed_of hnode, ok_bind, pure_eq_ok]
  | succ height ih =>
      obtain ⟨keys, branches, hnode, hlower, -, -, hbranches, hcells, -⟩ := h
      obtain ⟨x, others, rfl, -, -⟩ := List.map_eq_cons_iff.mp hlower
      obtain ⟨rounds, rfl⟩ := Nat.exists_eq_succ_of_ne_zero
        (Nat.ne_of_gt (Nat.zero_lt_of_lt (Nat.lt_of_succ_lt_succ hrounds)))
      obtain ⟨c, rest, hfirst, hfound⟩ :=
        ih (hbranches x List.mem_cons_self) rounds (Nat.lt_of_succ_lt_succ hrounds)
      refine ⟨c, rest ++ others.flatMap Branch.cells, ?_, ?_⟩
      · rw [hcells, List.flatMap_cons, hfirst, List.cons_append]
      · have hchild : ((x :: others).map Branch.child)[0]? = some x.child := rfl
        rw [Index.leftmostLeaf]
        simp only [indexed_of hnode, ok_bind, indexed_of hchild, hfound]

/-- Entries in order, above those before, pass the check. -/
theorem verifyOrder_ok {previous : Option IndexKey} {entries : List LeafEntry}
    (hsorted : (entries.map Prod.fst).Pairwise (· < ·))
    (hprevious : ∀ prior ∈ previous, ∀ e ∈ entries, prior < e.1) :
    ∃ last, verifyOrder previous entries = .ok last ∧
      ∀ key, (∀ prior ∈ previous, prior < key) → (∀ e ∈ entries, e.1 < key) →
        ∀ prior ∈ last, prior < key := by
  induction entries generalizing previous with
  | nil => exact ⟨previous, rfl, fun key h _ => h⟩
  | cons entry rest ih =>
      obtain ⟨key, ids⟩ := entry
      obtain ⟨hfirst, hrest⟩ := List.pairwise_cons.mp hsorted
      have hall : previous.all fun prior => decide (prior < key) := by
        cases previous with
        | none => rfl
        | some prior => exact decide_eq_true (hprevious prior rfl _ List.mem_cons_self)
      have hnext : ∀ prior ∈ some key, ∀ e ∈ rest, prior < e.1 := by
        rintro prior ⟨⟩ e he
        exact hfirst e.1 (List.mem_map_of_mem he)
      obtain ⟨last, hlast, hbelow⟩ := ih hrest hnext
      refine ⟨last, ?_, fun k _ hk => hbelow k ?_ fun e he => hk e (List.mem_cons_of_mem _ he)⟩
      · simp only [verifyOrder, check_of hall, ok_bind, hlast]
      · rintro prior ⟨⟩
        exact hk (key, ids) List.mem_cons_self

/-- The walk along the links passes through the row and counts its leaves. -/
theorem verifyChain_ok {c : Cell} {rest : List Cell} (hordered : Ordered maxKeys (c :: rest))
    (hstored : ∀ d ∈ c :: rest, nodes[d.id]? = some (.leaf d.entries d.next))
    (hlinked : LinkedTo none (c :: rest)) (hnodup : ((c :: rest).map Cell.id).Nodup)
    {seen : List Bool} (hseen : ∀ d ∈ c :: rest, seen[d.id]? = some false)
    {previous : Option IndexKey}
    (hprevious : ∀ prior ∈ previous, ∀ e ∈ entriesOf (c :: rest), prior < e.1)
    {count rounds : Nat} (hrounds : (c :: rest).length ≤ rounds) :
    verifyChain nodes rounds c.id seen previous count = .ok (count + (c :: rest).length) := by
  induction rest generalizing c seen previous count rounds with
  | nil =>
      obtain ⟨rounds, rfl⟩ := Nat.exists_eq_succ_of_ne_zero (Nat.ne_of_gt hrounds)
      have hkeys := (hordered.sorted c List.mem_cons_self).keys
      obtain ⟨last, hlast, -⟩ := verifyOrder_ok hkeys fun prior hp e he =>
        hprevious prior hp e (by simpa [entriesOf] using he)
      have hnext : c.next = none := hlinked.1
      simp only [verifyChain, indexed_of (hseen c List.mem_cons_self), ok_bind, check_of trivial,
        indexed_of (hstored c List.mem_cons_self), hlast, hnext, List.length_singleton,
        pure_eq_ok]
  | cons d rest ih =>
      obtain ⟨rounds, rfl⟩ :=
        Nat.exists_eq_succ_of_ne_zero (Nat.ne_of_gt (Nat.lt_of_lt_of_le (Nat.succ_pos _) hrounds))
      have hrow : Ordered maxKeys ([c] ++ d :: rest) := hordered
      have hkeys := (hordered.sorted c List.mem_cons_self).keys
      obtain ⟨last, hlast, hbelow⟩ := verifyOrder_ok hkeys fun prior hp e he =>
        hprevious prior hp e (by simp [entriesOf, he])
      have hnext : c.next = some d.id := hlinked.1
      obtain ⟨hfirst, hids⟩ := List.nodup_cons.mp hnodup
      have hsorted := hordered.entries_sorted.keys
      rw [entriesOf, List.flatMap_cons, List.map_append, List.pairwise_append] at hsorted
      have hunseen : ∀ x ∈ d :: rest, (seen.set c.id true)[x.id]? = some false := by
        intro x hx
        have hne : c.id ≠ x.id := fun heq => hfirst (heq ▸ List.mem_map_of_mem hx)
        rw [List.getElem?_set_ne hne, hseen x (List.mem_cons_of_mem _ hx)]
      have hbeyond : ∀ prior ∈ last, ∀ e ∈ entriesOf (d :: rest), prior < e.1 := by
        intro prior hp e he
        refine hbelow e.1 (fun prior hp => hprevious prior hp e ?_) (fun a ha => ?_) prior hp
        · rw [entriesOf, List.flatMap_cons]
          exact List.mem_append_right _ he
        · exact hsorted.2.2 a.1 (List.mem_map_of_mem ha) e.1 (List.mem_map_of_mem he)
      have htail : verifyChain nodes rounds d.id (seen.set c.id true) last (count + 1) =
          .ok (count + 1 + (d :: rest).length) :=
        ih hrow.of_append.2 (fun x hx => hstored x (List.mem_cons_of_mem _ hx)) hlinked.2 hids
          hunseen hbeyond (Nat.le_of_succ_le_succ hrounds)
      have hcount : count + 1 + (d :: rest).length = count + (c :: d :: rest).length := by
        simp only [List.length_cons]
        omega
      simp only [verifyChain, indexed_of (hseen c List.mem_cons_self), ok_bind, check_of trivial,
        indexed_of (hstored c List.mem_cons_self), hlast, hnext, htail, hcount]

theorem countP_range_leaves :
    (List.range nodes.length).countP (fun i => nodes[i]?.any Node.isLeaf) =
      nodes.countP Node.isLeaf := by
  have hmap : (List.range nodes.length).map (fun i => nodes[i]?) = nodes.map some := by
    apply List.ext_getElem
    · simp
    · intro i hi hi'
      simp
  calc (List.range nodes.length).countP (fun i => nodes[i]?.any Node.isLeaf)
      = ((List.range nodes.length).map fun i => nodes[i]?).countP (Option.any Node.isLeaf) :=
        (List.countP_map (p := Option.any Node.isLeaf) (f := fun i => nodes[i]?)).symm
    _ = nodes.countP Node.isLeaf := by
        rw [hmap, List.countP_map]
        rfl

end Nodes

/-- A valid tree passes its verification. -/
theorem Shaped.verify {tree : BPlusTree} {height : Nat} {cells : List Cell} {ids : List Nat}
    (h : Shaped tree height cells ids) : tree.verify = .ok () := by
  have hnodup := h.nodup
  have hlt : ∀ i ∈ ids, i < tree.nodes.length := fun i hi => h.mem_ids.mp hi
  have hroot : tree.root < tree.nodes.length := hlt _ h.represents.root_mem
  have hne : tree.nodes ≠ [] := List.ne_nil_of_length_pos (Nat.zero_lt_of_lt hroot)
  have hstored : ∀ c ∈ cells, tree.nodes[c.id]? = some (.leaf c.entries c.next) :=
    fun c hc => h.represents.stored hc
  have hcellIds : ∀ c ∈ cells, c.id < tree.nodes.length := fun c hc =>
    (List.getElem?_eq_some_iff.mp (hstored c hc)).1
  have hcheckable : Checkable tree.maxKeys tree.nodes height none
      (List.replicate tree.nodes.length false) [⟨⊥, tree.root, cells, ids⟩] := by
    refine ⟨by simpa using h.represents, ?_, ?_, ?_, ?_, fun e _ => rfl, ?_⟩ <;>
      rw [List.flatMap_singleton]
    · exact h.ordered
    · exact hnodup
    · exact hlt
    · intro i hi
      rw [List.getElem?_replicate, if_pos (hlt i hi)]
    · exact h.next_lt
  have hnodes : verifyNode tree.nodes tree.maxKeys (tree.nodes.length + 1) 0 tree.root none none
      (none, List.replicate tree.nodes.length false) =
      .ok (some (0 + height), markAll (List.replicate tree.nodes.length false) ids) :=
    verifyNode_ok hcheckable rfl (Nat.lt_succ_of_lt h.height_lt)
  have hmarked : (markAll (List.replicate tree.nodes.length false) ids).all id := by
    refine List.all_eq_true.mpr fun mark hmark => ?_
    obtain ⟨i, hi, rfl⟩ := List.mem_iff_getElem.mp hmark
    have hlen : i < tree.nodes.length := by simpa [length_markAll] using hi
    have hat : (markAll (List.replicate tree.nodes.length false) ids)[i]? = some true :=
      getElem?_markAll_of_mem (h.mem_ids.mpr hlen) (by simpa using hlen)
    exact (List.getElem_eq_iff hi).mpr hat
  obtain ⟨c, rest, hcells, hleft⟩ := h.represents.leftmostLeaf h.height_lt
  have hcells : cells = c :: rest := hcells
  subst hcells
  have hsublist := h.represents.cells_sublist
  have hcount : (c :: rest).length ≤ tree.nodes.length + 1 := by
    have hle := hsublist.length_le
    rw [List.length_map, h.allNodes.length_eq, List.length_range] at hle
    exact Nat.le_succ_of_le hle
  have hchain : verifyChain tree.nodes (tree.nodes.length + 1) c.id
      (List.replicate tree.nodes.length false) none 0 = .ok (0 + (c :: rest).length) :=
    verifyChain_ok h.ordered hstored h.linked (hsublist.nodup hnodup)
      (fun d hd => by rw [List.getElem?_replicate, if_pos (hcellIds d hd)]) (by simp) hcount
  have hleaves : 0 + (c :: rest).length = tree.nodes.countP Node.isLeaf := by
    rw [Nat.zero_add, ← h.represents.countP_leaves, ← countP_range_leaves]
    exact h.allNodes.countP_eq _
  rw [BPlusTree.verify, check_of ⟨hne, hroot⟩, ok_bind, h.maxKeys]
  simp only [hnodes, ok_bind, check_of hmarked, BPlusTree.verifyLeafChain, hleft, hchain,
    check_of hleaves]

end NovaBase.Index
