import NovaBase.Index.Verify

/-!
# What verification finds below a node

`routes` lists the leaves below a node from left to right, each with the
separators of all internal nodes above it. The walk of `verify` shows that a
lookup ends in the one leaf whose separators admit its key, and that it has met
each leaf once. It compares the keys of a leaf with the separators of one node
only, the nearest, so nothing is said here about the others.
-/

namespace NovaBase.Index

open Lib

/-- The separators on the two sides of a child. -/
abbrev Bounds := Option IndexKey × Option IndexKey

/-- A key lies between the bounds, the lower one included. -/
def Bounds.Admits (bounds : Bounds) (key : IndexKey) : Prop :=
  (∀ low ∈ bounds.1, low ≤ key) ∧ ∀ high ∈ bounds.2, key < high

/-- The separators around the child at a position. -/
def separators (keys : List IndexKey) (index : Nat) : Bounds :=
  (if index = 0 then none else keys[index - 1]?, keys[index]?)

/-- A leaf, and the separators around the way to it at each node above it. -/
structure Route where
  bounds : List Bounds
  id : Nat
  entries : List LeafEntry
  next : Option Nat

/-- The key is on the right side of every separator above the leaf. -/
def Route.Admits (route : Route) (key : IndexKey) : Prop :=
  ∀ bounds ∈ route.bounds, bounds.Admits key

/-- The same leaf, seen from one node higher. -/
def Route.under (bounds : Bounds) (route : Route) : Route :=
  { route with bounds := bounds :: route.bounds }

/-- The leaves below the children of a node, from the child at `index` on. -/
def childRoutes (below : Nat → List Route) (keys : List IndexKey) : List Nat → Nat → List Route
  | [], _ => []
  | child :: rest, index =>
      (below child).map (Route.under (separators keys index)) ++
        childRoutes below keys rest (index + 1)

/-- The leaves below a node, from left to right. -/
def routes (nodes : List Node) : Nat → Nat → List Route
  | 0, _ => []
  | rounds + 1, nodeId =>
      match nodes[nodeId]? with
      | none => []
      | some (.leaf entries next) => [⟨[], nodeId, entries, next⟩]
      | some (.internal keys children) => childRoutes (routes nodes rounds) keys children 0

/-- Every key that one leaf admits is smaller than every key that the other admits. -/
def Route.Before (a b : Route) : Prop := ∀ k l, a.Admits k → b.Admits l → k < l

theorem Route.admits_under {bounds : Bounds} {route : Route} {key : IndexKey} :
    (route.under bounds).Admits key ↔ bounds.Admits key ∧ route.Admits key :=
  List.forall_mem_cons

/-- What a leaf admits has no gaps. -/
theorem Route.Admits.between {route : Route} {a b key : IndexKey} (ha : route.Admits a)
    (hb : route.Admits b) (hlow : a ≤ key) (hhigh : key ≤ b) : route.Admits key :=
  fun bounds hbounds => ⟨fun low hmem => ((ha bounds hbounds).1 low hmem).trans hlow,
    fun high hmem => hhigh.trans_lt ((hb bounds hbounds).2 high hmem)⟩

/-- A route below a child is a route below the node, between the separators around the child. -/
theorem mem_childRoutes {below : Nat → List Route} {keys : List IndexKey} {children : List Nat}
    {index : Nat} {route : Route} :
    route ∈ childRoutes below keys children index ↔
      ∃ i child inner, children[i]? = some child ∧ inner ∈ below child ∧
        route = inner.under (separators keys (index + i)) := by
  induction children generalizing index with
  | nil => simp [childRoutes]
  | cons child rest ih =>
      rw [childRoutes, List.mem_append, List.mem_map, ih]
      constructor
      · rintro (⟨inner, hinner, rfl⟩ | ⟨i, other, inner, hchild, hinner, rfl⟩)
        · exact ⟨0, child, inner, rfl, hinner, rfl⟩
        · refine ⟨i + 1, other, inner, hchild, hinner, ?_⟩
          rw [Nat.add_assoc, Nat.add_comm 1 i]
      · rintro ⟨i, other, inner, hchild, hinner, rfl⟩
        cases i with
        | zero =>
            obtain rfl : child = other := by simpa using hchild
            exact .inl ⟨inner, hinner, rfl⟩
        | succ i =>
            refine .inr ⟨i, other, inner, hchild, hinner, ?_⟩
            rw [Nat.add_assoc, Nat.add_comm 1 i]

section Bounds

variable {keys : List IndexKey}

/-- The separators to the left of a child lie below those to its right. -/
theorem separators_lt (hkeys : keys.Pairwise (· < ·)) {i j : Nat} (hij : i < j)
    (hj : j ≤ keys.length) {k l : IndexKey} (hk : (separators keys i).Admits k)
    (hl : (separators keys j).Admits l) : k < l := by
  have hi : i < keys.length := by omega
  have hprev : j - 1 < keys.length := by omega
  have hhigh : k < keys[i] := hk.2 keys[i] (List.getElem?_eq_getElem hi)
  have hlow : keys[j - 1] ≤ l := by
    refine hl.1 keys[j - 1] ?_
    rw [separators, if_neg (by omega)]
    exact List.getElem?_eq_getElem hprev
  rcases Nat.lt_or_ge i (j - 1) with hlt | hge
  · calc
      k < keys[i] := hhigh
      _ < keys[j - 1] := List.pairwise_iff_getElem.mp hkeys i (j - 1) hi hprev hlt
      _ ≤ l := hlow
  · have hsame : j - 1 = i := by omega
    simp only [hsame] at hlow
    exact hhigh.trans_le hlow

/-- A key lies between the separators of the child that it belongs to. -/
theorem separators_childIndex (hkeys : keys.Pairwise (· < ·)) (key : IndexKey) :
    childIndex keys key ≤ keys.length ∧ (separators keys (childIndex keys key)).Admits key := by
  obtain ⟨low, high, rfl, hlength, hlow, hhigh⟩ := childIndex_keys key hkeys
  rw [← hlength]
  refine ⟨by simp, fun k hk => ?_, fun k hk => ?_⟩
  · rw [separators] at hk
    split at hk
    · simp at hk
    · rename_i hne
      rw [List.getElem?_append_left (by omega)] at hk
      exact hlow k (List.mem_of_getElem? hk)
  · have hat : (low ++ high)[low.length]? = some k := hk
    rw [List.getElem?_append_right le_rfl] at hat
    exact hhigh k (List.mem_of_getElem? hat)

end Bounds

/-- What a successful walk has done: it has met each leaf of a row once, and no other leaf. -/
structure Explored (nodes : List Node) (visited visited' : List Bool) (row : List Route) :
    Prop where
  length : visited'.length = visited.length
  fewer : visited'.count false ≤ visited.count false
  stored : ∀ x ∈ row, nodes[x.id]? = some (.leaf x.entries x.next)
  fresh : ∀ x ∈ row, visited[x.id]? = some false
  marked : ∀ {i entries next}, nodes[i]? = some (.leaf entries next) →
    visited'[i]? = if i ∈ row.map Route.id then some true else visited[i]?
  nodup : (row.map Route.id).Nodup
  sorted : ∀ x ∈ row, Sorted x.entries
  ordered : row.Pairwise Route.Before

section Explored

variable {nodes : List Node} {visited middle visited' : List Bool} {row other : List Route}

theorem count_set_true {nodeId : Nat} (h : visited[nodeId]? = some false) :
    (visited.set nodeId true).count false + 1 = visited.count false := by
  induction visited generalizing nodeId with
  | nil => simp at h
  | cons mark rest ih =>
      cases nodeId with
      | zero =>
          obtain rfl : mark = false := by simpa using h
          simp
      | succ nodeId =>
          have hat : rest[nodeId]? = some false := by simpa using h
          have hrest := ih hat
          rw [List.set_cons_succ, List.count_cons, List.count_cons]
          omega

/-- Nothing has been explored yet. -/
theorem Explored.nil : Explored nodes visited visited [] := by
  refine ⟨rfl, le_rfl, ?_, ?_, ?_, ?_, ?_, ?_⟩ <;> simp

/-- A leaf that was not visited is met. -/
theorem Explored.leaf {nodeId : Nat} {entries : List LeafEntry} {next : Option Nat}
    (hnode : nodes[nodeId]? = some (.leaf entries next)) (hfresh : visited[nodeId]? = some false)
    (hsorted : Sorted entries) :
    Explored nodes visited (visited.set nodeId true) [⟨[], nodeId, entries, next⟩] := by
  have hcount := count_set_true hfresh
  have hlt : nodeId < visited.length := (List.getElem?_eq_some_iff.mp hfresh).1
  refine ⟨List.length_set, by omega, by simpa using hnode, by simpa using hfresh,
    fun {i _ _} _ => ?_, by simp, by simpa using hsorted, List.pairwise_singleton _ _⟩
  by_cases hsame : i = nodeId
  · subst hsame
    simp [hlt]
  · rw [List.getElem?_set_ne (Ne.symm hsame)]
    simp [hsame]

/-- An internal node that was not visited adds no leaf. -/
theorem Explored.enter {nodeId : Nat} {keys : List IndexKey} {children : List Nat}
    (hnode : nodes[nodeId]? = some (.internal keys children))
    (hfresh : visited[nodeId]? = some false)
    (h : Explored nodes (visited.set nodeId true) visited' row) :
    Explored nodes visited visited' row := by
  have hcount := count_set_true hfresh
  have hfewer := h.fewer
  have hother : ∀ {i : Nat} {entries next}, nodes[i]? = some (Node.leaf entries next) →
      (visited.set nodeId true)[i]? = visited[i]? := by
    intro i entries next hleaf
    have hne : nodeId ≠ i := by
      rintro rfl
      simp [hnode] at hleaf
    rw [List.getElem?_set_ne hne]
  refine ⟨h.length.trans List.length_set, by omega, h.stored, fun x hx => ?_,
    fun hleaf => ?_, h.nodup, h.sorted, h.ordered⟩
  · rw [← hother (h.stored x hx)]
    exact h.fresh x hx
  · rw [h.marked hleaf, hother hleaf]

/-- The same leaves, seen from one node higher. -/
theorem Explored.under (bounds : Bounds) (h : Explored nodes visited visited' row) :
    Explored nodes visited visited' (row.map (Route.under bounds)) := by
  have hids : (row.map (Route.under bounds)).map Route.id = row.map Route.id := by
    rw [List.map_map]
    rfl
  refine ⟨h.length, h.fewer, List.forall_mem_map.mpr h.stored, List.forall_mem_map.mpr h.fresh,
    fun hleaf => ?_, hids ▸ h.nodup, List.forall_mem_map.mpr h.sorted, ?_⟩
  · rw [hids]
    exact h.marked hleaf
  · refine List.pairwise_map.mpr (h.ordered.imp fun hbefore k l hk hl => ?_)
    exact hbefore k l (Route.admits_under.mp hk).2 (Route.admits_under.mp hl).2

/-- One walk after another meets the leaves of both. -/
theorem Explored.append (hfirst : Explored nodes visited middle row)
    (hsecond : Explored nodes middle visited' other)
    (hbefore : ∀ a ∈ row, ∀ b ∈ other, a.Before b) :
    Explored nodes visited visited' (row ++ other) := by
  have hnew : ∀ b ∈ other, b.id ∉ row.map Route.id ∧ visited[b.id]? = some false := by
    intro b hb
    have hmiddle := hsecond.fresh b hb
    rw [hfirst.marked (hsecond.stored b hb)] at hmiddle
    split at hmiddle
    · simp at hmiddle
    · rename_i hnot
      exact ⟨hnot, hmiddle⟩
  refine ⟨hsecond.length.trans hfirst.length, hsecond.fewer.trans hfirst.fewer,
    List.forall_mem_append.mpr ⟨hfirst.stored, hsecond.stored⟩,
    List.forall_mem_append.mpr ⟨hfirst.fresh, fun b hb => (hnew b hb).2⟩, fun {i _ _} hleaf => ?_,
    ?_, List.forall_mem_append.mpr ⟨hfirst.sorted, hsecond.sorted⟩,
    List.pairwise_append.mpr ⟨hfirst.ordered, hsecond.ordered, hbefore⟩⟩
  · rw [hsecond.marked hleaf, hfirst.marked hleaf, List.map_append]
    by_cases hi : i ∈ other.map Route.id <;> by_cases hi' : i ∈ row.map Route.id <;>
      simp [hi, hi']
  · rw [List.map_append]
    refine List.nodup_append.mpr ⟨hfirst.nodup, hsecond.nodup, fun i hi j hj hsame => ?_⟩
    obtain ⟨b, hb, rfl⟩ := List.mem_map.mp hj
    exact (hnew b hb).1 (hsame ▸ hi)

end Explored

/-- The walk down from a node ends at the leaf of the row that admits the key. -/
def Finds (nodes : List Node) (visited : List Bool) (row : List Route) (nodeId : Nat) : Prop :=
  ∀ key rounds, visited.count false ≤ rounds →
    ∃ x ∈ row, x.Admits key ∧ findLeafFrom nodes key rounds nodeId = .ok x.id

section Walk

variable {nodes : List Node} {maxKeys : Nat}

theorem check_eq_ok {condition : Prop} [Decidable condition] {message : Message} {u : Unit} :
    check condition message = .ok u ↔ condition :=
  require_eq_ok

/-- Entries that pass the check have identifiers in order. -/
theorem sorted_of_verifyEntries {lower upper : Option IndexKey} {entries : List LeafEntry}
    {u : Unit} (h : verifyEntries lower upper entries = .ok u) :
    ∀ e ∈ entries, e.2 ≠ [] ∧ e.2.Pairwise (· < ·) := by
  induction entries with
  | nil => simp
  | cons entry rest ih =>
      simp only [verifyEntries, verifyEntry, bind_eq_ok, check_eq_ok] at h
      obtain ⟨-, ⟨-, -, hne, hids⟩, hrest⟩ := h
      exact List.forall_mem_cons.mpr ⟨⟨hne, List.isChain_iff_pairwise.mp hids⟩, ih hrest⟩

/-- The loop over the children explores the leaves below each of them. -/
theorem explored_of_verifyChildren
    {visit : Nat → Option IndexKey → Option IndexKey → Visit → Partial Visit}
    {below : Nat → List Route} {keys : List IndexKey} (hkeys : keys.Pairwise (· < ·))
    (hvisit : ∀ {child lower upper leafDepth visited leafDepth' visited'},
      visit child lower upper (leafDepth, visited) = .ok (leafDepth', visited') →
      Explored nodes visited visited' (below child) ∧ Finds nodes visited (below child) child)
    {lower upper : Option IndexKey} {rest : List Nat} {index : Nat}
    (hlength : index + rest.length = keys.length + 1)
    {leafDepth leafDepth' : Option Nat} {visited visited' : List Bool}
    (h : verifyChildren visit keys lower upper rest index (leafDepth, visited) =
      .ok (leafDepth', visited')) :
    Explored nodes visited visited' (childRoutes below keys rest index) ∧
      ∀ i child key rounds, rest[i]? = some child →
        (separators keys (index + i)).Admits key → visited.count false ≤ rounds →
        ∃ x ∈ childRoutes below keys rest index, x.Admits key ∧
          findLeafFrom nodes key rounds child = .ok x.id := by
  induction rest generalizing index leafDepth visited with
  | nil =>
      simp only [verifyChildren, pure_eq_ok, Except.ok.injEq, Prod.mk.injEq] at h
      obtain ⟨-, rfl⟩ := h
      exact ⟨.nil, by simp⟩
  | cons child rest ih =>
      simp only [verifyChildren, bind_eq_ok] at h
      obtain ⟨⟨middleDepth, middle⟩, hchild, hrest⟩ := h
      obtain ⟨hfirst, hfind⟩ := hvisit hchild
      have hshift : index + 1 + rest.length = keys.length + 1 := by
        rw [List.length_cons] at hlength
        omega
      obtain ⟨hothers, hfindOthers⟩ := ih hshift hrest
      refine ⟨(hfirst.under (separators keys index)).append hothers ?_, ?_⟩
      · intro a ha b hb k l hk hl
        obtain ⟨inner, -, rfl⟩ := List.mem_map.mp ha
        obtain ⟨i, other, inner', hother, -, rfl⟩ := mem_childRoutes.mp hb
        have hi : i < rest.length := (List.getElem?_eq_some_iff.mp hother).1
        exact separators_lt hkeys (by omega) (by omega) (Route.admits_under.mp hk).1
          (Route.admits_under.mp hl).1
      · intro i other key rounds hother hadmits hrounds
        cases i with
        | zero =>
            obtain rfl : child = other := by simpa using hother
            obtain ⟨x, hx, hkey, hleaf⟩ := hfind key rounds hrounds
            refine ⟨x.under (separators keys index), List.mem_append_left _ ?_,
              Route.admits_under.mpr ⟨hadmits, hkey⟩, hleaf⟩
            exact List.mem_map_of_mem hx
        | succ i =>
            rw [← Nat.add_assoc, Nat.add_right_comm] at hadmits
            obtain ⟨x, hx, hkey, hleaf⟩ := hfindOthers i other key rounds hother hadmits
              (hfirst.fewer.trans hrounds)
            exact ⟨x, List.mem_append_right _ hx, hkey, hleaf⟩

/-- The walk of `verify` explores the leaves below a node. -/
theorem explored_of_verifyNode {rounds depth nodeId : Nat} {lower upper : Option IndexKey}
    {leafDepth leafDepth' : Option Nat} {visited visited' : List Bool}
    (h : verifyNode nodes maxKeys rounds depth nodeId lower upper (leafDepth, visited) =
      .ok (leafDepth', visited')) :
    Explored nodes visited visited' (routes nodes rounds nodeId) ∧
      Finds nodes visited (routes nodes rounds nodeId) nodeId := by
  induction rounds generalizing depth nodeId lower upper leafDepth leafDepth' visited visited' with
  | zero => simp [verifyNode] at h
  | succ rounds ih =>
      simp only [verifyNode, bind_eq_ok, check_eq_ok] at h
      obtain ⟨-, ⟨-, hfresh⟩, node, hnode, h⟩ := h
      have hstored : nodes[nodeId]? = some node := indexed_eq_ok.mp hnode
      have hcount := count_set_true hfresh
      cases node with
      | leaf entries next =>
          simp only [bind_eq_ok, check_eq_ok, pure_eq_ok, Except.ok.injEq, Prod.mk.injEq] at h
          obtain ⟨-, -, -, -, _, hkeys, _, hentries, -, -, -, rfl⟩ := h
          have hrow : routes nodes (rounds + 1) nodeId = [⟨[], nodeId, entries, next⟩] := by
            simp only [routes, hstored]
          rw [hrow]
          refine ⟨.leaf hstored hfresh ⟨List.isChain_iff_pairwise.mp hkeys,
            sorted_of_verifyEntries hentries⟩, fun key steps hsteps => ?_⟩
          obtain ⟨steps, rfl⟩ := Nat.exists_eq_succ_of_ne_zero (n := steps) (by omega)
          refine ⟨_, List.mem_singleton_self _, by simp [Route.Admits], ?_⟩
          simp only [findLeafFrom, indexed_of hstored, ok_bind, pure_eq_ok]
      | internal keys children =>
          simp only [bind_eq_ok, check_eq_ok] at h
          obtain ⟨-, ⟨hne, -, hlength⟩, -, hincreasing, hchildren⟩ := h
          have hkeys : keys.Pairwise (· < ·) := List.isChain_iff_pairwise.mp hincreasing
          have hrow : routes nodes (rounds + 1) nodeId =
              childRoutes (routes nodes rounds) keys children 0 := by
            simp only [routes, hstored]
          obtain ⟨hexplored, hfind⟩ := explored_of_verifyChildren hkeys (fun hvisit => ih hvisit)
            (by omega) hchildren
          rw [hrow]
          refine ⟨hexplored.enter hstored hfresh, fun key steps hsteps => ?_⟩
          obtain ⟨steps, rfl⟩ := Nat.exists_eq_succ_of_ne_zero (n := steps) (by omega)
          obtain ⟨hindex, hadmits⟩ := separators_childIndex hkeys key
          have hchild : children[childIndex keys key]? = some children[childIndex keys key] :=
            List.getElem?_eq_getElem (by omega)
          rw [← Nat.zero_add (childIndex keys key)] at hadmits
          obtain ⟨x, hx, hkey, hleaf⟩ := hfind _ _ key steps hchild hadmits (by omega)
          refine ⟨x, hx, hkey, ?_⟩
          simp only [findLeafFrom, indexed_of hstored, ok_bind, indexed_of hchild, hleaf]

end Walk

end NovaBase.Index
