import NovaBase.Index.Key
import NovaBase.Lib.Search

/-!
# The B+ tree

Nodes live in one vector and refer to each other by position. A leaf maps each
of its keys to the ids stored under it and names the next leaf; an internal
node routes a key to one of its children. Splits allocate nodes at the end of
the vector; removal leaves the shape alone, so leaves may become empty.

Walks over the nodes are given as many rounds as there are nodes: a longer walk
visits a node twice and would not end. The walks that notice a second visit get
one more round to report it.
-/

namespace NovaBase.Index

open Lib

/-- The capacity of nodes that are made without one. -/
def defaultMaxKeys : Nat := 31

/-- Smaller capacities are refused. -/
def minMaxKeys : Nat := 3

/-- The largest number of four bytes. -/
def u32Max : Nat := 2 ^ 32 - 1

/-- A key and the ids stored under it. -/
abbrev LeafEntry := IndexKey × List NovaId

/-- A node of the tree. A leaf has keys with their identifiers and a link to the next leaf, an
internal node has separators and one child more than these. -/
inductive Node
  | leaf (entries : List LeafEntry) (next : Option Nat)
  | internal (keys : List IndexKey) (children : List Nat)
  deriving DecidableEq

/-- The node is a leaf. -/
def Node.isLeaf : Node → Bool
  | .leaf _ _ => true
  | .internal _ _ => false

/-- A tree, less the path of its file. -/
structure BPlusTree where
  maxKeys : Nat
  root : Nat
  nodes : List Node
  dirty : Bool
  deriving DecidableEq

/-- A capacity is odd, and within bounds. -/
def validateMaxKeys (maxKeys : Nat) : Result Unit :=
  require (minMaxKeys ≤ maxKeys ∧ maxKeys % 2 ≠ 0 ∧ maxKeys ≤ u32Max)
    (NovaError.invalidArgument
      s!"B+ tree max_keys must be an odd value from {minMaxKeys} through {u32Max}")

/-- The child of an internal node that a key belongs to. -/
def childIndex (keys : List IndexKey) (key : IndexKey) : Nat :=
  partitionPoint (fun separator => decide (separator ≤ key)) keys

/-- A leaf's entries with one more id; nothing when the pair is there already. -/
def insertEntry (entries : List LeafEntry) (key : IndexKey) (id : NovaId) :
    Partial (Option (List LeafEntry)) :=
  match binarySearch (entries.map Prod.fst) key with
  | .ok index => do
      let (found, ids) ← indexed entries index
      match binarySearch ids id with
      | .ok _ => return none
      | .error idIndex => return some (entries.set index (found, ids.insertIdx idIndex id))
  | .error index => return some (entries.insertIdx index (key, [id]))

/-- The ids under a key of a leaf. -/
def lookupEntry (entries : List LeafEntry) (key : IndexKey) : Partial (List NovaId) :=
  match binarySearch (entries.map Prod.fst) key with
  | .error _ => return []
  | .ok index => do
      let (_, ids) ← indexed entries index
      return ids

/-- A leaf's entries with one id less; nothing when the pair is not there. -/
def removeEntry (entries : List LeafEntry) (key : IndexKey) (id : NovaId) :
    Partial (Option (List LeafEntry)) :=
  match binarySearch (entries.map Prod.fst) key with
  | .error _ => return none
  | .ok index => do
      let (found, ids) ← indexed entries index
      match binarySearch ids id with
      | .error _ => return none
      | .ok idIndex =>
          let ids := ids.eraseIdx idIndex
          if ids = [] then return some (entries.eraseIdx index)
          else return some (entries.set index (found, ids))

/-- The keys and children of a node after the child at `index` has been split, if it has. -/
def addChild (keys : List IndexKey) (children : List Nat) (index : Nat) :
    Option (IndexKey × Nat) → List IndexKey × List Nat
  | some (separator, right) =>
      (keys.insertIdx index separator, children.insertIdx (index + 1) right)
  | none => (keys, children)

/-- Insert below a node. A node that splits reports the separator and the new right sibling. -/
def insertNode (maxKeys : Nat) :
    Nat → List Node → Nat → IndexKey → NovaId → Partial (List Node × Option (IndexKey × Nat))
  | 0, _, _, _, _ => .error .panic
  | rounds + 1, nodes, nodeId, key, id => do
      match ← indexed nodes nodeId with
      | .leaf entries next =>
          match ← insertEntry entries key id with
          | none => return (nodes, none)
          | some entries =>
              if entries.length ≤ maxKeys then
                return (nodes.set nodeId (.leaf entries next), none)
              else do
                let rightEntries := entries.drop (entries.length / 2)
                let leftEntries := entries.take (entries.length / 2)
                let (separator, _) ← indexed rightEntries 0
                let right := nodes.length
                return (nodes.set nodeId (.leaf leftEntries (some right)) ++
                  [.leaf rightEntries next], some (separator, right))
      | .internal keys children => do
          let index := childIndex keys key
          let child ← indexed children index
          let (nodes, split) ← insertNode maxKeys rounds nodes child key id
          let (keys, children) := addChild keys children index split
          if keys.length ≤ maxKeys then
            return (nodes.set nodeId (.internal keys children), none)
          else do
            let middle := keys.length / 2
            match keys[middle]? with
            | none => .error (.error (.internal "missing split separator"))
            | some separator => do
                require (middle + 1 ≤ children.length) Failure.panic
                let right := nodes.length
                return (nodes.set nodeId
                    (.internal (keys.take middle) (children.take (middle + 1))) ++
                  [.internal (keys.drop (middle + 1)) (children.drop (middle + 1))],
                  some (separator, right))

/-- The walk from a node down to the leaf of a key. -/
def findLeafFrom (nodes : List Node) (key : IndexKey) : Nat → Nat → Partial Nat
  | 0, _ => .error .panic
  | rounds + 1, nodeId => do
      match ← indexed nodes nodeId with
      | .leaf _ _ => return nodeId
      | .internal keys children => do
          let child ← indexed children (childIndex keys key)
          findLeafFrom nodes key rounds child

/-- The pairs of one leaf inside a range, and whether a key beyond the range was met. -/
def scanLeaf (start stop : IndexKey) : List LeafEntry → List (IndexKey × NovaId) × Bool
  | [] => ([], false)
  | (key, ids) :: rest =>
      if key < start then scanLeaf start stop rest
      else if stop < key then ([], true)
      else
        let (pairs, finished) := scanLeaf start stop rest
        (ids.map (fun id => (key, id)) ++ pairs, finished)

/-- The walk along the linked leaves. -/
def rangeFrom (nodes : List Node) (start stop : IndexKey) :
    Nat → Option Nat → List (IndexKey × NovaId) → Partial (List (IndexKey × NovaId))
  | _, none, result => return result
  | 0, some _, _ => .error .panic
  | rounds + 1, some nodeId, result => do
      match ← indexed nodes nodeId with
      | .internal _ _ => .error (.error (.internal "leaf chain reached internal node"))
      | .leaf entries next =>
          let (pairs, finished) := scanLeaf start stop entries
          if finished then return result ++ pairs
          else rangeFrom nodes start stop rounds next (result ++ pairs)

/-- Report a broken invariant of the tree. -/
def check (condition : Prop) [Decidable condition] (message : Message) : Partial Unit :=
  require condition (Failure.error (.corruption message))

/-- The checks on one entry of a leaf between two separators. -/
def verifyEntry (lower upper : Option IndexKey) (entry : LeafEntry) : Partial Unit := do
  check (lower.all (fun bound => decide (bound ≤ entry.1)) ∧
      upper.all (fun bound => decide (entry.1 < bound)))
    "leaf key violates parent separator bounds"
  check (entry.2 ≠ [] ∧ entry.2.IsChain (· < ·))
    "leaf document ids are empty, duplicated, or unsorted"

/-- The checks on the entries of a leaf, from left to right. -/
def verifyEntries (lower upper : Option IndexKey) : List LeafEntry → Partial Unit
  | [] => return ()
  | entry :: rest => do
      verifyEntry lower upper entry
      verifyEntries lower upper rest

/-- The depth of the leaves met so far, and which nodes have been visited. -/
abbrev Visit := Option Nat × List Bool

/-- The loop over the children of an internal node, from `index` on. -/
def verifyChildren (visit : Nat → Option IndexKey → Option IndexKey → Visit → Partial Visit)
    (keys : List IndexKey) (lower upper : Option IndexKey) :
    List Nat → Nat → Visit → Partial Visit
  | [], _, state => return state
  | child :: rest, index, state => do
      let childLower := if index = 0 then lower else keys[index - 1]?
      let childUpper := if index = keys.length then upper else keys[index]?
      let state ← visit child childLower childUpper state
      verifyChildren visit keys lower upper rest (index + 1) state

/-- Check a node between its bounds, and then its children from left to right. The first number
bounds the depth of the calls. -/
def verifyNode (nodes : List Node) (maxKeys : Nat) :
    Nat → Nat → Nat → Option IndexKey → Option IndexKey → Visit → Partial Visit
  | 0, _, _, _, _, _ => .error .panic
  | rounds + 1, depth, nodeId, lower, upper, (leafDepth, visited) => do
      check (nodeId < nodes.length ∧ visited[nodeId]? = some false)
        "node reference is invalid or cyclic"
      let visited := visited.set nodeId true
      match ← indexed nodes nodeId with
      | .leaf entries next => do
          check (entries.length ≤ maxKeys) "leaf exceeds its key capacity"
          check (next.all (fun nextId => decide (nextId < nodes.length)))
            "leaf next pointer is invalid"
          check ((entries.map Prod.fst).IsChain (· < ·)) "leaf keys are not strictly increasing"
          verifyEntries lower upper entries
          check (leafDepth.all (fun expected => decide (expected = depth)))
            "leaves occur at different depths"
          return (some depth, visited)
      | .internal keys children => do
          check (keys ≠ [] ∧ keys.length ≤ maxKeys ∧ children.length = keys.length + 1)
            "internal node has invalid key/child counts"
          check (keys.IsChain (· < ·)) "internal keys are not strictly increasing"
          verifyChildren (verifyNode nodes maxKeys rounds (depth + 1)) keys lower upper children 0
            (leafDepth, visited)

/-- The walk down the first children. -/
def leftmostLeaf (nodes : List Node) : Nat → Nat → Partial Nat
  | 0, _ => .error .panic
  | rounds + 1, nodeId => do
      match ← indexed nodes nodeId with
      | .leaf _ _ => return nodeId
      | .internal _ children => do
          let child ← indexed children 0
          leftmostLeaf nodes rounds child

/-- The last key of a leaf, after the check that its keys continue the order. -/
def verifyOrder : Option IndexKey → List LeafEntry → Partial (Option IndexKey)
  | previous, [] => return previous
  | previous, (key, _) :: rest => do
      check (previous.all (fun prior => decide (prior < key)))
        "leaf chain is not globally ordered"
      verifyOrder (some key) rest

/-- The walk along the linked leaves, which counts them. -/
def verifyChain (nodes : List Node) :
    Nat → Nat → List Bool → Option IndexKey → Nat → Partial Nat
  | 0, _, _, _, _ => .error .panic
  | rounds + 1, nodeId, seen, previous, leafCount => do
      let found ← indexed seen nodeId
      check (found = false) "leaf chain contains a cycle"
      let seen := seen.set nodeId true
      match ← indexed nodes nodeId with
      | .internal _ _ => .error (.error (.corruption "leaf chain points to an internal node"))
      | .leaf entries next => do
          let previous ← verifyOrder previous entries
          match next with
          | none => return leafCount + 1
          | some nextId => verifyChain nodes rounds nextId seen previous (leafCount + 1)

namespace BPlusTree

/-- A new empty tree, before it is first written. -/
def createWithMaxKeys (maxKeys : Nat) : Result BPlusTree := do
  validateMaxKeys maxKeys
  return ⟨maxKeys, 0, [.leaf [] none], true⟩

/-- An empty tree of the default capacity. -/
def create : Result BPlusTree := createWithMaxKeys defaultMaxKeys

/-- Insert an id under a key; a pair that is there already stays. -/
def insert (tree : BPlusTree) (key : IndexKey) (id : NovaId) : Partial BPlusTree := do
  let (nodes, split) ← insertNode tree.maxKeys tree.nodes.length tree.nodes tree.root key id
  match split with
  | some (separator, right) =>
      return ⟨tree.maxKeys, nodes.length,
        nodes ++ [.internal [separator] [tree.root, right]], true⟩
  | none => return ⟨tree.maxKeys, tree.root, nodes, true⟩

/-- The leaf where a key belongs. -/
def findLeaf (tree : BPlusTree) (key : IndexKey) : Partial Nat :=
  findLeafFrom tree.nodes key tree.nodes.length tree.root

/-- All ids stored under a key. -/
def get (tree : BPlusTree) (key : IndexKey) : Partial (List NovaId) := do
  let leaf ← tree.findLeaf key
  match ← indexed tree.nodes leaf with
  | .internal _ _ => .error .panic
  | .leaf entries _ => lookupEntry entries key

/-- The pairs whose key is in an inclusive range, in key and id order. -/
def range (tree : BPlusTree) (start stop : IndexKey) : Partial (List (IndexKey × NovaId)) := do
  require (start ≤ stop)
    (Failure.error (.invalidArgument "index range start must not exceed end"))
  let leaf ← tree.findLeaf start
  rangeFrom tree.nodes start stop tree.nodes.length (some leaf) []

/-- Remove one pair; the answer says whether it was there. -/
def remove (tree : BPlusTree) (key : IndexKey) (id : NovaId) : Partial (Bool × BPlusTree) := do
  let leaf ← tree.findLeaf key
  match ← indexed tree.nodes leaf with
  | .internal _ _ => .error .panic
  | .leaf entries next =>
      match ← removeEntry entries key id with
      | none => return (false, tree)
      | some entries =>
          return (true, { tree with
            nodes := tree.nodes.set leaf (.leaf entries next), dirty := true })

/-- The links from the leftmost leaf lead to every leaf, and no further. -/
def verifyLeafChain (tree : BPlusTree) : Partial Unit := do
  let first ← leftmostLeaf tree.nodes tree.nodes.length tree.root
  let leafCount ← verifyChain tree.nodes (tree.nodes.length + 1) first
    (List.replicate tree.nodes.length false) none 0
  check (leafCount = tree.nodes.countP Node.isLeaf) "leaf chain does not cover every leaf"

/-- Check every invariant of the tree that its authors list. -/
def verify (tree : BPlusTree) : Partial Unit := do
  check (tree.nodes ≠ [] ∧ tree.root < tree.nodes.length) "invalid root node"
  match validateMaxKeys tree.maxKeys with
  | .error error => .error (.error (.corruption error.display))
  | .ok _ => do
      let (_, visited) ← verifyNode tree.nodes tree.maxKeys (tree.nodes.length + 1) 0 tree.root
        none none (none, List.replicate tree.nodes.length false)
      check (visited.all id) "tree contains unreachable nodes"
      tree.verifyLeafChain

end BPlusTree

end NovaBase.Index
