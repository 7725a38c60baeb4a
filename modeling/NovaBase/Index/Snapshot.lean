import NovaBase.Index.BPlusTree
import NovaBase.Lib.Checksum
import NovaBase.Nbf.Codec

/-!
# Tree snapshots

A snapshot is a 40-byte header and the nodes in the order of their numbers. The
decoder is a function on the input that is left. Opening a snapshot decodes it
and verifies the tree.
-/

namespace NovaBase.Index

open Lib Lib.Bytes

/-- `NVIX`, at the start of every snapshot. -/
def magic : Bytes := [0x4e, 0x56, 0x49, 0x58]

def version : Nat := 1

def headerSize : Nat := 40

/-- Where the checksum stands in the header. -/
def checksumOffset : Nat := 32

/-- The node number that stands for no next leaf. -/
def noneNode : Nat := 2 ^ 64 - 1

/-- Longer strings are refused. -/
def maxStringBytes : Nat := 16 * 1024 * 1024

/-- The checksum of a snapshot, with its own field read as zero. -/
def crc32WithZeroedChecksum (bytes : Bytes) : BitVec 32 :=
  ~~~Checksum.register 0xedb88320#32 (BitVec.allOnes 32)
    (Checksum.mask checksumOffset (checksumOffset + 4) bytes)

/-- The error for a size that does not fit into its field. -/
def sizeError : NovaError :=
  .storage ("index size is not representable: " ++
    "out of range integral type conversion attempted")

/-- A four-byte length. -/
def writeLen (length : Nat) : Result Bytes := do
  require (length ≤ u32Max) sizeError
  return toBigEndian 4 length

/-- The number of a node. -/
def writeNumber (number : Nat) : Result Bytes := do
  require (number < 2 ^ 64) sizeError
  return toBigEndian 8 number

/-- Numbers of nodes, one after the other. -/
def writeNumbers : List Nat → Result Bytes
  | [] => return []
  | number :: rest => do
      let first ← writeNumber number
      let others ← writeNumbers rest
      return first ++ others

/-- A key behind the tag of its type. -/
def encodeKey : IndexKey → Result Bytes
  | .int64 value => return 0 :: toBigEndian 8 value.toUInt64.toNat
  | .float64 value => return 1 :: toBigEndian 8 value.value.bits.toNat
  | .string value => do
      let length ← writeLen (utf8 value).length
      return 2 :: (length ++ utf8 value)
  | .novaId value => return 3 :: value.bytes

/-- Keys one after the other. -/
def encodeKeys : List IndexKey → Result Bytes
  | [] => return []
  | key :: rest => do
      let first ← encodeKey key
      let others ← encodeKeys rest
      return first ++ others

/-- Each key of a leaf with the number of its identifiers, and these. -/
def encodeEntries : List LeafEntry → Result Bytes
  | [] => return []
  | (key, ids) :: rest => do
      let first ← encodeKey key
      let count ← writeLen ids.length
      let others ← encodeEntries rest
      return first ++ (count ++ (ids.flatMap NovaId.bytes ++ others))

/-- A node behind a tag that tells leaves from internal nodes. -/
def encodeNode : Node → Result Bytes
  | .leaf entries next => do
      let next ← next.elim (.ok (toBigEndian 8 noneNode)) writeNumber
      let count ← writeLen entries.length
      let body ← encodeEntries entries
      return 0 :: (next ++ (count ++ body))
  | .internal keys children => do
      let keyCount ← writeLen keys.length
      let body ← encodeKeys keys
      let childCount ← writeLen children.length
      let numbers ← writeNumbers children
      return 1 :: (keyCount ++ (body ++ (childCount ++ numbers)))

/-- Nodes in the order of their numbers. -/
def encodeNodes : List Node → Result Bytes
  | [] => return []
  | node :: rest => do
      let first ← encodeNode node
      let others ← encodeNodes rest
      return first ++ others

/-- The snapshot of a tree. -/
def encodeTree (maxKeys root : Nat) (nodes : List Node) : Result Bytes := do
  let capacity ← writeLen maxKeys
  let root ← writeNumber root
  let nodeCount ← writeNumber nodes.length
  let body ← encodeNodes nodes
  let bytes := magic ++ (toBigEndian 2 version ++ (toBigEndian 2 headerSize ++
    (capacity ++ (toBigEndian 4 0 ++ (root ++ (nodeCount ++ (toBigEndian 4 0 ++
      (toBigEndian 4 0 ++ body))))))))
  let checksum := crc32WithZeroedChecksum bytes
  return splice bytes checksumOffset (toBigEndian 4 checksum.toNat)

namespace Cursor

/-- The next `length` bytes, and the input after them. -/
def take (length : Nat) (input : Bytes) : Result (Bytes × Bytes) := do
  require (length ≤ input.length) (NovaError.corruption "truncated index file")
  return (input.take length, input.drop length)

/-- A number of `width` bytes, most significant byte first. -/
def word (width : Nat) (input : Bytes) : Result (Nat × Bytes) := do
  let (bytes, input) ← take width input
  return (fromBigEndian bytes, input)

def u8 : Bytes → Result (Nat × Bytes) := word 1

def u16 : Bytes → Result (Nat × Bytes) := word 2

def u32 : Bytes → Result (Nat × Bytes) := word 4

def u64 : Bytes → Result (Nat × Bytes) := word 8

/-- The size of a collection, each element of which takes a byte or more. -/
def count (maximum : Nat) (input : Bytes) : Result (Nat × Bytes) := do
  let (count, input) ← u32 input
  require (count ≤ maximum ∧ count ≤ input.length)
    (NovaError.corruption "impossible index collection count")
  return (count, input)

end Cursor

/-- So many elements, one after another. -/
def decodeMany {α : Type} (decode : Bytes → Result (α × Bytes)) :
    Nat → Bytes → Result (List α × Bytes)
  | 0, input => return ([], input)
  | count + 1, input => do
      let (first, input) ← decode input
      let (others, input) ← decodeMany decode count input
      return (first :: others, input)

/-- Read an identifier. -/
def decodeId (input : Bytes) : Result (NovaId × Bytes) := do
  let (bytes, input) ← Cursor.take novaIdLength input
  match NovaId.fromBytes bytes with
  | some id => return (id, input)
  | none => .error (.invalidArgument
      s!"nova id must be exactly {novaIdLength} bytes; got {bytes.length}")

/-- Read a key. Every NaN is read as the same one. -/
def decodeKey (input : Bytes) : Result (IndexKey × Bytes) := do
  let (tag, input) ← Cursor.u8 input
  match tag with
  | 0 => do
      let (word, input) ← Cursor.u64 input
      return (.int64 (UInt64.ofNat word).toInt64, input)
  | 1 => do
      let (word, input) ← Cursor.u64 input
      return (.float64 (.new ⟨UInt64.ofNat word⟩), input)
  | 2 => do
      let (length, input) ← Cursor.count maxStringBytes input
      let (bytes, input) ← Cursor.take length input
      match String.fromUTF8? ⟨bytes.toArray⟩ with
      | some text => return (.string text, input)
      | none => corruption "index string is not UTF-8"
  | 3 => do
      let (id, input) ← decodeId input
      return (.novaId id, input)
  | tag => corruption s!"unknown index key tag {tag}"

/-- One entry of a leaf, in a file of `fileLength` bytes. -/
def decodeEntry (fileLength : Nat) (input : Bytes) : Result (LeafEntry × Bytes) := do
  let (key, input) ← decodeKey input
  let (idCount, input) ← Cursor.count (fileLength / 16) input
  require (idCount ≠ 0) (NovaError.corruption "index key has no document ids")
  let (ids, input) ← decodeMany decodeId idCount input
  return ((key, ids), input)

/-- Read a node. Counts are checked before the entries or children are read. -/
def decodeNode (maxKeys fileLength : Nat) (input : Bytes) : Result (Node × Bytes) := do
  let (tag, input) ← Cursor.u8 input
  match tag with
  | 0 => do
      let (rawNext, input) ← Cursor.u64 input
      let next := if rawNext = noneNode then none else some rawNext
      let (entryCount, input) ← Cursor.count maxKeys input
      let (entries, input) ← decodeMany (decodeEntry fileLength) entryCount input
      return (.leaf entries next, input)
  | 1 => do
      let (keyCount, input) ← Cursor.count maxKeys input
      let (keys, input) ← decodeMany decodeKey keyCount input
      let (childCount, input) ← Cursor.count (maxKeys + 1) input
      let (children, input) ← decodeMany Cursor.u64 childCount input
      return (.internal keys children, input)
  | tag => corruption s!"unknown index node tag {tag}"

/-- The capacity, the root and the nodes in a snapshot. -/
def decodeTree (bytes : Bytes) : Result (Nat × Nat × List Node) := do
  require (headerSize ≤ bytes.length)
    (NovaError.corruption "index file is shorter than its header")
  require (bytes.take 4 = magic) (NovaError.corruption "invalid index magic")
  let (_, input) ← Cursor.take 4 bytes
  let (found, input) ← Cursor.u16 input
  require (found = version) (NovaError.unsupported s!"index format version {found}")
  let (size, input) ← Cursor.u16 input
  require (size = headerSize) (NovaError.corruption "invalid index header size")
  let (maxKeys, input) ← Cursor.u32 input
  (validateMaxKeys maxKeys).mapError fun error => .corruption error.display
  let (reserved, input) ← Cursor.u32 input
  require (reserved = 0) (NovaError.corruption "index header reserved field is non-zero")
  let (root, input) ← Cursor.u64 input
  let (nodeCount, input) ← Cursor.u64 input
  let (storedChecksum, input) ← Cursor.u32 input
  let (reserved, input) ← Cursor.u32 input
  require (reserved = 0) (NovaError.corruption "index header reserved field is non-zero")
  require (storedChecksum = (crc32WithZeroedChecksum bytes).toNat)
    (NovaError.corruption "index checksum mismatch")
  require (nodeCount ≠ 0 ∧ nodeCount ≤ bytes.length - headerSize)
    (NovaError.corruption "impossible index node count")
  let (nodes, input) ← decodeMany (decodeNode maxKeys bytes.length) nodeCount input
  require (input = []) (NovaError.corruption "trailing bytes after index nodes")
  return (maxKeys, root, nodes)

/-- Open a snapshot and verify its tree. -/
def BPlusTree.openBytes (bytes : Bytes) : Partial BPlusTree := do
  let (maxKeys, root, nodes) ← (decodeTree bytes).lift
  let tree : BPlusTree := ⟨maxKeys, root, nodes, false⟩
  tree.verify
  return tree

end NovaBase.Index
