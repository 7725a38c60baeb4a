import NovaBase.Core.Error
import NovaBase.Lib.Checksum

/-!
# Slotted data pages

A page holds opaque records in stable slots. Its fixed-size image has a
32-byte header, a slot directory that grows upward from it, and record bytes
packed downward from the end of the page.
-/

namespace NovaBase.Storage

open Lib Lib.Bytes

/-- Fixed on-disk page size in bytes. -/
def pageSize : Nat := 4096

/-- `NVPG`, at the start of every page. -/
def pageMagic : Bytes := [0x4e, 0x56, 0x50, 0x47]

def pageFormatVersion : Nat := 1

def pageHeaderSize : Nat := 32

def slotSize : Nat := 4

/-- The checksum occupies the bytes from here up to `checksumEnd`. -/
def checksumStart : Nat := 16

/-- The byte behind the checksum in the header. -/
def checksumEnd : Nat := 20

/-- The directory offset that marks a deleted slot. -/
def deletedOffset : Nat := 65535

/-- Stable zero-based identifier of a page in a page file. -/
abbrev PageId := UInt64

/-- Stable zero-based identifier of a record slot within a page. -/
abbrev SlotId := UInt16

/-- CRC-32 of `bytes`, with the bytes at `start..stop` read as zero. -/
def crc32 (bytes : Bytes) (start stop : Nat) : BitVec 32 :=
  ~~~Checksum.register 0xedb88320#32 (BitVec.allOnes 32) (Checksum.mask start stop bytes)

/-- A slotted data page containing opaque record byte strings. -/
structure Page where
  id : PageId
  slots : List (Option Bytes)
  deriving DecidableEq

/-- The number, if it fits into two bytes. -/
def asU16 (value : Nat) : Result Nat :=
  if value < 65536 then .ok value else .error (.storage "page offset exceeds u16")

/-- The slot at an index, if its number fits into two bytes. -/
def slotId (index : Nat) : Result SlotId :=
  if index < 65536 then .ok (UInt16.ofNat index)
  else .error (.storage "page slot identifier space exhausted")

namespace Page

/-- An empty page. -/
def new (id : PageId) : Page := ⟨id, []⟩

/-- The number of live records. -/
def len (page : Page) : Nat := page.slots.countP Option.isSome

/-- The bytes stored in a slot, or `none` for a missing or deleted slot. -/
def get (page : Page) (slot : SlotId) : Option Bytes := (page.slots[slot.toNat]?).join

/-- The live records with their slots, in the order of the slots. -/
def records (page : Page) : List (SlotId × Bytes) :=
  page.slots.zipIdx.filterMap fun (slot, index) =>
    if index < 65536 then slot.map fun record => (UInt16.ofNat index, record) else none

/-- The number of bytes available for a new record; a deleted slot is reused first. -/
def freeSpace (page : Page) : Nat :=
  let directorySize := page.slots.length * slotSize
  let payloadSize := (page.slots.filterMap fun slot => slot.map List.length).sum
  pageSize - (pageHeaderSize + directorySize + payloadSize) -
    if page.slots.any Option.isNone then 0 else slotSize

/-- Insert an opaque record, returning its slot and the page afterwards. -/
def insert (page : Page) (record : Bytes) : Result SlotId × Page :=
  if page.freeSpace < record.length then
    (.error (.storage (s!"record of {record.length} bytes does not fit in page " ++
      s!"{page.id.toNat} ({page.freeSpace} bytes free)")), page)
  else
    match page.slots.findIdx? Option.isNone with
    | some index => (slotId index, { page with slots := page.slots.set index (some record) })
    | none =>
        match slotId page.slots.length with
        | .error cause => (.error cause, page)
        | .ok id => (.ok id, { page with slots := page.slots ++ [some record] })

/-- Remove and return a record, keeping its slot for reuse. -/
def remove (page : Page) (slot : SlotId) : Result Bytes × Page :=
  match page.get slot with
  | some record => (.ok record, { page with slots := page.slots.set slot.toNat none })
  | none => (.error (.notFound s!"page slot {slot.toNat}"), page)

/-- Fill in the directory and the payload area, slot by slot. The state is the image so far
and the offset of the lowest payload byte written. -/
def writeSlots (freeStart : Nat) :
    List (Option Bytes) → Nat → Bytes → Nat → Result (Bytes × Nat)
  | [], _, bytes, payloadStart => .ok (bytes, payloadStart)
  | some record :: slots, index, bytes, payloadStart => do
      let directoryOffset := pageHeaderSize + index * slotSize
      require (record.length ≤ payloadStart ∧ freeStart ≤ payloadStart - record.length)
        (NovaError.storage "page payload exceeds page size")
      let payloadStart := payloadStart - record.length
      let bytes := splice bytes payloadStart record
      let bytes := splice bytes directoryOffset (toBigEndian 2 (← asU16 payloadStart))
      let bytes := splice bytes (directoryOffset + 2) (toBigEndian 2 (← asU16 record.length))
      writeSlots freeStart slots (index + 1) bytes payloadStart
  | none :: slots, index, bytes, payloadStart =>
      let directoryOffset := pageHeaderSize + index * slotSize
      let bytes := splice bytes directoryOffset (toBigEndian 2 deletedOffset)
      writeSlots freeStart slots (index + 1) bytes payloadStart

/-- Serialize the page into its checksummed fixed-size representation. -/
def toBytes (page : Page) : Result Bytes := do
  require (page.slots.length < 65536) (NovaError.storage "page has too many slots")
  require (page.len < 65536) (NovaError.storage "page has too many live records")
  let freeStart := pageHeaderSize + page.slots.length * slotSize
  require (freeStart ≤ pageSize) (NovaError.storage "page directory exceeds page size")
  let (bytes, payloadStart) ←
    writeSlots freeStart page.slots 0 (List.replicate pageSize 0) pageSize
  let bytes := splice bytes 0 pageMagic
  let bytes := splice bytes 4 (toBigEndian 2 pageFormatVersion)
  let bytes := splice bytes 6 (toBigEndian 2 (← asU16 pageHeaderSize))
  let bytes := splice bytes 8 (toBigEndian 8 page.id.toNat)
  let bytes := splice bytes 20 (toBigEndian 2 page.slots.length)
  let bytes := splice bytes 22 (toBigEndian 2 page.len)
  let bytes := splice bytes 24 (toBigEndian 2 (← asU16 freeStart))
  let bytes := splice bytes 26 (toBigEndian 2 (← asU16 payloadStart))
  let checksum := crc32 bytes checksumStart checksumEnd
  return splice bytes checksumStart (toBigEndian 4 checksum.toNat)

/-- Read the directory from slot `index` on. `ranges` are the payload ranges of the slots
before it; the result has all ranges, and the slots read here. -/
def readSlots (bytes : Bytes) (freeEnd : Nat) :
    Nat → Nat → List (Nat × Nat) → Result (List (Nat × Nat) × List (Option Bytes))
  | 0, _, ranges => .ok (ranges, [])
  | count + 1, index, ranges => do
      let offset := pageHeaderSize + index * slotSize
      let recordOffset := fromBigEndian (slice bytes offset (offset + 2))
      let recordLength := fromBigEndian (slice bytes (offset + 2) (offset + slotSize))
      if recordOffset = deletedOffset then
        require (recordLength = 0) (NovaError.corruption "deleted slot has a non-zero length")
        let (ranges, slots) ← readSlots bytes freeEnd count (index + 1) ranges
        return (ranges, none :: slots)
      else
        let start := recordOffset
        let stop := start + recordLength
        require (freeEnd ≤ start ∧ stop ≤ pageSize)
          (NovaError.corruption "slot payload lies outside payload area")
        require (∀ range ∈ ranges, ¬(start < range.2 ∧ range.1 < stop))
          (NovaError.corruption "slot payloads overlap")
        let (ranges, slots) ← readSlots bytes freeEnd count (index + 1) (ranges ++ [(start, stop)])
        return (ranges, some (slice bytes start stop) :: slots)

/-- Decode and validate one fixed-size page. -/
def fromBytes (bytes : Bytes) : Result Page := do
  require (bytes.length = pageSize)
    (NovaError.corruption s!"page must be exactly {pageSize} bytes; got {bytes.length}")
  require (slice bytes 0 4 = pageMagic) (NovaError.corruption "bad page magic")
  let version := fromBigEndian (slice bytes 4 6)
  require (version = pageFormatVersion)
    (NovaError.unsupported s!"unsupported page format version {version}")
  require (fromBigEndian (slice bytes 6 8) = pageHeaderSize)
    (NovaError.corruption "invalid page header size")
  let expectedChecksum := fromBigEndian (slice bytes checksumStart checksumEnd)
  require ((crc32 bytes checksumStart checksumEnd).toNat = expectedChecksum)
    (NovaError.corruption "page checksum mismatch")
  require (slice bytes 28 32 = [0, 0, 0, 0])
    (NovaError.corruption "non-zero reserved page header bytes")
  let id := UInt64.ofNat (fromBigEndian (slice bytes 8 16))
  let slotCount := fromBigEndian (slice bytes 20 22)
  let liveCount := fromBigEndian (slice bytes 22 24)
  let freeStart := fromBigEndian (slice bytes 24 26)
  let freeEnd := fromBigEndian (slice bytes 26 28)
  require (freeStart = pageHeaderSize + slotCount * slotSize ∧ freeStart ≤ freeEnd ∧
      freeEnd ≤ pageSize)
    (NovaError.corruption "invalid page free-space boundaries")
  let (ranges, slots) ← readSlots bytes freeEnd slotCount 0 []
  require (slots.countP Option.isSome = liveCount)
    (NovaError.corruption "live slot count does not match header")
  require ((ranges.map Prod.fst).min?.getD pageSize = freeEnd)
    (NovaError.corruption "payload boundary does not match live slots")
  require (pageSize - freeEnd = (ranges.map fun range => range.2 - range.1).sum)
    (NovaError.corruption "payload area contains gaps")
  return ⟨id, slots⟩

end Page

end NovaBase.Storage
