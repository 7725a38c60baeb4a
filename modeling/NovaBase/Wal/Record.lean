import NovaBase.Storage.Page
import NovaBase.Lib.FramedLog

/-!
# Write-ahead log records

The log is a sequence of independently checksummed records: a 36-byte header,
and for a page write a page id and a whole page image. The decoder numbers
records from zero and stops quietly at an incomplete last record.
-/

namespace NovaBase.Wal

open Lib Lib.Bytes Storage

/-- `NVWL`, at the start of every record. -/
def magic : Bytes := [0x4e, 0x56, 0x57, 0x4c]

def version : Nat := 1

def headerSize : Nat := 36

/-- Where the checksum stands in the header. -/
def checksumOffset : Nat := 28

def maxPayload : Nat := pageSize + 8

/-- Monotonically increasing log sequence number. -/
abbrev Lsn := UInt64

/-- Transaction identifier carried by every record. -/
abbrev TransactionId := UInt64

/-- Durable log operation. -/
inductive Operation
  | begin
  | pageWrite (pageId : PageId) (page : Page)
  | commit
  | abort
  | checkpoint
  deriving DecidableEq

/-- One decoded log record. -/
structure LogRecord where
  lsn : Lsn
  transactionId : TransactionId
  operation : Operation
  deriving DecidableEq

/-- The checksum of a record, with its own field read as zero. -/
def crc32 (bytes : Bytes) (start stop : Nat) : BitVec 32 :=
  ~~~Checksum.register 0xedb88320#32 (BitVec.allOnes 32) (Checksum.mask start stop bytes)

/-- The tag byte and payload of an operation. -/
def encodeOperation : Operation → Result (UInt8 × Bytes)
  | .begin => .ok (0, [])
  | .pageWrite pageId page => do
      require (page.id = pageId)
        (NovaError.invalidArgument "WAL page id does not match page header")
      let image ← page.toBytes
      return (1, toBigEndian 8 pageId.toNat ++ image)
  | .commit => .ok (2, [])
  | .abort => .ok (3, [])
  | .checkpoint => .ok (4, [])

/-- A header and its payload. The checksum is filled in last. -/
def encodeRecord (record : LogRecord) : Result Bytes := do
  let (tag, payload) ← encodeOperation record.operation
  require (payload.length < 2 ^ 32) (NovaError.storage "WAL size is not representable")
  let bytes := magic ++ (toBigEndian 2 version ++ ([tag, 0] ++
    (toBigEndian 4 payload.length ++ (toBigEndian 8 record.lsn.toNat ++
      (toBigEndian 8 record.transactionId.toNat ++ (toBigEndian 4 0 ++
        (toBigEndian 4 0 ++ payload)))))))
  let checksum := crc32 bytes checksumOffset (checksumOffset + 4)
  return splice bytes checksumOffset (toBigEndian 4 checksum.toNat)

/-- The operation of a tag and its payload. Only a page write has one. -/
def decodeOperation (tag : UInt8) (payload : Bytes) : Result Operation :=
  if (tag = 0 ∨ tag = 2 ∨ tag = 3 ∨ tag = 4) ∧ payload ≠ [] then
    corruption "marker WAL record has payload"
  else if tag = 0 then .ok .begin
  else if tag = 1 then do
    require (payload.length = 8 + pageSize)
      (NovaError.corruption "page-write WAL payload has invalid length")
    let pageId := UInt64.ofNat (fromBigEndian (slice payload 0 8))
    let page ← Page.fromBytes (payload.drop 8)
    require (page.id = pageId) (NovaError.corruption "WAL page id does not match after-image")
    return .pageWrite pageId page
  else if tag = 2 then .ok .commit
  else if tag = 3 then .ok .abort
  else if tag = 4 then .ok .checkpoint
  else corruption s!"unknown WAL operation tag {tag}"

/-- The payload length that a header announces, after the checks that need the header only. -/
def decodeHeader (header : Bytes) : Result Nat := do
  require (slice header 0 4 = magic) (NovaError.corruption "invalid WAL magic")
  let found := fromBigEndian (slice header 4 6)
  require (found = version) (NovaError.unsupported s!"WAL version {found}")
  require (header[7]? = some 0 ∧ slice header 32 36 = [0, 0, 0, 0])
    (NovaError.corruption "WAL reserved field is non-zero")
  let payloadLength := fromBigEndian (slice header 8 12)
  require (payloadLength ≤ maxPayload) (NovaError.corruption "WAL payload exceeds maximum")
  return payloadLength

/-- The record in a complete frame that comes after `count` records. -/
def decodeFrame (count : Nat) (encoded : Bytes) : Result LogRecord := do
  let header := slice encoded 0 headerSize
  let stored := fromBigEndian (slice header 28 32)
  require (stored = (crc32 encoded checksumOffset (checksumOffset + 4)).toNat)
    (NovaError.corruption "WAL checksum mismatch")
  let lsn := UInt64.ofNat (fromBigEndian (slice header 12 20))
  require (lsn.toNat = count) (NovaError.corruption "WAL LSN sequence is not contiguous")
  let transactionId := UInt64.ofNat (fromBigEndian (slice header 20 28))
  let operation ← decodeOperation (header[6]?.getD 0) (encoded.drop headerSize)
  return ⟨lsn, transactionId, operation⟩

/-- One round of the decoding loop, on the bytes from the current position on, after `count`
records. Nothing is returned at a torn tail; otherwise the record and its length. -/
def decodeRecord (allowTornTail : Bool) (count : Nat) (bytes : Bytes) :
    Result (Option (LogRecord × Nat)) :=
  if bytes.length < headerSize then
    if allowTornTail then .ok none else corruption "truncated WAL header"
  else do
    let payloadLength ← decodeHeader (slice bytes 0 headerSize)
    let total := headerSize + payloadLength
    if bytes.length < total then
      if allowTornTail then return none else corruption "truncated WAL payload"
    else
      let record ← decodeFrame count (slice bytes 0 total)
      return some (record, total)

/-- All records of a log, and the length of the part of it that holds them. Every record takes at
least `headerSize` bytes, so the number of bytes bounds the rounds of the loop. -/
def decodeRecords (bytes : Bytes) (allowTornTail : Bool) : Result (List LogRecord × Nat) :=
  FramedLog.scan (decodeRecord allowTornTail) bytes bytes.length [] 0

end NovaBase.Wal
