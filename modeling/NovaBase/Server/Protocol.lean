import NovaBase.Core.Error
import NovaBase.Nbf.Codec
import NovaBase.Storage.Page

/-!
# The wire protocol

Requests and responses travel in checksummed frames with a header of 24 bytes.
A reader is the bytes that are still to come; what a read leaves is the reader
afterwards. A writer is the bytes that were written to it.
-/

namespace NovaBase.Server

open Lib Lib.Bytes Nbf

def requestMagic : Bytes := [0x4e, 0x56, 0x52, 0x51]

def responseMagic : Bytes := [0x4e, 0x56, 0x52, 0x53]

def version : Nat := 2

def headerSize : Nat := 24

/-- Where the checksum stands in the header. -/
def checksumOffset : Nat := 20

/-- The greatest 32-bit number; as a token length, it stands for no token. -/
def u32Max : Nat := 2 ^ 32 - 1

/-- One client query request. -/
structure Request where
  requestId : UInt64
  authToken : Option String
  query : String
  deriving DecidableEq

/-- Stable wire error categories. -/
inductive ErrorCode
  | protocol
  | parse
  | execution
  | busy
  | internal
  | authentication
  | authorization
  deriving DecidableEq

/-- The status byte of an error code. -/
def ErrorCode.toByte : ErrorCode → UInt8
  | .protocol => 1
  | .parse => 2
  | .execution => 3
  | .busy => 4
  | .internal => 5
  | .authentication => 6
  | .authorization => 7

/-- One server response, correlated by request id. -/
structure Response where
  requestId : UInt64
  outcome : Except (ErrorCode × String) String

/-- The error for a size that does not fit into its field. -/
def sizeError : NovaError :=
  .invalidArgument ("protocol size is not representable: " ++
    "out of range integral type conversion attempted")

/-- The checksum of a frame, with its own field read as zero. -/
def crc32 (bytes : Bytes) : BitVec 32 :=
  Storage.crc32 bytes checksumOffset (checksumOffset + 4)

/-- A header and its payload. The checksum is filled in last. -/
def encodeFrame (magic : Bytes) (status : UInt8) (requestId : UInt64) (payload : Bytes) :
    Result Bytes := do
  require (payload.length ≤ u32Max) sizeError
  let bytes := magic ++ (toBigEndian 2 version ++ ([status, 0] ++
    (toBigEndian 8 requestId.toNat ++ (toBigEndian 4 payload.length ++
      (toBigEndian 4 0 ++ payload)))))
  return splice bytes checksumOffset (toBigEndian 4 (crc32 bytes).toNat)

/-- Read exactly `length` bytes. -/
def readExact (length : Nat) (reader : Bytes) : Result (Bytes × Bytes) := do
  require (length ≤ reader.length) NovaError.io
  return (reader.take length, reader.drop length)

/-- Read a header and its payload: the status byte, the identifier and the bytes. -/
def readFrame (expectedMagic : Bytes) (maximum : Nat) (reader : Bytes) :
    Result ((UInt8 × UInt64 × Bytes) × Bytes) := do
  let (header, reader) ← readExact headerSize reader
  require (slice header 0 4 = expectedMagic) (NovaError.corruption "invalid protocol magic")
  let found := fromBigEndian (slice header 4 6)
  require (found = version) (NovaError.unsupported s!"protocol version {found}")
  require (header[7]?.getD 0 = 0) (NovaError.corruption "protocol reserved byte is non-zero")
  let requestId := UInt64.ofNat (fromBigEndian (slice header 8 16))
  let length := fromBigEndian (slice header 16 20)
  require (length ≤ maximum)
    (NovaError.invalidArgument s!"protocol payload length {length} exceeds limit {maximum}")
  let stored := fromBigEndian (slice header 20 24)
  let (payload, reader) ← readExact length reader
  require (stored = (crc32 (header ++ payload)).toNat)
    (NovaError.corruption "protocol checksum mismatch")
  return ((header[6]?.getD 0, requestId, payload), reader)

/-- The token of a request, behind its length. -/
def encodeToken : Option String → Result Bytes
  | some token => do
      require ((utf8 token).length ≤ u32Max) sizeError
      return toBigEndian 4 (utf8 token).length ++ utf8 token
  | none => return toBigEndian 4 u32Max

/-- A frame with a token and a query. -/
def encodeRequest (request : Request) : Result Bytes := do
  let token ← encodeToken request.authToken
  encodeFrame requestMagic 0 request.requestId (token ++ utf8 request.query)

/-- The token of a request, and the bytes of its query. -/
def readToken (payload : Bytes) : Result (Option String × Bytes) := do
  require (4 ≤ payload.length)
    (NovaError.corruption "request authentication envelope is truncated")
  let tokenLength := fromBigEndian (slice payload 0 4)
  if tokenLength = u32Max then return (none, payload.drop 4)
  else
    let tokenEnd := 4 + tokenLength
    require (tokenEnd ≤ payload.length) (NovaError.corruption "request token is truncated")
    match String.fromUTF8? ⟨(slice payload 4 tokenEnd).toArray⟩ with
    | some token => return (some token, payload.drop tokenEnd)
    | none => .error (.invalidArgument "request token is not UTF-8")

/-- Decode one request from a reader with a configured payload limit. -/
def readRequest (maximum : Nat) (reader : Bytes) : Result (Request × Bytes) := do
  let ((status, requestId, payload), reader) ← readFrame requestMagic maximum reader
  require (status = 0) (NovaError.corruption "request status byte must be zero")
  let (authToken, queryBytes) ← readToken payload
  match String.fromUTF8? ⟨queryBytes.toArray⟩ with
  | some query => return (⟨requestId, authToken, query⟩, reader)
  | none => .error (.invalidArgument "request query is not UTF-8")

/-- The status byte and the payload text of a response. -/
def Response.statusAndText (response : Response) : UInt8 × String :=
  match response.outcome with
  | .ok value => (0, value)
  | .error (code, message) => (code.toByte, message)

/-- Write a response behind what the writer has. -/
def writeResponse (response : Response) (writer : Bytes) : Result Bytes := do
  let (status, text) := response.statusAndText
  let frame ← encodeFrame responseMagic status response.requestId (utf8 text)
  return writer ++ frame

/-- What the status byte of a response says about its text. -/
def readOutcome (status : UInt8) (text : String) : Result (Except (ErrorCode × String) String) :=
  if status = 0 then .ok (.ok text)
  else if status = 1 then .ok (.error (.protocol, text))
  else if status = 2 then .ok (.error (.parse, text))
  else if status = 3 then .ok (.error (.execution, text))
  else if status = 4 then .ok (.error (.busy, text))
  else if status = 5 then .ok (.error (.internal, text))
  else if status = 6 then .ok (.error (.authentication, text))
  else if status = 7 then .ok (.error (.authorization, text))
  else corruption s!"unknown response status {status.toNat}"

/-- Read a response from a reader with a payload limit. -/
def readResponse (maximum : Nat) (reader : Bytes) : Result (Response × Bytes) := do
  let ((status, requestId, payload), reader) ← readFrame responseMagic maximum reader
  match String.fromUTF8? ⟨payload.toArray⟩ with
  | some text =>
      let outcome ← readOutcome status text
      return (⟨requestId, outcome⟩, reader)
  | none => corruption "response payload is not UTF-8"

end NovaBase.Server
