import NovaBase.Core.Error
import NovaBase.Core.Value
import NovaBase.Nbf.Varint

/-!
# The binary format

A stream is a magic number, a version and one document. Every value starts
with a type tag. The decoder is a function on the input that is left: the
position of the source is the length of what has been taken.
-/

namespace NovaBase.Nbf

open Lib Lib.Bytes

/-- `NOVA`, at the start of every stream. -/
def magic : Bytes := [0x4e, 0x4f, 0x56, 0x41]

/-- The only version that is read. -/
def formatVersion : Nat := 1

/-- How many arrays and documents may be nested. -/
def maxNestingDepth : Nat := 254

/-- How many values or fields one collection may hold. -/
def maxCollectionLength : Nat := 2 ^ 20

/-- The tags that tell the types of values apart. -/
inductive Tag
  | null
  | false
  | true
  | int64
  | float64
  | string
  | array
  | document
  | timestamp
  | novaId
  deriving DecidableEq

namespace Tag

/-- The byte of a tag. -/
def toByte : Tag → UInt8
  | .null => 0x00
  | .false => 0x01
  | .true => 0x02
  | .int64 => 0x03
  | .float64 => 0x04
  | .string => 0x05
  | .array => 0x06
  | .document => 0x07
  | .timestamp => 0x08
  | .novaId => 0x09

/-- The tag of a byte, if there is one. -/
def fromByte (byte : UInt8) : Option Tag :=
  if byte = 0x00 then some .null
  else if byte = 0x01 then some .false
  else if byte = 0x02 then some .true
  else if byte = 0x03 then some .int64
  else if byte = 0x04 then some .float64
  else if byte = 0x05 then some .string
  else if byte = 0x06 then some .array
  else if byte = 0x07 then some .document
  else if byte = 0x08 then some .timestamp
  else if byte = 0x09 then some .novaId
  else none

@[simp] theorem fromByte_toByte (tag : Tag) : fromByte tag.toByte = some tag := by
  cases tag <;> rfl

end Tag

/-- Refuse to write values that nest too deep. -/
def checkEncodeDepth (depth : Nat) : Result Unit :=
  require (depth < maxNestingDepth)
    (NovaError.invalidArgument s!"NBF nesting exceeds {maxNestingDepth}")

/-- Refuse to read values that nest too deep. -/
def checkDecodeDepth (depth : Nat) : Result Unit :=
  require (depth < maxNestingDepth)
    (NovaError.corruption s!"NBF nesting exceeds {maxNestingDepth}")

/-- Refuse to write collections with too many elements. -/
def checkEncodeCount (count : Nat) : Result Unit :=
  require (count ≤ maxCollectionLength)
    (NovaError.invalidArgument s!"NBF collection exceeds {maxCollectionLength} elements")

/-- A length prefix and the bytes of a string. -/
def encodeText (text : String) : Bytes :=
  writeVarint (UInt64.ofNat (utf8 text).length) ++ utf8 text

mutual

/-- A document with its identifier and the number of its fields in front of them. -/
def encodeDocument : DocumentOf NovaValue → Nat → Result Bytes
  | ⟨id, fields⟩, depth => do
      checkEncodeDepth depth
      checkEncodeCount fields.length
      let body ← encodeFields fields (depth + 1)
      return Tag.document.toByte ::
        (id.bytes ++ (writeVarint (UInt64.ofNat fields.length) ++ body))

/-- Fields in their order, each with its name in front. -/
def encodeFields : List (String × NovaValue) → Nat → Result Bytes
  | [], _ => return []
  | (key, value) :: rest, depth => do
      let encoded ← encodeValue value depth
      let others ← encodeFields rest depth
      return encodeText key ++ (encoded ++ others)

/-- A value behind its tag. Integers and floats take eight bytes. -/
def encodeValue : NovaValue → Nat → Result Bytes
  | .null, _ => return [Tag.null.toByte]
  | .boolean false, _ => return [Tag.false.toByte]
  | .boolean true, _ => return [Tag.true.toByte]
  | .int64 value, _ => return Tag.int64.toByte :: toBigEndian 8 value.toUInt64.toNat
  | .float64 value, _ =>
      let bits := if value.isNaN then F64.nan.bits else value.bits
      return Tag.float64.toByte :: toBigEndian 8 bits.toNat
  | .string value, _ => return Tag.string.toByte :: encodeText value
  | .array values, depth => do
      checkEncodeDepth depth
      checkEncodeCount values.length
      let body ← encodeValues values (depth + 1)
      return Tag.array.toByte :: (writeVarint (UInt64.ofNat values.length) ++ body)
  | .document document, depth => encodeDocument document depth
  | .timestamp value, _ =>
      return Tag.timestamp.toByte :: toBigEndian 8 value.millis.toUInt64.toNat
  | .novaId value, _ => return Tag.novaId.toByte :: value.bytes

/-- The elements of an array in their order. -/
def encodeValues : List NovaValue → Nat → Result Bytes
  | [], _ => return []
  | value :: rest, depth => do
      let encoded ← encodeValue value depth
      let others ← encodeValues rest depth
      return encoded ++ others

end

/-- The deterministic byte stream of a document. -/
def encode (document : Document) : Result Bytes := do
  let body ← encodeDocument document 0
  return magic ++ (toBigEndian 4 formatVersion ++ body)

/-- The next `length` bytes, and the input after them. -/
def take (length : Nat) (input : Bytes) : Result (Bytes × Bytes) := do
  require (length ≤ input.length) (NovaError.corruption "unexpected end of NBF input")
  return (input.take length, input.drop length)

/-- Read one byte. -/
def readByte : Bytes → Result (UInt8 × Bytes)
  | [] => corruption "unexpected end of NBF input"
  | byte :: rest => .ok (byte, rest)

/-- Read a number of variable length. -/
def readVarintValue (input : Bytes) : Result (UInt64 × Bytes) := do
  let (value, consumed) ← readVarint input
  return (value, input.drop consumed)

/-- Read the length of what follows, which must be there. -/
def readLength (label : String) (input : Bytes) : Result (Nat × Bytes) := do
  let (value, input) ← readVarintValue input
  require (value.toNat ≤ input.length)
    (NovaError.corruption s!"declared {label} length exceeds remaining input")
  return (value.toNat, input)

/-- Read the number of elements that follow. Each takes at least one byte. -/
def readCount (label : String) (input : Bytes) : Result (Nat × Bytes) := do
  let (value, input) ← readVarintValue input
  require (value.toNat ≤ maxCollectionLength)
    (NovaError.corruption s!"declared {label} exceeds limit")
  require (value.toNat ≤ input.length)
    (NovaError.corruption s!"declared {label} exceeds remaining input")
  return (value.toNat, input)

/-- Read a text behind its length. -/
def readStringPayload (label : String) (input : Bytes) : Result (String × Bytes) := do
  let (length, input) ← readLength label input
  let (bytes, input) ← take length input
  match String.fromUTF8? ⟨bytes.toArray⟩ with
  | some text => return (text, input)
  | none => corruption s!"{label} is not valid UTF-8"

/-- A 64-bit word, most significant byte first. -/
def readWord (input : Bytes) : Result (UInt64 × Bytes) := do
  let (bytes, input) ← take 8 input
  return (UInt64.ofNat (fromBigEndian bytes), input)

/-- Read an identifier. -/
def readNovaId (input : Bytes) : Result (NovaId × Bytes) := do
  let (bytes, input) ← take novaIdLength input
  match NovaId.fromBytes bytes with
  | some id => return (id, input)
  | none => corruption "invalid NovaId payload"

/-- The elements of an array. -/
def readValues (readChild : Bytes → Result (NovaValue × Bytes)) :
    Nat → Bytes → Result (List NovaValue × Bytes)
  | 0, input => return ([], input)
  | count + 1, input => do
      let (value, input) ← readChild input
      let (values, input) ← readValues readChild count input
      return (value :: values, input)

/-- The fields of a document, inserted one by one. -/
def readFields (readChild : Bytes → Result (NovaValue × Bytes)) :
    Nat → Document → Bytes → Result (Document × Bytes)
  | 0, document, input => return (document, input)
  | count + 1, document, input => do
      let (key, input) ← readStringPayload "field key" input
      let (value, input) ← readChild input
      let (previous, document) := document.insert key value
      require (previous.isNone) (NovaError.corruption "duplicate document field")
      readFields readChild count document input

/-- The tag of a document, where it has not been read already. -/
def readDocumentTag (readTag : Bool) (input : Bytes) : Result Bytes :=
  if readTag then do
    let (byte, input) ← readByte input
    require (byte = Tag.document.toByte)
      (NovaError.corruption "root or nested value is not a document")
    return input
  else return input

/-- Read a document. A name that occurs twice is refused. -/
def readDocument (readChild : Bytes → Result (NovaValue × Bytes)) (depth : Nat) (readTag : Bool)
    (input : Bytes) : Result (Document × Bytes) := do
  checkDecodeDepth depth
  let input ← readDocumentTag readTag input
  let (id, input) ← readNovaId input
  let (fieldCount, input) ← readCount "document field count" input
  readFields readChild fieldCount (.new id) input

/-- The value at `depth`, where `readChild` reads the values one level below it. -/
def readValueWith (readChild : Bytes → Result (NovaValue × Bytes)) (depth : Nat) (input : Bytes) :
    Result (NovaValue × Bytes) := do
  let (byte, input) ← readByte input
  match Tag.fromByte byte with
  | none =>
      let digits := hexDigit (byte.toNat / 16) ++ hexDigit (byte.toNat % 16)
      corruption s!"unknown NBF tag 0x{digits}"
  | some .null => return (.null, input)
  | some .false => return (.boolean false, input)
  | some .true => return (.boolean true, input)
  | some .int64 => do
      let (word, input) ← readWord input
      return (.int64 word.toInt64, input)
  | some .float64 => do
      let (word, input) ← readWord input
      return (.float64 ⟨word⟩, input)
  | some .string => do
      let (text, input) ← readStringPayload "string" input
      return (.string text, input)
  | some .array => do
      checkDecodeDepth depth
      let (count, input) ← readCount "array count" input
      let (values, input) ← readValues readChild count input
      return (.array values, input)
  | some .document => do
      let (document, input) ← readDocument readChild depth false input
      return (.document document, input)
  | some .timestamp => do
      let (word, input) ← readWord input
      return (.timestamp ⟨word.toInt64⟩, input)
  | some .novaId => do
      let (id, input) ← readNovaId input
      return (.novaId id, input)

/-- The reader of values with `left` more levels below them. The depth check refuses every
collection at the lowest level, so nothing is read there below it. -/
def readValueLeft : Nat → Bytes → Result (NovaValue × Bytes)
  | 0 => readValueWith (fun _ => corruption s!"NBF nesting exceeds {maxNestingDepth}")
      maxNestingDepth
  | left + 1 => readValueWith (readValueLeft left) (maxNestingDepth - (left + 1))

/-- The value at `depth`. -/
def readValue (depth : Nat) : Bytes → Result (NovaValue × Bytes) :=
  readValueLeft (maxNestingDepth - depth)

/-- Check magic and version. -/
def readHeader (input : Bytes) : Result Bytes := do
  let (found, input) ← take magic.length input
  require (found = magic) (NovaError.corruption "bad NBF magic")
  let (word, input) ← take 4 input
  let version := fromBigEndian word
  require (version = formatVersion)
    (NovaError.unsupported s!"unsupported NBF format version {version}")
  return input

/-- Decode exactly one document. -/
def decode (bytes : Bytes) : Result Document := do
  let input ← readHeader bytes
  let (document, input) ← readDocument (readValue 1) 0 true input
  require (input = []) (NovaError.corruption "trailing bytes after root document")
  return document

end NovaBase.Nbf
