import NovaBase.Nbf.Codec

/-!
# Decoding undoes encoding

The decoder accepts every stream the encoder writes and rebuilds the document,
up to the payloads of its `NaN`s. Each reader is shown to take back what the
matching writer put in front of any other input.
-/

namespace NovaBase.Nbf

open Lib Lib.Bytes

mutual

/-- The value with every `NaN` replaced by the quiet one. -/
def canonicalValue : NovaValue → NovaValue
  | .null => .null
  | .boolean value => .boolean value
  | .int64 value => .int64 value
  | .float64 value => .float64 (if value.isNaN then F64.nan else value)
  | .string value => .string value
  | .array values => .array (canonicalValues values)
  | .document document => .document (canonical document)
  | .timestamp value => .timestamp value
  | .novaId value => .novaId value

def canonicalValues : List NovaValue → List NovaValue
  | [] => []
  | value :: rest => canonicalValue value :: canonicalValues rest

/-- The document with every `NaN` inside it replaced by the quiet one. -/
def canonical : DocumentOf NovaValue → Document
  | ⟨id, fields⟩ => ⟨id, canonicalFields fields⟩

def canonicalFields : List (String × NovaValue) → List (String × NovaValue)
  | [] => []
  | (key, value) :: rest => (key, canonicalValue value) :: canonicalFields rest

end

theorem canonical_id (document : Document) : (canonical document).id = document.id := by
  cases document
  rfl

theorem take_append {bytes : Bytes} {length : Nat} (hlength : bytes.length = length)
    (rest : Bytes) : take length (bytes ++ rest) = .ok (bytes, rest) := by
  subst hlength
  simp [take]

theorem readVarintValue_writeVarint (value : UInt64) (rest : Bytes) :
    readVarintValue (writeVarint value ++ rest) = .ok (value, rest) := by
  simp [readVarintValue, readVarint_writeVarint]

theorem readCount_append {label : String} {count : Nat} {rest : Bytes}
    (hlimit : count ≤ maxCollectionLength) (hrest : count ≤ rest.length) :
    readCount label (writeVarint (UInt64.ofNat count) ++ rest) = .ok (count, rest) := by
  have hcount : (UInt64.ofNat count).toNat = count := by
    rw [UInt64.toNat_ofNat', Nat.mod_eq_of_lt]
    unfold maxCollectionLength at hlimit
    omega
  simp [readCount, readVarintValue_writeVarint, hcount, require_of _ hlimit, require_of _ hrest]

theorem readStringPayload_encodeText {label text : String} (rest : Bytes)
    (hfits : (utf8 text).length < 2 ^ 64) :
    readStringPayload label (encodeText text ++ rest) = .ok (text, rest) := by
  have hlength : (UInt64.ofNat (utf8 text).length).toNat = (utf8 text).length := by
    rw [UInt64.toNat_ofNat', Nat.mod_eq_of_lt hfits]
  have hrest : (utf8 text).length ≤ (utf8 text ++ rest).length := by simp
  simp only [readStringPayload, readLength, encodeText, List.append_assoc,
    readVarintValue_writeVarint, ok_bind, hlength, require_of _ hrest, pure_eq_ok,
    take_append rfl, fromUTF8_utf8]

theorem readWord_append (word : UInt64) (rest : Bytes) :
    readWord (toBigEndian 8 word.toNat ++ rest) = .ok (word, rest) := by
  have hword : fromBigEndian (toBigEndian 8 word.toNat) = word.toNat :=
    fromBigEndian_toBigEndian word.toNat_lt
  simp [readWord, take_append (length_toBigEndian 8 word.toNat), hword]

theorem readNovaId_append (id : NovaId) (rest : Bytes) :
    readNovaId (id.bytes ++ rest) = .ok (id, rest) := by
  simp [readNovaId, take_append id.length_eq, NovaId.fromBytes_bytes]

theorem encodeValue_length_pos {value : NovaValue} {depth : Nat} {bytes : Bytes}
    (h : encodeValue value depth = .ok bytes) : 0 < bytes.length := by
  cases value with
  | boolean value =>
      cases value <;> simp only [encodeValue, pure_eq_ok, Except.ok.injEq] at h <;> simp [← h]
  | array values =>
      obtain ⟨-, -, -, -, body, -, hbytes⟩ := by simpa only [encodeValue, bind_eq_ok] using h
      simp [← Except.ok.inj hbytes]
  | document document =>
      obtain ⟨id, fields⟩ := document
      obtain ⟨-, -, -, -, body, -, hbytes⟩ := by
        simpa only [encodeValue, encodeDocument, bind_eq_ok] using h
      simp [← Except.ok.inj hbytes]
  | _ => simp only [encodeValue, pure_eq_ok, Except.ok.injEq] at h; simp [← h]

/-- The reader takes back what the encoder makes of the value at `depth`. -/
def Takes (readChild : Bytes → Result (NovaValue × Bytes)) (depth : Nat) (value : NovaValue) :
    Prop :=
  ∀ {bytes : Bytes}, encodeValue value depth = .ok bytes → bytes.length < 2 ^ 64 →
    ∀ rest, readChild (bytes ++ rest) = .ok (canonicalValue value, rest)

section Children

variable {readChild : Bytes → Result (NovaValue × Bytes)} {depth : Nat}

theorem encodeValues_length {values : List NovaValue} {bytes : Bytes}
    (h : encodeValues values depth = .ok bytes) : values.length ≤ bytes.length := by
  induction values generalizing bytes with
  | nil => simp
  | cons value rest ih =>
      obtain ⟨encoded, hvalue, others, hothers, hbytes⟩ := by
        simpa only [encodeValues, bind_eq_ok] using h
      have hpos := encodeValue_length_pos hvalue
      have hrest := ih hothers
      rw [← Except.ok.inj hbytes, List.length_append, List.length_cons]
      omega

theorem encodeFields_length {fields : List (String × NovaValue)} {bytes : Bytes}
    (h : encodeFields fields depth = .ok bytes) : fields.length ≤ bytes.length := by
  induction fields generalizing bytes with
  | nil => simp
  | cons entry rest ih =>
      obtain ⟨key, value⟩ := entry
      obtain ⟨encoded, hvalue, others, hothers, hbytes⟩ := by
        simpa only [encodeFields, bind_eq_ok] using h
      have hpos := encodeValue_length_pos hvalue
      have hrest := ih hothers
      rw [← Except.ok.inj hbytes, List.length_append, List.length_append, List.length_cons]
      omega

theorem readValues_encodeValues {values : List NovaValue}
    (hchild : ∀ value ∈ values, Takes readChild depth value) {bytes : Bytes}
    (h : encodeValues values depth = .ok bytes) (hfits : bytes.length < 2 ^ 64) (rest : Bytes) :
    readValues readChild values.length (bytes ++ rest) = .ok (canonicalValues values, rest) := by
  induction values generalizing bytes with
  | nil =>
      have hbytes : [] = bytes := Except.ok.inj h
      subst hbytes
      rfl
  | cons value tail ih =>
      obtain ⟨hvalue, htail⟩ := List.forall_mem_cons.mp hchild
      obtain ⟨encoded, hencoded, others, hothers, hbytes⟩ := by
        simpa only [encodeValues, bind_eq_ok] using h
      have hbytes := Except.ok.inj hbytes
      subst hbytes
      rw [List.length_append] at hfits
      rw [List.length_cons, readValues, List.append_assoc, hvalue hencoded (by omega), ok_bind]
      simp only [ih htail hothers (by omega), ok_bind, pure_eq_ok, canonicalValues]

theorem readFields_encodeFields {fields : Entries String NovaValue} (hsorted : fields.Sorted)
    (hchild : ∀ e ∈ fields, Takes readChild depth e.2) {bytes : Bytes}
    (h : encodeFields fields depth = .ok bytes) (hfits : bytes.length < 2 ^ 64)
    (document : Document) (hbelow : ∀ d ∈ document.fields, ∀ e ∈ fields, d.1 < e.1)
    (rest : Bytes) :
    readFields readChild fields.length document (bytes ++ rest) =
      .ok (⟨document.id, document.fields ++ canonicalFields fields⟩, rest) := by
  induction fields generalizing bytes document with
  | nil =>
      have hbytes : [] = bytes := Except.ok.inj h
      subst hbytes
      simp [readFields, canonicalFields]
  | cons entry tail ih =>
      obtain ⟨key, value⟩ := entry
      obtain ⟨hvalue, htail⟩ := List.forall_mem_cons.mp hchild
      obtain ⟨hkey, hsortedTail⟩ := Entries.sorted_cons.mp hsorted
      obtain ⟨encoded, hencoded, others, hothers, hbytes⟩ := by
        simpa only [encodeFields, bind_eq_ok] using h
      have hbytes := Except.ok.inj hbytes
      subst hbytes
      simp only [List.length_append, encodeText] at hfits
      have hlast : ∀ e ∈ document.fields, e.1 < key := fun e he =>
        hbelow e he (key, value) List.mem_cons_self
      have hprevious : document.get key = none := Entries.get_of_forall_lt hlast
      have hnext : ∀ d ∈ document.fields ++ [(key, canonicalValue value)], ∀ e ∈ tail,
          d.1 < e.1 := by
        intro d hd e he
        rcases List.mem_append.mp hd with hold | hnew
        · exact hbelow d hold e (List.mem_cons_of_mem _ he)
        · rw [List.mem_singleton.mp hnew]
          exact hkey e he
      rw [List.length_cons, readFields, List.append_assoc, List.append_assoc,
        readStringPayload_encodeText _ (by omega), ok_bind]
      simp only [hvalue hencoded (by omega), ok_bind, DocumentOf.insert, hprevious,
        Option.isNone_none, require_of _ trivial]
      have hgoal := ih hsortedTail htail hothers (by omega)
        ⟨document.id, document.fields ++ [(key, canonicalValue value)]⟩ hnext
      simpa [DocumentOf.insert, canonicalFields, Entries.insert_last _ hlast] using hgoal

end Children

/-- The reader at a depth is one round of the decoder over the reader one level below. -/
theorem readValue_eq {depth : Nat} (h : depth ≤ maxNestingDepth) :
    ∃ readChild, readValue depth = readValueWith readChild depth ∧
      (depth < maxNestingDepth → readChild = readValue (depth + 1)) := by
  unfold readValue
  rcases Nat.lt_or_ge depth maxNestingDepth with hlt | hge
  · have hleft : maxNestingDepth - depth = maxNestingDepth - (depth + 1) + 1 := by omega
    have hdepth : maxNestingDepth - (maxNestingDepth - (depth + 1) + 1) = depth := by omega
    rw [hleft, readValueLeft, hdepth]
    exact ⟨_, rfl, fun _ => rfl⟩
  · have hdepth : depth = maxNestingDepth := by omega
    rw [hdepth, Nat.sub_self, readValueLeft]
    exact ⟨_, rfl, fun hlt => absurd hlt (lt_irrefl _)⟩

theorem encodeDocument_depth {document : Document} {depth : Nat} {bytes : Bytes}
    (h : encodeDocument document depth = .ok bytes) : depth < maxNestingDepth := by
  obtain ⟨id, fields⟩ := document
  obtain ⟨u, hdepth, -⟩ := by
    simpa only [encodeDocument, bind_eq_ok] using h
  exact require_eq_ok.mp hdepth

theorem readDocumentTag_append (readTag : Bool) (rest : Bytes) :
    readDocumentTag readTag ((if readTag then [Tag.document.toByte] else []) ++ rest) =
      .ok rest := by
  cases readTag
  · rfl
  · simp [readDocumentTag, readByte]

/-- Reading a document back, given that its values are read back one level below. -/
theorem readDocument_encodeDocument {document : Document} {depth : Nat} (readTag : Bool)
    (hsorted : Entries.Sorted document.fields)
    (hchild : ∀ e ∈ document.fields, Takes (readValue (depth + 1)) (depth + 1) e.2)
    {bytes : Bytes} (h : encodeDocument document depth = .ok bytes)
    (hfits : bytes.length < 2 ^ 64) (rest : Bytes) :
    ∃ body, bytes = Tag.document.toByte :: body ∧
      readDocument (readValue (depth + 1)) depth readTag
          ((if readTag then [Tag.document.toByte] else []) ++ (body ++ rest)) =
        .ok (canonical document, rest) := by
  obtain ⟨id, fields⟩ := document
  obtain ⟨u, hdepth, u', hcount, body, hbody, hbytes⟩ := by
    simpa only [encodeDocument, bind_eq_ok] using h
  have hbytes := Except.ok.inj hbytes
  subst hbytes
  refine ⟨_, rfl, ?_⟩
  have hlimit : fields.length ≤ maxCollectionLength := require_eq_ok.mp hcount
  have hdecode : checkDecodeDepth depth = .ok () := require_of _ (require_eq_ok.mp hdepth)
  have hlength := encodeFields_length hbody
  simp only [List.length_cons, List.length_append] at hfits
  have hfields := readFields_encodeFields hsorted hchild hbody (by omega) (.new id)
    (by simp [DocumentOf.new]) rest
  have hcounted : fields.length ≤ (body ++ rest).length := by
    rw [List.length_append]
    omega
  simp only [readDocument, hdecode, ok_bind, readDocumentTag_append, List.append_assoc,
    readNovaId_append, readCount_append hlimit hcounted, hfields]
  simp [DocumentOf.new, canonical]

/-- An array is read back when its values are. -/
theorem takes_array {values : List NovaValue} {depth : Nat} (hdepth : depth ≤ maxNestingDepth)
    (hchild : depth < maxNestingDepth →
      ∀ value ∈ values, Takes (readValue (depth + 1)) (depth + 1) value) :
    Takes (readValue depth) depth (.array values) := by
  intro bytes h hfits rest
  obtain ⟨readChild, hread, hbelow⟩ := readValue_eq hdepth
  obtain ⟨u, hencode, u', hcount, body, hbody, hbytes⟩ := by
    simpa only [encodeValue, bind_eq_ok] using h
  have hbytes := Except.ok.inj hbytes
  subst hbytes
  have hlt : depth < maxNestingDepth := require_eq_ok.mp hencode
  have hlimit : values.length ≤ maxCollectionLength := require_eq_ok.mp hcount
  have hdecode : checkDecodeDepth depth = .ok () := require_of _ hlt
  simp only [List.length_cons, List.length_append] at hfits
  have hvalues := readValues_encodeValues (hbelow hlt ▸ hchild hlt) hbody (by omega) rest
  have hcounted : values.length ≤ (body ++ rest).length := by
    have := encodeValues_length hbody
    rw [List.length_append]
    omega
  simp only [hread, readValueWith, List.cons_append, readByte, ok_bind, Tag.fromByte_toByte,
    hdecode, List.append_assoc, readCount_append hlimit hcounted, hvalues, pure_eq_ok,
    canonicalValue]

/-- A document is read back when the values of its fields are. -/
theorem takes_document {document : Document} {depth : Nat} (hdepth : depth ≤ maxNestingDepth)
    (hsorted : Entries.Sorted document.fields)
    (hchild : depth < maxNestingDepth →
      ∀ e ∈ document.fields, Takes (readValue (depth + 1)) (depth + 1) e.2) :
    Takes (readValue depth) depth (.document document) := by
  intro bytes h hfits rest
  obtain ⟨readChild, hread, hbelow⟩ := readValue_eq hdepth
  rw [encodeValue] at h
  have hlt := encodeDocument_depth h
  obtain ⟨body, hbytes, hdocument⟩ := readDocument_encodeDocument false hsorted
    (hchild hlt) h hfits rest
  subst hbytes
  rw [← hbelow hlt] at hdocument
  simp only [Bool.false_eq_true, if_false, List.nil_append] at hdocument
  simp only [hread, readValueWith, List.cons_append, readByte, ok_bind, Tag.fromByte_toByte,
    hdocument, pure_eq_ok, canonicalValue]

theorem takes_readValue {value : NovaValue} (hvalue : value.WellFormed) {depth : Nat}
    (hdepth : depth ≤ maxNestingDepth) : Takes (readValue depth) depth value := by
  induction value using NovaValue.nested_induction generalizing depth with
  | array values ih =>
      have hvalues := NovaValue.allWellFormed_iff.mp hvalue
      refine @takes_array _ _ hdepth fun hlt value hmem => ?_
      exact ih value hmem (hvalues value hmem) hlt
  | document document ih =>
      obtain ⟨hsorted, hfields⟩ := Document.wellFormed_iff.mp hvalue
      refine @takes_document _ _ hdepth hsorted fun hlt e he => ?_
      exact ih e he (hfields e he) hlt
  | string value =>
      intro bytes h hfits rest
      obtain ⟨readChild, hread, -⟩ := readValue_eq hdepth
      have hbytes := Except.ok.inj h
      subst hbytes
      simp only [List.length_cons, encodeText, List.length_append] at hfits
      have htext : (utf8 value).length < 2 ^ 64 := by omega
      simp [hread, readValueWith, readByte, readStringPayload_encodeText _ htext, canonicalValue]
  | boolean value =>
      intro bytes h hfits rest
      obtain ⟨readChild, hread, -⟩ := readValue_eq hdepth
      rw [hread]
      cases value <;> (have hbytes := Except.ok.inj h; subst hbytes; rfl)
  | float64 value =>
      intro bytes h hfits rest
      obtain ⟨readChild, hread, -⟩ := readValue_eq hdepth
      have hbytes := Except.ok.inj h
      subst hbytes
      simp only [hread, readValueWith, List.cons_append, readByte, ok_bind, Tag.fromByte_toByte,
        readWord_append, pure_eq_ok, canonicalValue]
      split <;> rfl
  | _ =>
      intro bytes h hfits rest
      obtain ⟨readChild, hread, -⟩ := readValue_eq hdepth
      have hbytes := Except.ok.inj h
      subst hbytes
      simp [hread, readValueWith, readByte, readWord_append, readNovaId_append, canonicalValue]

/-- What is written behind the header is read back, in canonical form. -/
theorem decode_stream {document : Document} (hdocument : Document.WellFormed document)
    {stream : Bytes} (hstream : encodeDocument document 0 = .ok stream)
    (hfits : stream.length < 2 ^ 64) :
    decode (magic ++ (toBigEndian 4 formatVersion ++ stream)) = .ok (canonical document) := by
  obtain ⟨hsorted, hfields⟩ := Document.wellFormed_iff.mp hdocument
  have hone : 1 ≤ maxNestingDepth := by decide
  obtain ⟨body, hbody, hread⟩ := readDocument_encodeDocument true hsorted
    (fun e he => takes_readValue (hfields e he) hone) hstream hfits []
  have hheader : readHeader (magic ++ (toBigEndian 4 formatVersion ++ stream)) = .ok stream := by
    have hversion : fromBigEndian (toBigEndian 4 formatVersion) = formatVersion := by decide
    simp only [readHeader, take_append rfl, ok_bind, require_of _ trivial,
      take_append (length_toBigEndian 4 formatVersion), hversion, pure_eq_ok]
  rw [decode, hheader, ok_bind, hbody]
  simp only [if_true, List.singleton_append, List.append_nil] at hread
  simp only [hread, ok_bind, require_of _ trivial, pure_eq_ok]

/-- The bytes of a document are the header and a stream of at most as many bytes. -/
theorem encode_eq_ok {document : Document} {bytes : Bytes} (h : encode document = .ok bytes) :
    ∃ stream, encodeDocument document 0 = .ok stream ∧ stream.length ≤ bytes.length ∧
      bytes = magic ++ (toBigEndian 4 formatVersion ++ stream) := by
  obtain ⟨stream, hstream, hbytes⟩ := bind_eq_ok.mp h
  obtain rfl := Except.ok.inj hbytes
  refine ⟨stream, hstream, ?_, rfl⟩
  rw [List.length_append, List.length_append]
  omega

/-- Decoding an encoded document gives it back, with every `NaN` made the quiet one and every
other float as it was. A byte vector is shorter than `2 ^ 64`. -/
theorem decode_encode {document : Document} (hdocument : Document.WellFormed document)
    {bytes : Bytes} (h : encode document = .ok bytes) (hfits : bytes.length < 2 ^ 64) :
    decode bytes = .ok (canonical document) := by
  obtain ⟨stream, hstream, hlength, rfl⟩ := encode_eq_ok h
  exact decode_stream hdocument hstream (hlength.trans_lt hfits)

/-- A document with a nested array and a signalling `NaN`. -/
def nanSample : Document :=
  ⟨.filled 7, [("a", .array [.float64 ⟨0x7ff0000000000001⟩, .null]), ("b", .string "x")]⟩

/-- Its encoding, with the one NaN that is written. -/
def nanStream : Bytes :=
  [0x4e, 0x4f, 0x56, 0x41, 0, 0, 0, 1, 7, 7, 7, 7, 7, 7, 7, 7, 7, 7, 7, 7, 7, 7, 7, 7, 7, 2,
    1, 0x61, 6, 2, 4, 0x7f, 0xf8, 0, 0, 0, 0, 0, 0, 0, 1, 0x62, 5, 1, 0x78]

theorem decode_encode_nan : decode nanStream = .ok ⟨⟨List.replicate 16 7, rfl⟩,
    [("a", .array [.float64 F64.nan, .null]), ("b", .string "x")]⟩ := by
  have hsorted : Entries.Sorted nanSample.fields := by
    refine Entries.sorted_cons.mpr ⟨fun e he => ?_, List.pairwise_singleton _ _⟩
    rw [List.mem_singleton.mp he]
    decide
  have hsample : Document.WellFormed nanSample :=
    ⟨hsorted, ⟨trivial, trivial, trivial⟩, trivial, trivial⟩
  have hencode : encode nanSample = .ok nanStream := rfl
  exact decode_encode hsample hencode (by decide)

end NovaBase.Nbf
