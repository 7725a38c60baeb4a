import NovaBase.Nbf.Layout

/-!
# What the decoder accepts

Every stream that the decoder accepts is the layout of one document within the
encoder's limits: lengths, tags and widths are all checked. Two choices of the
encoder are not checked: the order of the fields, and the payload of a `NaN`.
A stream that makes them otherwise is accepted, and encodes to other bytes.
-/

namespace NovaBase.Nbf

open Lib Lib.Bytes

section Readers

variable {input rest : Bytes}

theorem take_eq_ok {length : Nat} {bytes : Bytes} (h : take length input = .ok (bytes, rest)) :
    input = bytes ++ rest ∧ bytes.length = length := by
  obtain ⟨-, hlength, htaken⟩ := by simpa only [take, bind_eq_ok, require_eq_ok] using h
  obtain ⟨rfl, rfl⟩ := Prod.mk.inj (Except.ok.inj htaken)
  exact ⟨(List.take_append_drop length input).symm, by simpa using hlength⟩

theorem readByte_eq_ok {byte : UInt8} (h : readByte input = .ok (byte, rest)) :
    input = byte :: rest := by
  cases input with
  | nil => simp [readByte, corruption] at h
  | cons head tail =>
      obtain ⟨rfl, rfl⟩ := Prod.mk.inj (Except.ok.inj h)
      rfl

theorem toByte_of_fromByte {byte : UInt8} {tag : Tag} (h : Tag.fromByte byte = some tag) :
    byte = tag.toByte := by
  have hall : ∀ w : BitVec 8, (Tag.fromByte (UInt8.ofBitVec w)).all fun tag =>
      decide (UInt8.ofBitVec w = tag.toByte) := by
    decide +kernel
  have hbyte := hall byte.toBitVec
  rw [UInt8.ofBitVec_toBitVec, h] at hbyte
  exact of_decide_eq_true hbyte

theorem readVarintValue_eq_ok {value : UInt64}
    (h : readVarintValue input = .ok (value, rest)) : input = writeVarint value ++ rest := by
  obtain ⟨⟨found, consumed⟩, hread, hrest⟩ := by
    simpa only [readVarintValue, bind_eq_ok] using h
  obtain ⟨rfl, rfl⟩ := Prod.mk.inj (Except.ok.inj hrest)
  exact (writeVarint_readVarint hread).1

theorem readCount_eq_ok {label : String} {count : Nat}
    (h : readCount label input = .ok (count, rest)) :
    input = writeVarint (UInt64.ofNat count) ++ rest ∧ count ≤ maxCollectionLength := by
  obtain ⟨⟨value, tail⟩, hread, -, hlimit, -, -, hresult⟩ := by
    simpa only [readCount, bind_eq_ok, require_eq_ok] using h
  obtain ⟨rfl, rfl⟩ := Prod.mk.inj (Except.ok.inj hresult)
  rw [UInt64.ofNat_toNat]
  exact ⟨readVarintValue_eq_ok hread, hlimit⟩

theorem readStringPayload_eq_ok {label text : String}
    (h : readStringPayload label input = .ok (text, rest)) : input = encodeText text ++ rest := by
  obtain ⟨⟨length, afterLength⟩, hlength, ⟨bytes, tail⟩, htake, htext⟩ := by
    simpa only [readStringPayload, bind_eq_ok] using h
  obtain ⟨⟨value, afterValue⟩, hread, -, -, hresult⟩ := by
    simpa only [readLength, bind_eq_ok, require_eq_ok] using hlength
  obtain ⟨rfl, rfl⟩ := Prod.mk.inj (Except.ok.inj hresult)
  obtain ⟨rfl, hbytes⟩ := take_eq_ok htake
  dsimp only at htext
  split at htext
  case h_1 decoded hdecoded =>
    obtain ⟨rfl, rfl⟩ := Prod.mk.inj (Except.ok.inj htext)
    rw [readVarintValue_eq_ok hread, encodeText, utf8_of_fromUTF8 hdecoded, hbytes,
      UInt64.ofNat_toNat, List.append_assoc]
  case h_2 => simp [corruption] at htext

theorem readWord_eq_ok {word : UInt64} (h : readWord input = .ok (word, rest)) :
    input = toBigEndian 8 word.toNat ++ rest := by
  obtain ⟨⟨bytes, tail⟩, htake, hresult⟩ := by simpa only [readWord, bind_eq_ok] using h
  obtain ⟨rfl, rfl⟩ := Prod.mk.inj (Except.ok.inj hresult)
  obtain ⟨rfl, hlength⟩ := take_eq_ok htake
  have hlt := fromBigEndian_lt bytes
  rw [hlength] at hlt
  have hvalue : (UInt64.ofNat (fromBigEndian bytes)).toNat = fromBigEndian bytes := by
    rw [UInt64.toNat_ofNat', Nat.mod_eq_of_lt (by omega)]
  rw [hvalue, ← hlength, toBigEndian_fromBigEndian]

theorem readNovaId_eq_ok {id : NovaId} (h : readNovaId input = .ok (id, rest)) :
    input = id.bytes ++ rest := by
  obtain ⟨⟨bytes, tail⟩, htake, hresult⟩ := by simpa only [readNovaId, bind_eq_ok] using h
  obtain ⟨rfl, hlength⟩ := take_eq_ok htake
  simp only [NovaId.fromBytes, dif_pos hlength] at hresult
  obtain ⟨rfl, rfl⟩ := Prod.mk.inj (Except.ok.inj hresult)
  rfl

end Readers

/-- What reading a value at `depth` says about it, when the input was the layout of `listed`. -/
structure Reading (depth : Nat) (listed value : NovaValue) : Prop where
  encoded : encodeValue listed depth = .ok (layoutValue (canonicalValue listed))
  wellFormed : value.WellFormed
  same : listed.WellFormed → value = listed

/-- The reader accepts only layouts. -/
def Sound (readChild : Bytes → Result (NovaValue × Bytes)) (depth : Nat) : Prop :=
  ∀ {input : Bytes} {value : NovaValue} {rest : Bytes}, readChild input = .ok (value, rest) →
    ∃ listed, input = layoutValue listed ++ rest ∧ Reading depth listed value

section Children

variable {readChild : Bytes → Result (NovaValue × Bytes)} {depth : Nat}

theorem readValues_sound (hchild : Sound readChild depth) {count : Nat} {input rest : Bytes}
    {values : List NovaValue} (h : readValues readChild count input = .ok (values, rest)) :
    ∃ listed, input = layoutValues listed ++ rest ∧ listed.length = count ∧
      encodeValues listed depth = .ok (layoutValues (canonicalValues listed)) ∧
      NovaValue.AllWellFormed values ∧ (NovaValue.AllWellFormed listed → values = listed) := by
  induction count generalizing input values with
  | zero =>
      obtain ⟨rfl, rfl⟩ := Prod.mk.inj (Except.ok.inj h)
      exact ⟨[], rfl, rfl, rfl, trivial, fun _ => rfl⟩
  | succ count ih =>
      obtain ⟨⟨value, afterValue⟩, hvalue, ⟨others, afterOthers⟩, hothers, hresult⟩ := by
        simpa only [readValues, bind_eq_ok] using h
      obtain ⟨rfl, rfl⟩ := Prod.mk.inj (Except.ok.inj hresult)
      obtain ⟨first, rfl, hfirst⟩ := hchild hvalue
      obtain ⟨listed, rfl, rfl, hencoded, hformed, hsame⟩ := ih hothers
      refine ⟨first :: listed, by rw [layoutValues, List.append_assoc], rfl, ?_,
        ⟨hfirst.wellFormed, hformed⟩, fun hlisted => ?_⟩
      · simp only [encodeValues, hfirst.encoded, hencoded, ok_bind, pure_eq_ok, canonicalValues,
          layoutValues]
      · rw [hfirst.same hlisted.1, hsame hlisted.2]

theorem readFields_sound (hchild : Sound readChild depth) {count : Nat} {input rest : Bytes}
    {document result : Document} (hdocument : Document.WellFormed document)
    (h : readFields readChild count document input = .ok (result, rest)) :
    ∃ listed : List (String × NovaValue), input = layoutFields listed ++ rest ∧
      listed.length = count ∧
      encodeFields listed depth = .ok (layoutFields (canonicalFields listed)) ∧
      Document.WellFormed result ∧
      (Entries.Sorted (document.fields ++ listed) → Document.FieldsWellFormed listed →
        result = ⟨document.id, document.fields ++ listed⟩) := by
  induction count generalizing input document with
  | zero =>
      obtain ⟨rfl, rfl⟩ := Prod.mk.inj (Except.ok.inj h)
      exact ⟨[], rfl, rfl, rfl, hdocument, fun _ _ => by rw [List.append_nil]⟩
  | succ count ih =>
      obtain ⟨⟨key, afterKey⟩, hkey, ⟨value, afterValue⟩, hvalue, -, -, hrest⟩ := by
        simpa only [readFields, bind_eq_ok] using h
      obtain ⟨first, rfl, hfirst⟩ := hchild hvalue
      obtain ⟨listed, rfl, rfl, hencoded, hformed, hsame⟩ :=
        ih (Document.wellFormed_insert hdocument key hfirst.wellFormed) hrest
      refine ⟨(key, first) :: listed, ?_, rfl, ?_, hformed, fun hsorted hlisted => ?_⟩
      · rw [readStringPayload_eq_ok hkey, layoutFields, List.append_assoc, List.append_assoc]
      · simp only [encodeFields, hfirst.encoded, hencoded, ok_bind, pure_eq_ok, canonicalFields,
          layoutFields]
      · have hbelow : ∀ e ∈ document.fields, e.1 < key := fun e he =>
          (List.pairwise_append.mp hsorted).2.2 e he (key, first) List.mem_cons_self
        have hinsert : (document.insert key value).2 =
            ⟨document.id, document.fields ++ [(key, first)]⟩ := by
          rw [hfirst.same hlisted.1, DocumentOf.insert, Entries.insert_last _ hbelow]
        rw [hinsert] at hsame
        have hresult := hsame (by simpa using hsorted) hlisted.2
        simpa using hresult

/-- A document after its tag is read from the layout of the listed document. -/
theorem readDocument_sound (hchild : depth < maxNestingDepth → Sound readChild (depth + 1))
    {readTag : Bool} {input rest : Bytes} {document : Document}
    (h : readDocument readChild depth readTag input = .ok (document, rest)) :
    ∃ listed : Document,
      (if readTag then input else Tag.document.toByte :: input) =
        layoutDocument listed ++ rest ∧
      encodeDocument listed depth = .ok (layoutDocument (canonical listed)) ∧
      Document.WellFormed document ∧ (Document.WellFormed listed → document = listed) := by
  obtain ⟨u, hdepth, afterTag, htag, ⟨id, afterId⟩, hid, ⟨count, afterCount⟩, hcount, hfields⟩ :=
    by simpa only [readDocument, bind_eq_ok] using h
  have hlt : depth < maxNestingDepth := require_eq_ok.mp hdepth
  obtain ⟨hcount, hlimit⟩ := readCount_eq_ok hcount
  obtain ⟨listed, rfl, rfl, hencoded, hformed, hsame⟩ :=
    readFields_sound (hchild hlt) (Document.wellFormed_new id) hfields
  refine ⟨⟨id, listed⟩, ?_, ?_, hformed, fun hlisted => ?_⟩
  · have hbody : afterTag = id.bytes ++ (writeVarint (UInt64.ofNat listed.length) ++
        (layoutFields listed ++ rest)) := by
      have hid := readNovaId_eq_ok hid
      dsimp only at hid hcount
      rw [hid, hcount]
    have hinput : (if readTag then input else Tag.document.toByte :: input) =
        Tag.document.toByte :: afterTag := by
      cases readTag with
      | false =>
          obtain rfl := Except.ok.inj htag
          rfl
      | true =>
          obtain ⟨⟨byte, tail⟩, hbyte, -, hdocument, hresult⟩ := by
            simpa only [readDocumentTag, if_true, bind_eq_ok, require_eq_ok] using htag
          obtain rfl := Except.ok.inj hresult
          dsimp only at hdocument
          rw [if_pos rfl, readByte_eq_ok hbyte, hdocument]
    rw [hinput, hbody, layoutDocument]
    simp only [List.cons_append, List.append_assoc]
  · have hcheck : checkEncodeDepth depth = .ok () := require_of _ hlt
    have hsize : checkEncodeCount listed.length = .ok () := require_of _ hlimit
    simp only [encodeDocument, hcheck, hsize, hencoded, ok_bind, pure_eq_ok, canonical,
      layoutDocument, canonicalFields_eq_map, List.length_map]
  · exact hsame hlisted.1 hlisted.2

/-- An array after its tag is read from the layout of the listed elements. -/
theorem readArray_sound (hchild : depth < maxNestingDepth → Sound readChild (depth + 1))
    (hlt : depth < maxNestingDepth) {label : String} {input afterCount rest : Bytes} {count : Nat}
    {values : List NovaValue} (hcount : readCount label input = .ok (count, afterCount))
    (hvalues : readValues readChild count afterCount = .ok (values, rest)) :
    ∃ listed, Tag.array.toByte :: input = layoutValue (.array listed) ++ rest ∧
      Reading depth (.array listed) (.array values) := by
  obtain ⟨hcount, hlimit⟩ := readCount_eq_ok hcount
  obtain ⟨listed, rfl, rfl, hencoded, hformed, hsame⟩ := readValues_sound (hchild hlt) hvalues
  refine ⟨listed, ?_, ?_, hformed, fun hlisted => ?_⟩
  · rw [hcount]
    simp only [layoutValue, List.cons_append, List.append_assoc]
  · have hcheck : checkEncodeDepth depth = .ok () := require_of _ hlt
    have hsize : checkEncodeCount listed.length = .ok () := require_of _ hlimit
    simp only [encodeValue, hcheck, hsize, hencoded, ok_bind, pure_eq_ok, canonicalValue,
      layoutValue, canonicalValues_eq_map, List.length_map]
  · rw [hsame hlisted]

/-- One round of the reader is sound when the reader below it is. -/
theorem readValueWith_sound (hchild : depth < maxNestingDepth → Sound readChild (depth + 1)) :
    Sound (readValueWith readChild depth) depth := by
  intro input value rest h
  obtain ⟨⟨byte, body⟩, hbyte, hread⟩ := bind_eq_ok.mp h
  obtain rfl := readByte_eq_ok hbyte
  clear h hbyte
  dsimp only at hread
  cases hfound : Tag.fromByte byte with
  | none =>
      rw [hfound] at hread
      simp [corruption] at hread
  | some tag =>
      obtain rfl := toByte_of_fromByte hfound
      rw [Tag.fromByte_toByte] at hread
      cases tag with
      | null =>
          obtain ⟨rfl, rfl⟩ := Prod.mk.inj (Except.ok.inj hread)
          exact ⟨.null, rfl, rfl, trivial, fun _ => rfl⟩
      | false =>
          obtain ⟨rfl, rfl⟩ := Prod.mk.inj (Except.ok.inj hread)
          exact ⟨.boolean false, rfl, rfl, trivial, fun _ => rfl⟩
      | true =>
          obtain ⟨rfl, rfl⟩ := Prod.mk.inj (Except.ok.inj hread)
          exact ⟨.boolean true, rfl, rfl, trivial, fun _ => rfl⟩
      | int64 =>
          obtain ⟨⟨word, tail⟩, hword, hresult⟩ := bind_eq_ok.mp hread
          obtain ⟨rfl, rfl⟩ := Prod.mk.inj (Except.ok.inj hresult)
          refine ⟨.int64 word.toInt64, ?_, rfl, trivial, fun _ => rfl⟩
          rw [readWord_eq_ok hword]
          rfl
      | float64 =>
          obtain ⟨⟨word, tail⟩, hword, hresult⟩ := bind_eq_ok.mp hread
          obtain ⟨rfl, rfl⟩ := Prod.mk.inj (Except.ok.inj hresult)
          refine ⟨.float64 ⟨word⟩, ?_, ?_, trivial, fun _ => rfl⟩
          · rw [readWord_eq_ok hword]
            rfl
          · rw [canonicalValue, encodeValue, layoutValue]
            split <;> rfl
      | string =>
          obtain ⟨⟨text, tail⟩, htext, hresult⟩ := bind_eq_ok.mp hread
          obtain ⟨rfl, rfl⟩ := Prod.mk.inj (Except.ok.inj hresult)
          refine ⟨.string text, ?_, rfl, trivial, fun _ => rfl⟩
          rw [readStringPayload_eq_ok htext]
          rfl
      | array =>
          obtain ⟨u, hdepth, ⟨count, afterCount⟩, hcount, ⟨values, tail⟩, hvalues, hresult⟩ := by
            simpa only [bind_eq_ok] using hread
          obtain ⟨rfl, rfl⟩ := Prod.mk.inj (Except.ok.inj hresult)
          obtain ⟨listed, hlayout, hreading⟩ :=
            readArray_sound hchild (require_eq_ok.mp hdepth) hcount hvalues
          exact ⟨.array listed, hlayout, hreading⟩
      | document =>
          obtain ⟨⟨document, tail⟩, hdocument, hresult⟩ := bind_eq_ok.mp hread
          obtain ⟨rfl, rfl⟩ := Prod.mk.inj (Except.ok.inj hresult)
          obtain ⟨listed, hlayout, hencoded, hformed, hsame⟩ :=
            readDocument_sound hchild hdocument
          exact ⟨.document listed, hlayout, hencoded, hformed,
            fun hlisted => congrArg _ (hsame hlisted)⟩
      | timestamp =>
          obtain ⟨⟨word, tail⟩, hword, hresult⟩ := bind_eq_ok.mp hread
          obtain ⟨rfl, rfl⟩ := Prod.mk.inj (Except.ok.inj hresult)
          refine ⟨.timestamp ⟨word.toInt64⟩, ?_, rfl, trivial, fun _ => rfl⟩
          rw [readWord_eq_ok hword]
          rfl
      | novaId =>
          obtain ⟨⟨id, tail⟩, hid, hresult⟩ := bind_eq_ok.mp hread
          obtain ⟨rfl, rfl⟩ := Prod.mk.inj (Except.ok.inj hresult)
          refine ⟨.novaId id, ?_, rfl, trivial, fun _ => rfl⟩
          rw [readNovaId_eq_ok hid]
          rfl

end Children

/-- The reader accepts only layouts at every depth. -/
theorem readValueLeft_sound {left : Nat} (hleft : left ≤ maxNestingDepth) :
    Sound (readValueLeft left) (maxNestingDepth - left) := by
  induction left with
  | zero => exact readValueWith_sound fun hlt => absurd hlt (by omega)
  | succ left ih =>
      refine readValueWith_sound fun _ => ?_
      have hnext : maxNestingDepth - (left + 1) + 1 = maxNestingDepth - left := by omega
      rw [hnext]
      intro input value rest h
      exact ih (by omega) h

/-- An accepted stream is the layout of a document that encodes within the limits. -/
theorem decode_sound {bytes : Bytes} {document : Document} (h : decode bytes = .ok document) :
    ∃ listed : Document, layout listed = bytes ∧ encode listed = .ok (layout (canonical listed)) ∧
      Document.WellFormed document ∧ (Document.WellFormed listed → document = listed) := by
  obtain ⟨body, hheader, ⟨found, tail⟩, hread, -, hend, hresult⟩ := by
    simpa only [decode, bind_eq_ok, require_eq_ok] using h
  obtain rfl := Except.ok.inj hresult
  have hchild : 0 < maxNestingDepth → Sound (readValue 1) (0 + 1) := fun _ =>
    readValueLeft_sound (Nat.sub_le maxNestingDepth 1)
  obtain ⟨listed, hlayout, hencoded, hformed, hsame⟩ := readDocument_sound hchild hread
  obtain ⟨⟨start, afterMagic⟩, hmagic, -, hstart, ⟨word, afterVersion⟩, hword, -, hversion,
    hbody⟩ := by simpa only [readHeader, bind_eq_ok, require_eq_ok] using hheader
  obtain rfl := Except.ok.inj hbody
  obtain ⟨rfl, -⟩ := take_eq_ok hmagic
  obtain ⟨hafter, hlength⟩ := take_eq_ok hword
  dsimp only at hstart hversion hafter hlayout hend
  have hwordBytes : word = toBigEndian 4 formatVersion := by
    rw [← hversion, ← hlength, toBigEndian_fromBigEndian]
  rw [if_pos rfl, hend, List.append_nil] at hlayout
  refine ⟨listed, ?_, ?_, hformed, hsame⟩
  · rw [layout, ← hlayout, hstart, hafter, hwordBytes]
  · rw [encode, hencoded]
    rfl

/-- A document is determined by its layout, whatever comes after it. -/
theorem layout_append_unique {document other : Document} {r s : Bytes}
    (h : layout document ++ r = layout other ++ s)
    (hfits : (layout document ++ r).length < 2 ^ 64) : document = other ∧ r = s := by
  simp only [layout, List.append_assoc] at h
  have hbody := List.append_cancel_left (List.append_cancel_left h)
  simp only [layout, List.append_assoc, List.length_append] at hfits
  have hlength : (layoutDocument document ++ r).length < 2 ^ 64 := by
    rw [List.length_append]
    omega
  have hvalues : layoutValue (.document document) ++ r = layoutValue (.document other) ++ s := hbody
  obtain ⟨hsame, hr⟩ := determined (.document document) hvalues hlength
  exact ⟨NovaValue.document.inj hsame, hr⟩

/-- An accepted stream lists the fields and floats of one document. It is the encoding of what it
decodes to if and only if the listed fields of every document are in increasing order of their
keys and every listed `NaN` is the quiet one. -/
theorem encode_decode_iff {bytes : Bytes} {document : Document}
    (h : decode bytes = .ok document) (hfits : bytes.length < 2 ^ 64) :
    ∃ listed : Document, layout listed = bytes ∧ (∀ other, layout other = bytes → other = listed) ∧
      (encode document = .ok bytes ↔
        Document.WellFormed listed ∧ canonical listed = listed) := by
  obtain ⟨listed, rfl, hencoded, hformed, hsame⟩ := decode_sound h
  have hunique : ∀ other, layout other = layout listed → other = listed := by
    intro other hlayout
    have happend : layout listed ++ [] = layout other ++ [] := by rw [hlayout]
    exact (layout_append_unique happend (by rwa [List.append_nil])).1.symm
  refine ⟨listed, rfl, hunique, fun hencode => ?_, ?_⟩
  · have hcanonical := hunique (canonical document) (encode_layout hencode).symm
    rw [← hcanonical]
    exact ⟨wellFormed_canonical hformed, canonical_idempotent document⟩
  · rintro ⟨hlisted, hcanonical⟩
    rw [hsame hlisted, hencoded, hcanonical]

/-- Two fields in decreasing order of their keys. -/
def unsortedStream : Bytes :=
  [0x4e, 0x4f, 0x56, 0x41, 0, 0, 0, 1, 7, 7, 7, 7, 7, 7, 7, 7, 7, 7, 7, 7, 7, 7, 7, 7, 7, 2,
    1, 0x62, 0, 1, 0x61, 0]

/-- What is read from this stream. -/
def sortedFields : Document := ⟨.filled 7, [("a", .null), ("b", .null)]⟩

/-- The same fields in the order of their keys. -/
def sortedStream : Bytes := unsortedStream.take 26 ++ [1, 0x61, 0, 1, 0x62, 0]

/-- One of the two streams is the encoding of what is read from it. -/
theorem sorted_stream_listed :
    (∃ listed : Document, layout listed = sortedStream ∧
      (∀ other, layout other = sortedStream → other = listed) ∧
      Document.WellFormed listed ∧ canonical listed = listed) ∧
    ∃ listed : Document, layout listed = unsortedStream ∧
      (∀ other, layout other = unsortedStream → other = listed) ∧
      ¬(Document.WellFormed listed ∧ canonical listed = listed) := by
  constructor
  · have hdecode : decode sortedStream = .ok sortedFields := rfl
    obtain ⟨listed, hlayout, hunique, hiff⟩ := encode_decode_iff hdecode (by decide)
    exact ⟨listed, hlayout, hunique, hiff.mp rfl⟩
  · have hdecode : decode unsortedStream = .ok sortedFields := rfl
    have hencode : encode sortedFields = .ok sortedStream := rfl
    obtain ⟨listed, hlayout, hunique, hiff⟩ := encode_decode_iff hdecode (by decide)
    refine ⟨listed, hlayout, hunique, fun hcanonical => ?_⟩
    have hsame := Except.ok.inj (hencode.symm.trans (hiff.mpr hcanonical))
    exact absurd hsame (by decide)

theorem unsorted_stream_accepted :
    decode unsortedStream = .ok sortedFields ∧ encode sortedFields ≠ .ok unsortedStream := by
  have hencode : encode sortedFields = .ok sortedStream := rfl
  refine ⟨rfl, fun h => ?_⟩
  rw [hencode] at h
  exact absurd (Except.ok.inj h) (by decide)

section SelfDelimiting

variable {document : Document} {bytes : Bytes}

/-- An accepted stream that an encoding begins is that encoding. -/
theorem eq_of_prefix_accepted (h : encode document = .ok bytes) {stream : Bytes} {other : Document}
    (hdecode : decode stream = .ok other) (hfits : stream.length < 2 ^ 64)
    (hfront : bytes <+: stream) : bytes = stream := by
  obtain ⟨listed, rfl, -⟩ := decode_sound hdecode
  obtain ⟨more, hmore⟩ := hfront
  rw [encode_layout h] at hmore ⊢
  have happend : layout listed ++ [] = layout (canonical document) ++ more := by
    rw [List.append_nil, hmore]
  obtain ⟨rfl, -⟩ := layout_append_unique happend (by rwa [List.append_nil])
  rfl

/-- An accepted stream that begins an encoding is that encoding. -/
theorem eq_of_accepted_front (h : encode document = .ok bytes) (hfits : bytes.length < 2 ^ 64)
    {stream : Bytes} {other : Document} (hdecode : decode stream = .ok other)
    (hfront : stream <+: bytes) : stream = bytes := by
  obtain ⟨listed, rfl, -⟩ := decode_sound hdecode
  obtain ⟨more, hmore⟩ := hfront
  rw [encode_layout h] at hmore hfits ⊢
  have happend : layout (canonical document) ++ [] = layout listed ++ more := by
    rw [List.append_nil, hmore]
  obtain ⟨rfl, -⟩ := layout_append_unique happend (by rwa [List.append_nil])
  rfl

/-- The encoder's streams tell where they end: the decoder refuses every stream that goes on
behind one and every stream that stops inside one. A byte vector is shorter than `2 ^ 64`. -/
theorem encode_self_delimiting (h : encode document = .ok bytes) (hfits : bytes.length < 2 ^ 64) :
    (∀ start, start <+: bytes → start ≠ bytes → ∃ cause, decode start = .error cause) ∧
      (∀ more, more ≠ [] → (bytes ++ more).length < 2 ^ 64 →
        ∃ cause, decode (bytes ++ more) = .error cause) ∧
      ∀ stream other, decode stream = .ok other → stream.length < 2 ^ 64 →
        (bytes <+: stream → bytes = stream) ∧ (stream <+: bytes → stream = bytes) := by
  refine ⟨?_, ?_, ?_⟩
  · intro start hfront hne
    cases hdecode : decode start with
    | error cause => exact ⟨cause, rfl⟩
    | ok other => exact absurd (eq_of_accepted_front h hfits hdecode hfront) hne
  · intro more hmore hlength
    cases hdecode : decode (bytes ++ more) with
    | error cause => exact ⟨cause, rfl⟩
    | ok other =>
        have hsame := eq_of_prefix_accepted h hdecode hlength ⟨more, rfl⟩
        exact absurd (List.self_eq_append_right.mp hsame) hmore
  · intro stream other hdecode hlength
    exact ⟨eq_of_prefix_accepted h hdecode hlength, eq_of_accepted_front h hfits hdecode⟩

theorem encode_self_delimiting_nan :
    (∃ cause, decode (nanStream.take 44) = .error cause) ∧
      ∃ cause, decode (nanStream ++ [0]) = .error cause := by
  have hencode : encode nanSample = .ok nanStream := rfl
  obtain ⟨hprefixes, hextensions, -⟩ := encode_self_delimiting hencode (by decide)
  exact ⟨hprefixes _ (List.take_prefix 44 nanStream) (by decide),
    hextensions [0] (by decide) (by decide)⟩

end SelfDelimiting

end NovaBase.Nbf
