import NovaBase.Nbf.RoundTrip

/-!
# Layouts

The layout of a document writes its fields in the order in which they are
listed and its floats as they are. The encoder writes the layout of the
canonical document, and a document is determined by its layout.
-/

namespace NovaBase.Nbf

open Lib Lib.Bytes

mutual

/-- A value behind its tag, with its float as it is. -/
def layoutValue : NovaValue → Bytes
  | .null => [Tag.null.toByte]
  | .boolean false => [Tag.false.toByte]
  | .boolean true => [Tag.true.toByte]
  | .int64 value => Tag.int64.toByte :: toBigEndian 8 value.toUInt64.toNat
  | .float64 value => Tag.float64.toByte :: toBigEndian 8 value.bits.toNat
  | .string value => Tag.string.toByte :: encodeText value
  | .array values =>
      Tag.array.toByte :: (writeVarint (UInt64.ofNat values.length) ++ layoutValues values)
  | .document document => layoutDocument document
  | .timestamp value => Tag.timestamp.toByte :: toBigEndian 8 value.millis.toUInt64.toNat
  | .novaId value => Tag.novaId.toByte :: value.bytes

/-- The elements of an array in their order. -/
def layoutValues : List NovaValue → Bytes
  | [] => []
  | value :: rest => layoutValue value ++ layoutValues rest

/-- A document with its fields as they are listed. -/
def layoutDocument : DocumentOf NovaValue → Bytes
  | ⟨id, fields⟩ => Tag.document.toByte ::
      (id.bytes ++ (writeVarint (UInt64.ofNat fields.length) ++ layoutFields fields))

/-- Fields as they are listed, each with its name in front. -/
def layoutFields : List (String × NovaValue) → Bytes
  | [] => []
  | (key, value) :: rest => encodeText key ++ (layoutValue value ++ layoutFields rest)

end

/-- The stream of a document as it is listed. -/
def layout (document : Document) : Bytes :=
  magic ++ (toBigEndian 4 formatVersion ++ layoutDocument document)

section Canonical

theorem canonicalValues_eq_map (values : List NovaValue) :
    canonicalValues values = values.map canonicalValue := by
  induction values with
  | nil => rfl
  | cons value rest ih => rw [canonicalValues, ih, List.map_cons]

theorem canonicalFields_eq_map (fields : List (String × NovaValue)) :
    canonicalFields fields = fields.map fun e => (e.1, canonicalValue e.2) := by
  induction fields with
  | nil => rfl
  | cons entry rest ih => rw [canonicalFields, ih, List.map_cons]

theorem sorted_canonicalFields {fields : Entries String NovaValue} :
    Entries.Sorted (canonicalFields fields) ↔ Entries.Sorted fields := by
  rw [canonicalFields_eq_map, Entries.Sorted, Entries.Sorted, List.pairwise_map]

theorem wellFormed_canonicalValue {value : NovaValue} (h : value.WellFormed) :
    (canonicalValue value).WellFormed := by
  induction value using NovaValue.nested_induction with
  | array values ih =>
      rw [canonicalValue, NovaValue.WellFormed, NovaValue.allWellFormed_iff,
        canonicalValues_eq_map]
      intro value hvalue
      obtain ⟨original, hmem, rfl⟩ := List.mem_map.mp hvalue
      exact ih original hmem (NovaValue.allWellFormed_iff.mp h original hmem)
  | document document ih =>
      obtain ⟨hsorted, hfields⟩ := Document.wellFormed_iff.mp h
      rw [canonicalValue, NovaValue.WellFormed, Document.wellFormed_iff, canonical]
      refine ⟨sorted_canonicalFields.mpr hsorted, ?_⟩
      rw [canonicalFields_eq_map]
      intro e he
      obtain ⟨original, hmem, rfl⟩ := List.mem_map.mp he
      exact ih original hmem (hfields original hmem)
  | _ => trivial

theorem wellFormed_canonical {document : Document} (h : Document.WellFormed document) :
    Document.WellFormed (canonical document) := by
  have hvalue : (NovaValue.document document).WellFormed := h
  exact wellFormed_canonicalValue hvalue

theorem canonicalValue_idempotent (value : NovaValue) :
    canonicalValue (canonicalValue value) = canonicalValue value := by
  induction value using NovaValue.nested_induction with
  | float64 value =>
      simp only [canonicalValue]
      split
      · rw [ite_self]
      · rfl
  | array values ih =>
      simp only [canonicalValue, canonicalValues_eq_map, List.map_map]
      exact congrArg NovaValue.array (List.map_congr_left ih)
  | document document ih =>
      obtain ⟨id, fields⟩ := document
      simp only [canonicalValue, canonical, canonicalFields_eq_map, List.map_map]
      refine congrArg (fun fields => NovaValue.document ⟨id, fields⟩)
        (List.map_congr_left fun e he => ?_)
      exact congrArg (Prod.mk e.1) (ih e he)
  | _ => rfl

theorem canonical_idempotent (document : Document) :
    canonical (canonical document) = canonical document :=
  NovaValue.document.inj (canonicalValue_idempotent (.document document))

end Canonical

section Encoding

variable {depth : Nat} {bytes : Bytes}

theorem encodeValues_layout {values : List NovaValue}
    (hchild : ∀ value ∈ values, ∀ {encoded}, encodeValue value depth = .ok encoded →
      encoded = layoutValue (canonicalValue value))
    (h : encodeValues values depth = .ok bytes) :
    bytes = layoutValues (canonicalValues values) := by
  induction values generalizing bytes with
  | nil => exact (Except.ok.inj h).symm
  | cons value rest ih =>
      obtain ⟨hvalue, hrest⟩ := List.forall_mem_cons.mp hchild
      obtain ⟨encoded, hencoded, others, hothers, hbytes⟩ := by
        simpa only [encodeValues, bind_eq_ok] using h
      rw [← Except.ok.inj hbytes, hvalue hencoded, ih hrest hothers]
      rfl

theorem encodeFields_layout {fields : List (String × NovaValue)}
    (hchild : ∀ e ∈ fields, ∀ {encoded}, encodeValue e.2 depth = .ok encoded →
      encoded = layoutValue (canonicalValue e.2))
    (h : encodeFields fields depth = .ok bytes) :
    bytes = layoutFields (canonicalFields fields) := by
  induction fields generalizing bytes with
  | nil => exact (Except.ok.inj h).symm
  | cons entry rest ih =>
      obtain ⟨key, value⟩ := entry
      obtain ⟨hvalue, hrest⟩ := List.forall_mem_cons.mp hchild
      obtain ⟨encoded, hencoded, others, hothers, hbytes⟩ := by
        simpa only [encodeFields, bind_eq_ok] using h
      rw [← Except.ok.inj hbytes, hvalue hencoded, ih hrest hothers]
      rfl

/-- The encoder writes the layout of the canonical value. -/
theorem encodeValue_layout {value : NovaValue} (h : encodeValue value depth = .ok bytes) :
    bytes = layoutValue (canonicalValue value) := by
  induction value using NovaValue.nested_induction generalizing depth bytes with
  | array values ih =>
      obtain ⟨-, -, -, -, body, hbody, hbytes⟩ := by
        simpa only [encodeValue, bind_eq_ok] using h
      rw [← Except.ok.inj hbytes, encodeValues_layout (fun v hv {_} => ih v hv) hbody,
        canonicalValue, layoutValue, canonicalValues_eq_map, List.length_map]
  | document document ih =>
      obtain ⟨id, fields⟩ := document
      obtain ⟨-, -, -, -, body, hbody, hbytes⟩ := by
        simpa only [encodeValue, encodeDocument, bind_eq_ok] using h
      rw [← Except.ok.inj hbytes, encodeFields_layout (fun e he {_} => ih e he) hbody,
        canonicalValue, canonical, layoutValue, layoutDocument, canonicalFields_eq_map,
        List.length_map]
  | boolean value => cases value <;> exact (Except.ok.inj h).symm
  | float64 value =>
      have hbytes := Except.ok.inj h
      rw [← hbytes, canonicalValue, layoutValue]
      split <;> rfl
  | _ => exact (Except.ok.inj h).symm

theorem encode_layout {document : Document} (h : encode document = .ok bytes) :
    bytes = layout (canonical document) := by
  obtain ⟨body, hbody, hbytes⟩ := bind_eq_ok.mp h
  have hvalue : encodeValue (.document document) 0 = .ok body := hbody
  rw [← Except.ok.inj hbytes, encodeValue_layout hvalue]
  rfl

end Encoding

section Uniqueness

/-- The tag of a value. -/
def tagOf : NovaValue → Tag
  | .null => .null
  | .boolean false => .false
  | .boolean true => .true
  | .int64 _ => .int64
  | .float64 _ => .float64
  | .string _ => .string
  | .array _ => .array
  | .document _ => .document
  | .timestamp _ => .timestamp
  | .novaId _ => .novaId

theorem layoutValue_cons (value : NovaValue) :
    ∃ body, layoutValue value = (tagOf value).toByte :: body := by
  cases value with
  | boolean value => cases value <;> exact ⟨_, rfl⟩
  | document document =>
      obtain ⟨id, fields⟩ := document
      exact ⟨_, rfl⟩
  | _ => exact ⟨_, rfl⟩

theorem layoutValue_length_pos (value : NovaValue) : 0 < (layoutValue value).length := by
  obtain ⟨body, hbody⟩ := layoutValue_cons value
  rw [hbody]
  exact Nat.succ_pos _

theorem tag_unique {value other : NovaValue} {r s : Bytes}
    (h : layoutValue value ++ r = layoutValue other ++ s) : tagOf value = tagOf other := by
  obtain ⟨body, hbody⟩ := layoutValue_cons value
  obtain ⟨otherBody, hother⟩ := layoutValue_cons other
  rw [hbody, hother] at h
  have htag := congrArg Tag.fromByte (List.cons.inj h).1
  rw [Tag.fromByte_toByte, Tag.fromByte_toByte] at htag
  exact Option.some.inj htag

theorem layoutValues_length (values : List NovaValue) :
    values.length ≤ (layoutValues values).length := by
  induction values with
  | nil => exact le_rfl
  | cons value rest ih =>
      have hpos := layoutValue_length_pos value
      rw [layoutValues, List.length_append, List.length_cons]
      omega

theorem layoutFields_length (fields : List (String × NovaValue)) :
    fields.length ≤ (layoutFields fields).length := by
  induction fields with
  | nil => exact le_rfl
  | cons entry rest ih =>
      obtain ⟨key, value⟩ := entry
      have hpos := layoutValue_length_pos value
      rw [layoutFields, List.length_append, List.length_append, List.length_cons]
      omega

theorem word_unique {a b : UInt64} {r s : Bytes}
    (h : toBigEndian 8 a.toNat ++ r = toBigEndian 8 b.toNat ++ s) : a = b ∧ r = s := by
  have hread := congrArg readWord h
  rw [readWord_append, readWord_append] at hread
  exact Prod.mk.inj (Except.ok.inj hread)

theorem signed_unique {a b : Int64} {r s : Bytes}
    (h : toBigEndian 8 a.toUInt64.toNat ++ r = toBigEndian 8 b.toUInt64.toNat ++ s) :
    a = b ∧ r = s := by
  obtain ⟨hword, hr⟩ := word_unique h
  cases a
  cases b
  exact ⟨congrArg Int64.ofUInt64 hword, hr⟩

theorem novaId_unique {a b : NovaId} {r s : Bytes} (h : a.bytes ++ r = b.bytes ++ s) :
    a = b ∧ r = s := by
  have hread := congrArg readNovaId h
  rw [readNovaId_append, readNovaId_append] at hread
  exact Prod.mk.inj (Except.ok.inj hread)

theorem count_unique {m n : Nat} {r s : Bytes} (hm : m < 2 ^ 64) (hn : n < 2 ^ 64)
    (h : writeVarint (UInt64.ofNat m) ++ r = writeVarint (UInt64.ofNat n) ++ s) :
    m = n ∧ r = s := by
  have hread := congrArg readVarintValue h
  rw [readVarintValue_writeVarint, readVarintValue_writeVarint] at hread
  obtain ⟨hcount, hrest⟩ := Prod.mk.inj (Except.ok.inj hread)
  have hnat := congrArg UInt64.toNat hcount
  rw [UInt64.toNat_ofNat', UInt64.toNat_ofNat', Nat.mod_eq_of_lt hm, Nat.mod_eq_of_lt hn] at hnat
  exact ⟨hnat, hrest⟩

theorem text_unique {a b : String} {r s : Bytes} (h : encodeText a ++ r = encodeText b ++ s)
    (hfits : (encodeText a ++ r).length < 2 ^ 64) : a = b ∧ r = s := by
  have hother := congrArg List.length h
  simp only [encodeText, List.length_append] at hfits hother
  have hread := congrArg (readStringPayload "string") h
  rw [readStringPayload_encodeText _ (by omega), readStringPayload_encodeText _ (by omega)] at hread
  exact Prod.mk.inj (Except.ok.inj hread)

/-- No other value has a layout that starts the same bytes. -/
def Determined (value : NovaValue) : Prop :=
  ∀ {other : NovaValue} {r s : Bytes}, layoutValue value ++ r = layoutValue other ++ s →
    (layoutValue value ++ r).length < 2 ^ 64 → value = other ∧ r = s

theorem layoutValues_unique {values others : List NovaValue} {r s : Bytes}
    (hchild : ∀ value ∈ values, Determined value) (hlength : values.length = others.length)
    (h : layoutValues values ++ r = layoutValues others ++ s)
    (hfits : (layoutValues values ++ r).length < 2 ^ 64) : values = others ∧ r = s := by
  induction values generalizing others with
  | nil =>
      obtain rfl : others = [] := List.eq_nil_of_length_eq_zero hlength.symm
      exact ⟨rfl, h⟩
  | cons value rest ih =>
      obtain ⟨hvalue, hrest⟩ := List.forall_mem_cons.mp hchild
      cases others with
      | nil => simp at hlength
      | cons other others =>
          rw [layoutValues, List.append_assoc] at h hfits
          rw [layoutValues, List.append_assoc] at h
          obtain ⟨rfl, htail⟩ := hvalue h hfits
          rw [List.length_append] at hfits
          obtain ⟨rfl, hr⟩ := ih hrest (by simpa using hlength) htail (by omega)
          exact ⟨rfl, hr⟩

theorem layoutFields_unique {fields others : List (String × NovaValue)} {r s : Bytes}
    (hchild : ∀ e ∈ fields, Determined e.2) (hlength : fields.length = others.length)
    (h : layoutFields fields ++ r = layoutFields others ++ s)
    (hfits : (layoutFields fields ++ r).length < 2 ^ 64) : fields = others ∧ r = s := by
  induction fields generalizing others with
  | nil =>
      obtain rfl : others = [] := List.eq_nil_of_length_eq_zero hlength.symm
      exact ⟨rfl, h⟩
  | cons entry rest ih =>
      obtain ⟨key, value⟩ := entry
      obtain ⟨hvalue, hrest⟩ := List.forall_mem_cons.mp hchild
      cases others with
      | nil => simp at hlength
      | cons other others =>
          obtain ⟨otherKey, other⟩ := other
          rw [layoutFields, List.append_assoc, List.append_assoc] at h hfits
          rw [layoutFields, List.append_assoc, List.append_assoc] at h
          obtain ⟨rfl, hbody⟩ := text_unique h hfits
          rw [List.length_append] at hfits
          obtain ⟨rfl, htail⟩ := hvalue hbody (by dsimp only; omega)
          rw [List.length_append] at hfits
          obtain ⟨rfl, hr⟩ := ih hrest (by simpa using hlength) htail (by omega)
          exact ⟨rfl, hr⟩

theorem layoutDocument_unique {document other : Document} {r s : Bytes}
    (hchild : ∀ e ∈ document.fields, Determined e.2)
    (h : layoutDocument document ++ r = layoutDocument other ++ s)
    (hfits : (layoutDocument document ++ r).length < 2 ^ 64) : document = other ∧ r = s := by
  obtain ⟨id, fields⟩ := document
  obtain ⟨otherId, others⟩ := other
  have hlength := congrArg List.length h
  simp only [layoutDocument, List.cons_append, List.append_assoc, List.cons.injEq,
    true_and] at h
  simp only [layoutDocument, List.length_append, List.length_cons] at hfits hlength hchild
  have hfields := layoutFields_length fields
  have hothers := layoutFields_length others
  obtain ⟨rfl, hcount⟩ := novaId_unique h
  obtain ⟨hcount, hbody⟩ := count_unique (by omega) (by omega) hcount
  obtain ⟨rfl, hr⟩ := layoutFields_unique hchild hcount hbody
    (by simp only [List.length_append]; omega)
  exact ⟨rfl, hr⟩

/-- Two values of one kind. Booleans of one tag are the same. -/
inductive SameKind : NovaValue → NovaValue → Prop
  | null : SameKind .null .null
  | boolean (value : Bool) : SameKind (.boolean value) (.boolean value)
  | int64 (value other : Int64) : SameKind (.int64 value) (.int64 other)
  | float64 (value other : F64) : SameKind (.float64 value) (.float64 other)
  | string (value other : String) : SameKind (.string value) (.string other)
  | array (values others : List NovaValue) : SameKind (.array values) (.array others)
  | document (document other : Document) : SameKind (.document document) (.document other)
  | timestamp (value other : NovaTimestamp) : SameKind (.timestamp value) (.timestamp other)
  | novaId (value other : NovaId) : SameKind (.novaId value) (.novaId other)

theorem sameKind_of_tag {value other : NovaValue} (h : tagOf value = tagOf other) :
    SameKind value other := by
  cases value with
  | boolean value =>
      cases other with
      | boolean other =>
          cases value <;> cases other <;> first
            | exact .boolean _
            | simp [tagOf] at h
      | _ => cases value <;> simp [tagOf] at h
  | _ =>
      cases other with
      | boolean other => cases other <;> simp [tagOf] at h
      | _ =>
          first
            | constructor
            | simp [tagOf] at h

theorem determined_array {values : List NovaValue} (hchild : ∀ value ∈ values, Determined value) :
    Determined (.array values) := by
  intro other r s h hfits
  cases sameKind_of_tag (tag_unique h) with
  | array _ others =>
      have hlength := congrArg List.length h
      simp only [layoutValue, List.cons_append, List.append_assoc, List.length_cons,
        List.length_append] at h hfits hlength
      have hvalues := layoutValues_length values
      have hothers := layoutValues_length others
      obtain ⟨hcount, hbody⟩ := count_unique (by omega) (by omega) (List.cons.inj h).2
      obtain ⟨rfl, hr⟩ := layoutValues_unique hchild hcount hbody
        (by rw [List.length_append]; omega)
      exact ⟨rfl, hr⟩

/-- A value is determined by its layout, whatever comes after it. -/
theorem determined (value : NovaValue) : Determined value := by
  induction value using NovaValue.nested_induction with
  | null =>
      intro other r s h _
      cases sameKind_of_tag (tag_unique h)
      exact ⟨rfl, (List.cons.inj h).2⟩
  | boolean value =>
      intro other r s h _
      cases sameKind_of_tag (tag_unique h)
      exact ⟨rfl, List.append_cancel_left h⟩
  | int64 value =>
      intro other r s h _
      cases sameKind_of_tag (tag_unique h)
      obtain ⟨rfl, hr⟩ := signed_unique (List.cons.inj h).2
      exact ⟨rfl, hr⟩
  | float64 value =>
      intro other r s h _
      cases sameKind_of_tag (tag_unique h) with
      | float64 _ other =>
          obtain ⟨bits⟩ := value
          obtain ⟨otherBits⟩ := other
          obtain ⟨rfl, hr⟩ := word_unique (List.cons.inj h).2
          exact ⟨rfl, hr⟩
  | string value =>
      intro other r s h hfits
      cases sameKind_of_tag (tag_unique h)
      simp only [layoutValue, List.cons_append, List.length_cons] at h hfits
      obtain ⟨rfl, hr⟩ := text_unique (List.cons.inj h).2 (by omega)
      exact ⟨rfl, hr⟩
  | array values ih => exact determined_array ih
  | document document ih =>
      intro other r s h hfits
      cases sameKind_of_tag (tag_unique h)
      obtain ⟨rfl, hr⟩ := layoutDocument_unique ih h hfits
      exact ⟨rfl, hr⟩
  | timestamp value =>
      intro other r s h _
      cases sameKind_of_tag (tag_unique h) with
      | timestamp _ other =>
          obtain ⟨millis⟩ := value
          obtain ⟨otherMillis⟩ := other
          obtain ⟨rfl, hr⟩ := signed_unique (List.cons.inj h).2
          exact ⟨rfl, hr⟩
  | novaId value =>
      intro other r s h _
      cases sameKind_of_tag (tag_unique h)
      obtain ⟨rfl, hr⟩ := novaId_unique (List.cons.inj h).2
      exact ⟨rfl, hr⟩

end Uniqueness

end NovaBase.Nbf
