import NovaBase.Index.Catalog
import NovaBase.Index.SnapshotRoundTrip

/-!
# Definitions are read back

The metadata file of an index holds its definition and a checksum. The reader
has no limit of its own that a definition with a field path could exceed.
-/

namespace NovaBase.Index

open Lib Lib.Bytes

namespace MetaCursor

/-- The next `length` bytes, and the input after them. -/
def take (length : Nat) (input : Bytes) : Result (Bytes × Bytes) := do
  require (length ≤ input.length) (NovaError.corruption "truncated index metadata")
  return (input.take length, input.drop length)

/-- A number of `width` bytes, most significant byte first. -/
def word (width : Nat) (input : Bytes) : Result (Nat × Bytes) := do
  let (bytes, input) ← take width input
  return (fromBigEndian bytes, input)

def u16 : Bytes → Result (Nat × Bytes) := word 2

def u32 : Bytes → Result (Nat × Bytes) := word 4

/-- A text behind its length. -/
def text (input : Bytes) : Result (String × Bytes) := do
  let (length, input) ← u32 input
  require (length ≤ input.length)
    (NovaError.corruption "impossible index metadata string length")
  let (bytes, input) ← take length input
  match String.fromUTF8? ⟨bytes.toArray⟩ with
  | some text => return (text, input)
  | none => corruption "metadata string is not UTF-8"

end MetaCursor

/-- The definition in the bytes of a metadata file. -/
def decodeDefinition (bytes : Bytes) : Result IndexDefinition := do
  require (10 ≤ bytes.length ∧ bytes.take 4 = metaMagic)
    (NovaError.corruption "invalid index metadata header")
  let payload := bytes.take (bytes.length - 4)
  require (fromBigEndian (bytes.drop (bytes.length - 4)) = (metaCrc32 payload).toNat)
    (NovaError.corruption "index metadata checksum mismatch")
  let (_, input) ← MetaCursor.take 4 payload
  let (found, input) ← MetaCursor.u16 input
  require (found = metaVersion) (NovaError.unsupported s!"index metadata version {found}")
  let (name, input) ← MetaCursor.text input
  let (collection, input) ← MetaCursor.text input
  let (count, input) ← MetaCursor.u32 input
  require (count ≠ 0 ∧ count ≤ input.length) (NovaError.corruption "impossible index field count")
  let (field, input) ← decodeMany MetaCursor.text count input
  require (input = []) (NovaError.corruption "trailing index metadata bytes")
  return ⟨name, collection, field⟩

section Reading

theorem metaTake_append {front : Bytes} {length : Nat} (h : front.length = length) (rest : Bytes) :
    MetaCursor.take length (front ++ rest) = .ok (front, rest) := by
  subst h
  have hlength : front.length ≤ (front ++ rest).length := by simp
  simp only [MetaCursor.take, require_of _ hlength, ok_bind, List.take_left, List.drop_left]
  rfl

theorem metaWord_append {width number : Nat} (h : number < 256 ^ width) (rest : Bytes) :
    MetaCursor.word width (toBigEndian width number ++ rest) = .ok (number, rest) := by
  simp [MetaCursor.word, metaTake_append (length_toBigEndian width number),
    fromBigEndian_toBigEndian h]

theorem writeU32_eq_ok {value : Nat} {bytes : Bytes} :
    writeU32 value = .ok bytes ↔ value ≤ u32Max ∧ toBigEndian 4 value = bytes := by
  simp [writeU32]

/-- A text is read as it was written, whatever follows. -/
theorem inverts_text (limit : Nat) (text : String) :
    Inverts limit writeText MetaCursor.text True text := by
  intro bytes hbytes
  simp only [writeText, bind_eq_ok, writeU32_eq_ok, pure_eq_ok, Except.ok.injEq] at hbytes
  obtain ⟨length, ⟨hlength, rfl⟩, rfl⟩ := hbytes
  refine ⟨by simp, fun rest _ => .of_ok ?_⟩
  have hword : MetaCursor.u32 (toBigEndian 4 (utf8 text).length ++ (utf8 text ++ rest)) =
      .ok ((utf8 text).length, utf8 text ++ rest) :=
    metaWord_append (Nat.lt_of_le_of_lt hlength (by decide)) _
  have hroom : (utf8 text).length ≤ (utf8 text ++ rest).length := by simp
  simp only [MetaCursor.text, List.append_assoc, hword, ok_bind, require_of _ hroom,
    metaTake_append rfl, fromUTF8_utf8, pure_eq_ok]

theorem text_append {text : String} {bytes : Bytes} (h : writeText text = .ok bytes)
    (rest : Bytes) : MetaCursor.text (bytes ++ rest) = .ok (text, rest) :=
  ((inverts_text (bytes ++ rest).length text bytes h).2 rest le_rfl).1 trivial

theorem texts_append {texts : List String} {bytes : Bytes} (h : writeTexts texts = .ok bytes) :
    texts.length ≤ bytes.length ∧
      decodeMany MetaCursor.text texts.length bytes = .ok (texts, []) := by
  obtain ⟨hlength, hmany⟩ := Inverts.many writeTexts rfl (fun _ _ => rfl)
    (fun text _ => inverts_text bytes.length text) h
  have hread := (hmany [] (by rw [List.append_nil])).1 (fun _ _ => trivial)
  rw [List.append_nil] at hread
  exact ⟨hlength, hread⟩

/-- A definition with a field path is read back from what is written. -/
theorem decodeDefinition_encodeDefinition {definition : IndexDefinition} {bytes : Bytes}
    (hfield : definition.field ≠ []) (h : encodeDefinition definition = .ok bytes) :
    decodeDefinition bytes = .ok definition := by
  simp only [encodeDefinition, bind_eq_ok, writeU32_eq_ok, pure_eq_ok, Except.ok.injEq] at h
  obtain ⟨name, hname, collection, hcollection, count, ⟨hcount, rfl⟩, segments,
      hsegments, hbytes⟩ :=
    h
  obtain ⟨payload, hpayload⟩ : ∃ payload, payload = metaMagic ++ (toBigEndian 2 metaVersion ++
      (name ++ (collection ++ (toBigEndian 4 definition.field.length ++ segments)))) := ⟨_, rfl⟩
  rw [← hpayload] at hbytes
  subst hbytes
  obtain ⟨hlength, hfields⟩ := texts_append hsegments
  have hten : 10 ≤ (payload ++ toBigEndian 4 (metaCrc32 payload).toNat).length := by
    simp [hpayload, metaMagic]
    omega
  have hmagic : (payload ++ toBigEndian 4 (metaCrc32 payload).toNat).take 4 = metaMagic := by
    rw [hpayload]
    rfl
  have htake : (payload ++ toBigEndian 4 (metaCrc32 payload).toNat).take
      ((payload ++ toBigEndian 4 (metaCrc32 payload).toNat).length - 4) = payload := by
    simp
  have hsum : fromBigEndian ((payload ++ toBigEndian 4 (metaCrc32 payload).toNat).drop
      ((payload ++ toBigEndian 4 (metaCrc32 payload).toNat).length - 4)) =
      (metaCrc32 payload).toNat := by
    have hdigits : (metaCrc32 payload).toNat < 256 ^ 4 := (metaCrc32 payload).isLt
    simpa using fromBigEndian_toBigEndian hdigits
  have hversion : metaVersion < 256 ^ 2 := by decide
  have hcounted : definition.field.length ≠ 0 ∧ definition.field.length ≤ segments.length :=
    ⟨fun hzero => hfield (List.eq_nil_of_length_eq_zero hzero), hlength⟩
  have hbound : definition.field.length < 256 ^ 4 := Nat.lt_of_le_of_lt hcount (by decide)
  have hstart : MetaCursor.take 4 payload = .ok (metaMagic, toBigEndian 2 metaVersion ++
      (name ++ (collection ++ (toBigEndian 4 definition.field.length ++ segments)))) := by
    rw [hpayload]
    exact @metaTake_append metaMagic 4 rfl _
  rw [decodeDefinition, require_of _ ⟨hten, hmagic⟩, ok_bind]
  simp only [htake, hsum, require_of _ trivial, ok_bind, hstart, MetaCursor.u16, MetaCursor.u32,
    metaWord_append hversion, text_append hname, text_append hcollection, metaWord_append hbound,
    require_of _ hcounted, hfields]
  rfl

end Reading

end NovaBase.Index
