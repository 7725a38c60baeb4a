import NovaBase.Core.Error
import NovaBase.Core.Value

/-!
# Identifiers and their texts

An identifier is a time in milliseconds and eight random bytes behind it. Its text is its
hexadecimal digits, with a prefix or without. What is read back are the texts of 32 digits, of
either case, and an error names the first byte that is no digit.
-/

namespace NovaBase

open Lib Lib.Bytes

/-- What the text of an identifier starts with. -/
def novaIdPrefix : String := "nova_"

/-- The random half of an identifier. -/
abbrev RandomHalf := { bytes : Bytes // bytes.length = 8 }

/-- The digits that identifiers are written with. -/
def hexTable : List Char := "0123456789abcdef".toList

/-- The lower-case digit of half a byte. -/
def hexChar (nibble : UInt8) : Char := hexTable.getD nibble.toNat '0'

/-- Each byte is written as two digits, high half first. -/
def encodeHex (bytes : Bytes) : String :=
  String.ofList (bytes.flatMap fun byte : UInt8 => [hexChar (byte >>> 4), hexChar (byte &&& 0x0f)])

/-- The value of a digit of either case. -/
def decodeNibble (byte : UInt8) : Option UInt8 :=
  if 0x30 ≤ byte ∧ byte ≤ 0x39 then some (byte - 0x30)
  else if 0x61 ≤ byte ∧ byte ≤ 0x66 then some (byte - 0x61 + 10)
  else if 0x41 ≤ byte ∧ byte ≤ 0x46 then some (byte - 0x41 + 10)
  else none

/-- The error for a byte that is no digit. -/
def invalidHex (position : Nat) : NovaError :=
  .invalidArgument s!"invalid hex digit at position {position}"

/-- The digit at a position. -/
def readNibble (position : Nat) (byte : UInt8) : Result UInt8 :=
  match decodeNibble byte with
  | some nibble => .ok nibble
  | none => .error (invalidHex position)

/-- The bytes that pairs of digits stand for. -/
def decodePairs : Nat → (digits : Bytes) → Result { out : Bytes // out.length = digits.length / 2 }
  | position, high :: low :: rest => do
      let hi ← readNibble position high
      let lo ← readNibble (position + 1) low
      let others ← decodePairs (position + 2) rest
      return ⟨(hi <<< 4 ||| lo) :: others.1, by simp only [List.length_cons, others.2]; omega⟩
  | _, [_] => return ⟨[], by simp⟩
  | _, [] => return ⟨[], rfl⟩

namespace NovaId

/-- An identifier that was made at a time. -/
def new (epochMillis : UInt64) (random : RandomHalf) : NovaId :=
  ⟨toBigEndian 8 epochMillis.toNat ++ random.1, by simp [random.2, novaIdLength]⟩

/-- The creation time that is embedded in the identifier. -/
def timestampMs (id : NovaId) : UInt64 :=
  (id.bytes.take 8).foldl (fun ts byte => ts <<< 8 ||| byte.toUInt64) 0

/-- The random bytes behind the time. -/
def randomHalf (id : NovaId) : RandomHalf :=
  ⟨id.bytes.drop 8, by simp [id.length_eq, novaIdLength]⟩

/-- The digits of an identifier, without the prefix. -/
def toHex (id : NovaId) : String := encodeHex id.bytes

/-- The text of an identifier. -/
def display (id : NovaId) : String :=
  "nova_" ++ String.join (id.bytes.map fun byte =>
    hexDigit (byte.toNat / 16) ++ hexDigit (byte.toNat % 16))

/-- How many bytes of a text are its prefix. -/
def prefixLength (text : String) : Nat :=
  if (utf8 novaIdPrefix).isPrefixOf (utf8 text) then (utf8 novaIdPrefix).length else 0

/-- The bytes of a text behind its prefix. -/
def hexPart (text : String) : Bytes := (utf8 text).drop (prefixLength text)

/-- Read an identifier from its text. The prefix may be missing. -/
def fromStr (text : String) : Result NovaId :=
  if h : (hexPart text).length = novaIdLength * 2 then do
    let out ← decodePairs (prefixLength text) (hexPart text)
    return ⟨out.1, by rw [out.2, h]; rfl⟩
  else .error (.invalidArgument
    s!"nova id must be exactly {novaIdLength * 2} hex digits; got {(hexPart text).length}")

end NovaId

section Digits

/-- The number that digits of a base spell, behind those of another. -/
def spelled (base value : Nat) (digits : Bytes) : Nat :=
  digits.foldl (fun value digit => value * base + digit.toNat) value

theorem decodeNibble_lt {byte nibble : UInt8} (h : decodeNibble byte = some nibble) :
    nibble.toNat < 16 := by
  have hall : ∀ n : Fin 256,
      (decodeNibble (.ofNat n)).all (fun nibble => nibble.toNat < 16) = true := by
    decide +kernel
  have hbyte := hall ⟨byte.toNat, byte.toNat_lt⟩
  simpa [h] using hbyte

theorem toNat_pair {high low : UInt8} (hhigh : high.toNat < 16) (hlow : low.toNat < 16) :
    (high <<< 4 ||| low).toNat = high.toNat * 16 + low.toNat := by
  have hall : ∀ h l : Fin 16, ((UInt8.ofNat h) <<< 4 ||| UInt8.ofNat l).toNat =
      h.val * 16 + l.val := by
    decide +kernel
  simpa using hall ⟨high.toNat, hhigh⟩ ⟨low.toNat, hlow⟩

theorem readNibble_of_some {byte nibble : UInt8} (h : decodeNibble byte = some nibble)
    (position : Nat) : readNibble position byte = .ok nibble := by
  rw [readNibble, h]

theorem readNibble_of_none {byte : UInt8} (h : decodeNibble byte = none) (position : Nat) :
    readNibble position byte = .error (invalidHex position) := by
  rw [readNibble, h]

theorem exists_nibbles {digits : Bytes}
    (h : digits.findIdx? (fun byte => (decodeNibble byte).isNone) = none) :
    ∃ nibbles : Bytes, digits.map decodeNibble = nibbles.map some := by
  induction digits with
  | nil => exact ⟨[], rfl⟩
  | cons byte rest ih =>
      rw [List.findIdx?_eq_none_iff, List.forall_mem_cons] at h
      obtain ⟨nibbles, hnibbles⟩ := ih (List.findIdx?_eq_none_iff.mpr h.2)
      cases hbyte : decodeNibble byte with
      | none => simp [hbyte] at h
      | some nibble => exact ⟨nibble :: nibbles, by rw [List.map_cons, hbyte, hnibbles]; rfl⟩

/-- Pairs of digits are read as the bytes that they spell. -/
theorem decodePairs_of_digits {digits nibbles : Bytes}
    (hdigits : digits.map decodeNibble = nibbles.map some) (heven : digits.length % 2 = 0)
    (position : Nat) : ∃ out, decodePairs position digits = .ok out ∧
      ∀ value, spelled 256 value out.1 = spelled 16 value nibbles := by
  fun_induction decodePairs position digits generalizing nibbles with
  | case1 position high low rest ih =>
      have hsplit : ∃ hi lo others, nibbles = hi :: lo :: others := by
        cases nibbles with
        | nil => cases hdigits
        | cons hi tail =>
            cases tail with
            | nil => simp at hdigits
            | cons lo others => exact ⟨hi, lo, others, rfl⟩
      obtain ⟨hi, lo, others, rfl⟩ := hsplit
      simp only [List.map_cons, List.cons.injEq] at hdigits
      obtain ⟨hhigh, hlow, hrest⟩ := hdigits
      have hlength : rest.length % 2 = 0 := by
        rw [List.length_cons, List.length_cons] at heven
        omega
      obtain ⟨out, hout, hspelled⟩ := ih hrest hlength
      refine ⟨_, by
        rw [readNibble_of_some hhigh, ok_bind, readNibble_of_some hlow, ok_bind, hout]
        rfl, fun value => ?_⟩
      have hpair := toNat_pair (decodeNibble_lt hhigh) (decodeNibble_lt hlow)
      have hvalue : value * 256 + (hi <<< 4 ||| lo).toNat =
          (value * 16 + hi.toNat) * 16 + lo.toNat := by
        rw [hpair]
        ring
      calc
        _ = spelled 256 (value * 256 + (hi <<< 4 ||| lo).toNat) out.1 := rfl
        _ = spelled 16 ((value * 16 + hi.toNat) * 16 + lo.toNat) others := by
          rw [hvalue, hspelled]
        _ = _ := rfl
  | case2 position byte => cases heven
  | case3 position =>
      obtain rfl : nibbles = [] := by simpa using hdigits.symm
      exact ⟨_, rfl, fun _ => rfl⟩

/-- The first byte that is no digit is reported. -/
theorem decodePairs_of_bad {digits : Bytes} {i : Nat}
    (hbad : digits.findIdx? (fun byte => (decodeNibble byte).isNone) = some i)
    (heven : digits.length % 2 = 0) (position : Nat) :
    decodePairs position digits = .error (invalidHex (position + i)) := by
  fun_induction decodePairs position digits generalizing i with
  | case1 position high low rest ih =>
      have hlength : rest.length % 2 = 0 := by
        rw [List.length_cons, List.length_cons] at heven
        omega
      rw [List.findIdx?_cons] at hbad
      cases hhigh : decodeNibble high with
      | none =>
          rw [hhigh, Option.isNone_none, if_pos rfl] at hbad
          obtain rfl := Option.some.inj hbad
          rw [readNibble_of_none hhigh]
          rfl
      | some hi =>
          rw [hhigh, Option.isNone_some, if_neg Bool.false_ne_true, List.findIdx?_cons] at hbad
          rw [readNibble_of_some hhigh, ok_bind]
          cases hlow : decodeNibble low with
          | none =>
              rw [hlow, Option.isNone_none, if_pos rfl] at hbad
              obtain rfl := Option.some.inj hbad
              rw [readNibble_of_none hlow]
              rfl
          | some lo =>
              rw [hlow, Option.isNone_some, if_neg Bool.false_ne_true] at hbad
              rw [readNibble_of_some hlow, ok_bind]
              obtain ⟨j, hj, rfl⟩ : ∃ j, rest.findIdx? (fun byte => (decodeNibble byte).isNone) =
                  some j ∧ j + 1 + 1 = i := by
                simpa using hbad
              rw [ih hj hlength, Nat.add_assoc, Nat.add_comm 2 j]
              rfl
  | case2 position byte => cases heven
  | case3 position => cases hbad

end Digits

namespace NovaId

/-- The digits spell the number of the identifier. -/
def Spells (digits : Bytes) (id : NovaId) : Prop :=
  ∃ nibbles : Bytes, digits.map decodeNibble = nibbles.map some ∧
    nibbles.length = novaIdLength * 2 ∧ id.toNat = spelled 16 0 nibbles

section Reading

variable {text : String} {id : NovaId}

/-- A text of the right length is read digit by digit. -/
theorem fromStr_of_length (h : (hexPart text).length = novaIdLength * 2) :
    fromStr text = (do
      let out ← decodePairs (prefixLength text) (hexPart text)
      return ⟨out.1, by rw [out.2, h]; rfl⟩) :=
  dif_pos h

theorem fromStr_of_spells (h : Spells (hexPart text) id) : fromStr text = .ok id := by
  obtain ⟨nibbles, hdigits, hlength, hvalue⟩ := h
  have hpart : (hexPart text).length = novaIdLength * 2 := by
    have hsame := congrArg List.length hdigits
    rw [List.length_map, List.length_map] at hsame
    rw [hsame, hlength]
  have heven : (hexPart text).length % 2 = 0 := by
    rw [hpart]
    rfl
  obtain ⟨out, hout, hspelled⟩ := decodePairs_of_digits hdigits heven (prefixLength text)
  rw [fromStr_of_length hpart, hout, ok_bind]
  refine congrArg Except.ok (toNat_injective ?_)
  calc
    fromBigEndian out.1 = spelled 256 0 out.1 := rfl
    _ = spelled 16 0 nibbles := hspelled 0
    _ = id.toNat := hvalue.symm

theorem fromStr_of_bad {i : Nat} (hpart : (hexPart text).length = novaIdLength * 2)
    (hbad : (hexPart text).findIdx? (fun byte => (decodeNibble byte).isNone) = some i) :
    fromStr text = .error (invalidHex (prefixLength text + i)) := by
  have heven : (hexPart text).length % 2 = 0 := by
    rw [hpart]
    rfl
  rw [fromStr_of_length hpart, decodePairs_of_bad hbad heven, error_bind]

theorem spells_of_fromStr (h : fromStr text = .ok id) : Spells (hexPart text) id := by
  by_cases hpart : (hexPart text).length = novaIdLength * 2
  · cases hbad : (hexPart text).findIdx? (fun byte => (decodeNibble byte).isNone) with
    | some i => cases (fromStr_of_bad hpart hbad).symm.trans h
    | none =>
        obtain ⟨nibbles, hdigits⟩ := exists_nibbles hbad
        have hlength : nibbles.length = novaIdLength * 2 := by
          have hsame := congrArg List.length hdigits
          rw [List.length_map, List.length_map] at hsame
          rw [← hsame, hpart]
        have heven : (hexPart text).length % 2 = 0 := by
          rw [hpart]
          rfl
        obtain ⟨out, hout, hspelled⟩ := decodePairs_of_digits hdigits heven (prefixLength text)
        rw [fromStr_of_length hpart, hout, ok_bind] at h
        obtain rfl := Except.ok.inj h
        exact ⟨nibbles, hdigits, hlength, hspelled 0⟩
  · rw [fromStr, dif_neg hpart] at h
    cases h

end Reading

section Writing

theorem utf8_ofList (characters : List Char) :
    utf8 (String.ofList characters) = characters.flatMap String.utf8EncodeChar := by
  simp [utf8, List.utf8Encode]

/-- Each byte is written as its two digits. -/
theorem map_utf8_encodeHex (bytes : Bytes) :
    (utf8 (encodeHex bytes)).map decodeNibble =
      (bytes.flatMap fun byte : UInt8 => [byte >>> 4, byte &&& 0x0f]).map some := by
  have hall : ∀ n : Fin 256,
      ((String.utf8EncodeChar (hexChar (UInt8.ofNat n >>> 4)) ++
        String.utf8EncodeChar (hexChar (UInt8.ofNat n &&& 0x0f))).map decodeNibble) =
          [some (UInt8.ofNat n >>> 4), some (UInt8.ofNat n &&& 0x0f)] := by
    decide +kernel
  induction bytes with
  | nil => rfl
  | cons byte rest ih =>
      have hbyte := hall ⟨byte.toNat, byte.toNat_lt⟩
      rw [UInt8.ofNat_toNat] at hbyte
      calc
        _ = ((String.utf8EncodeChar (hexChar (byte >>> 4)) ++
              String.utf8EncodeChar (hexChar (byte &&& 0x0f))).map decodeNibble) ++
            (utf8 (encodeHex rest)).map decodeNibble := by
          simp only [encodeHex, utf8_ofList, List.flatMap_cons, List.cons_append, List.nil_append,
            List.map_append, List.append_assoc]
        _ = _ := by
          rw [hbyte, ih]
          rfl

theorem spelled_nibbles (value : Nat) (bytes : Bytes) :
    spelled 16 value (bytes.flatMap fun byte : UInt8 => [byte >>> 4, byte &&& 0x0f]) =
      spelled 256 value bytes := by
  induction bytes generalizing value with
  | nil => rfl
  | cons byte rest ih =>
      have hall : ∀ n : Fin 256, (UInt8.ofNat n >>> 4).toNat * 16 + (UInt8.ofNat n &&& 0x0f).toNat =
          n.val := by
        decide +kernel
      have hbyte := hall ⟨byte.toNat, byte.toNat_lt⟩
      simp only [UInt8.ofNat_toNat] at hbyte
      have hvalue : (value * 16 + (byte >>> 4).toNat) * 16 + (byte &&& 0x0f).toNat =
          value * 256 + byte.toNat := by
        rw [← hbyte]
        ring
      calc
        _ = spelled 16 ((value * 16 + (byte >>> 4).toNat) * 16 + (byte &&& 0x0f).toNat)
            (rest.flatMap fun byte : UInt8 => [byte >>> 4, byte &&& 0x0f]) := rfl
        _ = spelled 256 (value * 256 + byte.toNat) rest := by rw [hvalue, ih]
        _ = _ := rfl

theorem spells_toHex (id : NovaId) : Spells (utf8 id.toHex) id := by
  refine ⟨_, map_utf8_encodeHex id.bytes, ?_, ?_⟩
  · simp [List.length_flatMap, id.length_eq, novaIdLength]
  · rw [spelled_nibbles]
    rfl

/-- No digit starts the prefix. -/
theorem prefixLength_toHex (id : NovaId) : prefixLength id.toHex = 0 := by
  rw [prefixLength, if_neg]
  intro hprefix
  obtain ⟨rest, hrest⟩ := List.isPrefixOf_iff_prefix.mp hprefix
  have hdigits := map_utf8_encodeHex id.bytes
  rw [toHex] at hrest
  rw [← hrest] at hdigits
  have hfirst := congrArg List.head? hdigits
  have hnone : decodeNibble 0x6e = none := by decide
  have hutf8 : utf8 novaIdPrefix = 0x6e :: [0x6f, 0x76, 0x61, 0x5f] := by decide
  rw [hutf8, List.cons_append, List.map_cons, hnone, List.head?_cons, List.head?_map] at hfirst
  simp at hfirst

theorem fromStr_toHex (id : NovaId) : fromStr id.toHex = .ok id := by
  apply fromStr_of_spells
  rw [hexPart, prefixLength_toHex, List.drop_zero]
  exact spells_toHex id

/-- The text of an identifier is the prefix and its digits. -/
theorem display_eq (id : NovaId) : id.display = novaIdPrefix ++ id.toHex := by
  have hall : ∀ n : Fin 256, hexDigit (n.val / 16) ++ hexDigit (n.val % 16) =
      String.ofList [hexChar (UInt8.ofNat n >>> 4), hexChar (UInt8.ofNat n &&& 0x0f)] := by
    decide +kernel
  have hdigits : ∀ bytes : Bytes, String.join (bytes.map fun byte =>
      hexDigit (byte.toNat / 16) ++ hexDigit (byte.toNat % 16)) = encodeHex bytes := by
    intro bytes
    induction bytes with
    | nil => rfl
    | cons byte rest ih =>
        have hbyte := hall ⟨byte.toNat, byte.toNat_lt⟩
        rw [UInt8.ofNat_toNat] at hbyte
        rw [List.map_cons, String.join_cons, ih, hbyte, encodeHex, encodeHex, List.flatMap_cons,
          String.ofList_append]
  rw [display, hdigits]
  rfl

theorem fromStr_display (id : NovaId) : fromStr id.display = .ok id := by
  apply fromStr_of_spells
  have hutf8 : utf8 id.display = utf8 novaIdPrefix ++ utf8 id.toHex := by
    rw [display_eq]
    simp [utf8]
  have hprefix : prefixLength id.display = (utf8 novaIdPrefix).length := by
    rw [prefixLength, if_pos]
    rw [hutf8, List.isPrefixOf_iff_prefix]
    exact List.prefix_append _ _
  rw [hexPart, hprefix, hutf8, List.drop_left]
  exact spells_toHex id

end Writing

section Parts

/-- Eight bytes are read into a word without overflow. -/
theorem toNat_foldl_bytes (bytes : Bytes) (h : bytes.length ≤ 8) :
    (bytes.foldl (fun ts byte => ts <<< 8 ||| byte.toUInt64) 0 : UInt64).toNat =
      fromBigEndian bytes := by
  induction bytes using List.reverseRecOn with
  | nil => rfl
  | append_singleton bytes byte ih =>
      rw [List.length_append, List.length_singleton] at h
      have hvalue := ih (by omega)
      rw [List.foldl_append, List.foldl_cons, List.foldl_nil, fromBigEndian_concat, ← hvalue]
      have hsmall : (bytes.foldl (fun ts byte => ts <<< 8 ||| byte.toUInt64) 0 : UInt64).toNat <
          256 ^ 7 := by
        rw [hvalue]
        exact (fromBigEndian_lt bytes).trans_le (Nat.pow_le_pow_right (by decide) (by omega))
      have hbyte : byte.toNat < 2 ^ 8 := byte.toNat_lt
      rw [UInt64.toNat_or, UInt64.toNat_shiftLeft, UInt8.toNat_toUInt64]
      have hshift : (8 : UInt64).toNat % 64 = 8 := rfl
      rw [hshift, Nat.mod_eq_of_lt, ← Nat.shiftLeft_add_eq_or_of_lt hbyte, Nat.shiftLeft_eq]
      rw [Nat.shiftLeft_eq]
      omega

theorem timestampMs_toNat (id : NovaId) :
    id.timestampMs.toNat = fromBigEndian (id.bytes.take 8) :=
  toNat_foldl_bytes _ (List.length_take_le ..)

theorem timestampMs_new (epochMillis : UInt64) (random : RandomHalf) :
    (new epochMillis random).timestampMs = epochMillis := by
  have hwidth : epochMillis.toNat < 256 ^ 8 := epochMillis.toNat_lt
  have htake : (new epochMillis random).bytes.take 8 = toBigEndian 8 epochMillis.toNat :=
    List.take_left' (length_toBigEndian 8 _)
  rw [← UInt64.toNat_inj, timestampMs_toNat, htake, fromBigEndian_toBigEndian hwidth]

theorem randomHalf_new (epochMillis : UInt64) (random : RandomHalf) :
    (new epochMillis random).randomHalf = random :=
  Subtype.ext (List.drop_left' (length_toBigEndian 8 _))

theorem new_parts (id : NovaId) : new id.timestampMs id.randomHalf = id := by
  have hlength : (id.bytes.take 8).length = 8 := by
    simp [id.length_eq, novaIdLength]
  have hfront : toBigEndian 8 id.timestampMs.toNat = id.bytes.take 8 := by
    rw [timestampMs_toNat]
    calc
      _ = toBigEndian (id.bytes.take 8).length (fromBigEndian (id.bytes.take 8)) := by rw [hlength]
      _ = _ := toBigEndian_fromBigEndian _
  have hbytes : (new id.timestampMs id.randomHalf).bytes = id.bytes := by
    calc
      _ = toBigEndian 8 id.timestampMs.toNat ++ id.bytes.drop 8 := rfl
      _ = id.bytes := by rw [hfront, List.take_append_drop]
  exact toNat_injective (congrArg fromBigEndian hbytes)

theorem fromBigEndian_append (a b : Bytes) :
    fromBigEndian (a ++ b) = fromBigEndian a * 256 ^ b.length + fromBigEndian b := by
  induction b using List.reverseRecOn with
  | nil => simp
  | append_singleton b byte ih =>
      rw [← List.append_assoc, fromBigEndian_concat, ih, fromBigEndian_concat, List.length_append,
        List.length_singleton, pow_succ]
      ring

/-- Identifiers are ordered by their times, and then by their random halves. -/
theorem lt_iff (a b : NovaId) : a < b ↔ a.timestampMs < b.timestampMs ∨
    a.timestampMs = b.timestampMs ∧
      fromBigEndian a.randomHalf.1 < fromBigEndian b.randomHalf.1 := by
  have hvalue : ∀ id : NovaId, id.toNat = id.timestampMs.toNat * 18446744073709551616 +
      fromBigEndian id.randomHalf.1 := by
    intro id
    calc
      id.toNat = fromBigEndian (id.bytes.take 8 ++ id.bytes.drop 8) := by
        rw [List.take_append_drop]
        rfl
      _ = fromBigEndian (id.bytes.take 8) * 256 ^ id.randomHalf.1.length +
          fromBigEndian id.randomHalf.1 := fromBigEndian_append _ _
      _ = _ := by
        rw [timestampMs_toNat, id.randomHalf.2]
        rfl
  have hbound : ∀ id : NovaId, fromBigEndian id.randomHalf.1 < 18446744073709551616 := by
    intro id
    have hlt := fromBigEndian_lt id.randomHalf.1
    rw [id.randomHalf.2] at hlt
    exact hlt
  have hlt : a < b ↔ a.toNat < b.toNat := Iff.rfl
  rw [hlt, hvalue a, hvalue b, UInt64.lt_iff_toNat_lt, ← UInt64.toNat_inj]
  have ha := hbound a
  have hb := hbound b
  omega

end Parts

end NovaId

open NovaId in
/-- Identifiers are written and read back. A text is read as an identifier exactly if its bytes
behind the prefix, if it has one, are 32 hexadecimal digits of its number. One of another length is
refused with its length, and otherwise the error names the first byte that is no digit. The texts of
an identifier, with the prefix and without, are read as the identifier. It is its time and its
random half, and in this order identifiers are compared. -/
theorem identifiers_read_back :
    (∀ text id, fromStr text = .ok id ↔ Spells (hexPart text) id) ∧
    (∀ text, (hexPart text).length ≠ 32 → fromStr text = .error (.invalidArgument
      s!"nova id must be exactly 32 hex digits; got {(hexPart text).length}")) ∧
    (∀ text i, (hexPart text).length = 32 →
      (hexPart text).findIdx? (fun byte => (decodeNibble byte).isNone) = some i →
        fromStr text = .error (invalidHex (prefixLength text + i))) ∧
    (∀ id : NovaId, fromStr id.display = .ok id ∧ fromStr id.toHex = .ok id) ∧
    (∀ epochMillis random, (new epochMillis random).timestampMs = epochMillis ∧
      (new epochMillis random).randomHalf = random) ∧
    (∀ id : NovaId, new id.timestampMs id.randomHalf = id) ∧
    ∀ a b : NovaId, a < b ↔ a.timestampMs < b.timestampMs ∨ a.timestampMs = b.timestampMs ∧
      fromBigEndian a.randomHalf.1 < fromBigEndian b.randomHalf.1 := by
  refine ⟨fun text id => ⟨spells_of_fromStr, fromStr_of_spells⟩,
    fun text hlength => dif_neg hlength,
    fun text i hlength hbad => fromStr_of_bad hlength hbad,
    fun id => ⟨fromStr_display id, fromStr_toHex id⟩,
    fun epochMillis random => ⟨timestampMs_new epochMillis random,
      randomHalf_new epochMillis random⟩,
    new_parts, lt_iff⟩

end NovaBase
