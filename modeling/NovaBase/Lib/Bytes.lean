import Mathlib.Data.List.Basic
import Mathlib.Data.List.Induction
import Mathlib.Tactic.Ring
import Mathlib.Tactic.Linarith

/-!
# Byte strings

Big-endian integers of a fixed width, the bytes of a text, slices of a buffer, and
overwriting part of a buffer in place. Buffers are lists of bytes; a slice that leaves the
buffer is cut at its end, so callers check lengths first, as a bounds-checked
language would.
-/

namespace NovaBase.Lib

/-- A byte string. -/
abbrev Bytes := List UInt8

namespace Bytes

/-- The `width` low-order bytes of `n`, most significant byte first. -/
def toBigEndian : Nat → Nat → Bytes
  | 0, _ => []
  | width + 1, n => toBigEndian width (n / 256) ++ [UInt8.ofNat n]

/-- The number whose big-endian digits are the given bytes. -/
def fromBigEndian (bytes : Bytes) : Nat :=
  bytes.foldl (fun n byte => n * 256 + byte.toNat) 0

/-- The half-open range `bytes[start..stop]`. -/
def slice (bytes : Bytes) (start stop : Nat) : Bytes :=
  (bytes.take stop).drop start

/-- The buffer after `data` has been copied over the bytes from `offset` on. -/
def splice (bytes : Bytes) (offset : Nat) (data : Bytes) : Bytes :=
  bytes.take offset ++ (data ++ bytes.drop (offset + data.length))

/-- The UTF-8 bytes of a string. -/
def utf8 (text : String) : Bytes := text.toUTF8.data.toList

/-- One lower-case hexadecimal digit. -/
def hexDigit (n : Nat) : String := String.singleton (Nat.digitChar n)

/-- Text is read back from its bytes. -/
theorem fromUTF8_utf8 (text : String) : String.fromUTF8? ⟨(utf8 text).toArray⟩ = some text := by
  have hbytes : (⟨(utf8 text).toArray⟩ : ByteArray) = text.toByteArray := by
    simp [utf8]
  rw [hbytes, String.fromUTF8?, dif_pos text.isValidUTF8]
  rfl

theorem utf8_of_fromUTF8 {bytes : Bytes} {text : String}
    (h : String.fromUTF8? ⟨bytes.toArray⟩ = some text) : utf8 text = bytes := by
  rw [String.fromUTF8?] at h
  split at h
  · obtain rfl := Option.some.inj h
    rfl
  · simp at h

@[simp] theorem length_toBigEndian (width n : Nat) : (toBigEndian width n).length = width := by
  induction width generalizing n with
  | zero => rfl
  | succ width ih => simp [toBigEndian, ih]

@[simp] theorem fromBigEndian_nil : fromBigEndian [] = 0 := rfl

theorem fromBigEndian_concat (bytes : Bytes) (byte : UInt8) :
    fromBigEndian (bytes ++ [byte]) = fromBigEndian bytes * 256 + byte.toNat := by
  simp [fromBigEndian]

theorem fromBigEndian_toBigEndian {width n : Nat} (h : n < 256 ^ width) :
    fromBigEndian (toBigEndian width n) = n := by
  induction width generalizing n with
  | zero => simp [toBigEndian]; omega
  | succ width ih =>
      have hdiv : n / 256 < 256 ^ width := by
        rw [Nat.div_lt_iff_lt_mul (by decide)]
        simpa [pow_succ] using h
      rw [toBigEndian, fromBigEndian_concat, ih hdiv]
      simp only [UInt8.toNat_ofNat']
      omega

theorem fromBigEndian_lt (bytes : Bytes) : fromBigEndian bytes < 256 ^ bytes.length := by
  induction bytes using List.reverseRecOn with
  | nil => simp
  | append_singleton bytes byte ih =>
      have hbyte : byte.toNat < 256 := byte.toNat_lt
      rw [fromBigEndian_concat, List.length_append, List.length_singleton, pow_succ]
      omega

theorem toBigEndian_fromBigEndian (bytes : Bytes) :
    toBigEndian bytes.length (fromBigEndian bytes) = bytes := by
  induction bytes using List.reverseRecOn with
  | nil => rfl
  | append_singleton bytes byte ih =>
      have hbyte : byte.toNat < 256 := byte.toNat_lt
      have hdiv : (fromBigEndian bytes * 256 + byte.toNat) / 256 = fromBigEndian bytes := by omega
      have hlow : UInt8.ofNat (fromBigEndian bytes * 256 + byte.toNat) = byte := by
        apply UInt8.toNat_inj.mp
        simp only [UInt8.toNat_ofNat']
        omega
      rw [List.length_append, List.length_singleton, toBigEndian, fromBigEndian_concat, hdiv, ih,
        hlow]

/-- Big-endian strings of one width are determined by the number they spell. -/
theorem fromBigEndian_injective {a b : Bytes} (hlen : a.length = b.length)
    (h : fromBigEndian a = fromBigEndian b) : a = b := by
  rw [← toBigEndian_fromBigEndian a, ← toBigEndian_fromBigEndian b, hlen, h]

theorem length_slice (bytes : Bytes) (start stop : Nat) :
    (slice bytes start stop).length = min stop bytes.length - start := by
  simp [slice]

theorem slice_append_left {a : Bytes} (b : Bytes) {start stop : Nat} (h : stop ≤ a.length) :
    slice (a ++ b) start stop = slice a start stop := by
  simp [slice, List.take_append_of_le_length h]

theorem slice_append_right (a b : Bytes) {start stop : Nat} (h : a.length ≤ start) :
    slice (a ++ b) start stop = slice b (start - a.length) (stop - a.length) := by
  simp only [slice, List.take_append, List.drop_append]
  rw [List.drop_eq_nil_of_le (by simp only [List.length_take]; omega), List.nil_append,
    List.length_take]
  rcases Nat.le_total stop a.length with hs | hs
  · simp [Nat.sub_eq_zero_of_le hs]
  · rw [min_eq_right hs]

/-- A slice that starts with the buffer is a prefix. -/
theorem slice_zero (bytes : Bytes) (stop : Nat) : slice bytes 0 stop = bytes.take stop := rfl

theorem slice_self {bytes : Bytes} {stop : Nat} (h : bytes.length ≤ stop) :
    slice bytes 0 stop = bytes := by
  rw [slice_zero, List.take_of_length_le h]

/-- Reading back the middle of a concatenation. -/
theorem slice_middle (a b c : Bytes) {start stop : Nat} (hstart : start = a.length)
    (hstop : stop = a.length + b.length) : slice (a ++ (b ++ c)) start stop = b := by
  subst hstart hstop
  rw [slice_append_right _ _ le_rfl, Nat.sub_self, Nat.add_sub_cancel_left,
    slice_append_left _ le_rfl, slice_self le_rfl]

theorem getElem?_slice (bytes : Bytes) (start stop i : Nat) :
    (slice bytes start stop)[i]? = if start + i < stop then bytes[start + i]? else none := by
  simp [slice, List.getElem?_drop, List.getElem?_take]

/-- Neighbouring slices join. -/
theorem slice_append_slice (bytes : Bytes) {start middle stop : Nat} (hstart : start ≤ middle)
    (hstop : middle ≤ stop) :
    slice bytes start middle ++ slice bytes middle stop = slice bytes start stop := by
  have hsplit := List.take_append_drop (middle - start) (slice bytes start stop)
  have hfront : (slice bytes start stop).take (middle - start) = slice bytes start middle := by
    rw [slice, slice, List.take_drop, List.take_take]
    congr 2
    omega
  have hback : (slice bytes start stop).drop (middle - start) = slice bytes middle stop := by
    rw [slice, slice, List.drop_drop]
    congr 1
    omega
  rwa [hfront, hback] at hsplit

/-- A slice that is a concatenation splits where its parts meet. -/
theorem slice_eq_append {bytes a b : Bytes} {start middle stop : Nat}
    (h : slice bytes start stop = a ++ b) (hmiddle : start + a.length = middle)
    (hle : middle ≤ stop) : slice bytes start middle = a ∧ slice bytes middle stop = b := by
  have hsplit (i : Nat) : (slice bytes start stop)[i]? = (a ++ b)[i]? := by rw [h]
  simp only [getElem?_slice] at hsplit
  constructor <;> apply List.ext_getElem? <;> intro i <;> rw [getElem?_slice]
  · have hi := hsplit i
    by_cases hlt : i < a.length
    · rw [List.getElem?_append_left hlt, if_pos (by omega)] at hi
      rw [if_pos (by omega), hi]
    · rw [if_neg (by omega), List.getElem?_eq_none (by omega)]
  · have hi := hsplit (a.length + i)
    rw [List.getElem?_append_right (by omega), Nat.add_sub_cancel_left, ← Nat.add_assoc,
      hmiddle] at hi
    exact hi

/-- Changing a byte outside a range leaves the range as it was. -/
theorem slice_set_of_not_mem (bytes : Bytes) (value : UInt8) {start stop i : Nat}
    (h : i < start ∨ stop ≤ i) : slice (bytes.set i value) start stop = slice bytes start stop := by
  apply List.ext_getElem?
  intro j
  simp only [getElem?_slice]
  split
  · rw [List.getElem?_set_ne (by omega)]
  · rfl

/-- Changing a byte inside a range changes it in the slice. -/
theorem slice_set_of_mem (bytes : Bytes) (value : UInt8) {start stop i : Nat}
    (hstart : start ≤ i) (hstop : i < stop) :
    slice (bytes.set i value) start stop = (slice bytes start stop).set (i - start) value := by
  apply List.ext_getElem?
  intro j
  rw [getElem?_slice, List.getElem?_set, List.getElem?_set, length_slice, getElem?_slice]
  by_cases hij : i = start + j
  · subst hij
    by_cases hlt : start + j < bytes.length
    · rw [if_pos hstop, if_pos rfl, if_pos hlt, if_pos (by omega), if_pos (by omega)]
    · rw [if_pos hstop, if_pos rfl, if_neg hlt, if_pos (by omega), if_neg (by omega)]
  · have hshift : ¬i - start = j := by omega
    rw [if_neg hij, if_neg hshift]

theorem slice_take (bytes : Bytes) {start stop count : Nat} (h : stop ≤ count) :
    slice (bytes.take count) start stop = slice bytes start stop := by
  rw [slice, slice, List.take_take, min_eq_left h]

theorem length_splice {bytes : Bytes} {offset : Nat} {data : Bytes}
    (h : offset + data.length ≤ bytes.length) :
    (splice bytes offset data).length = bytes.length := by
  simp only [splice, List.length_append, List.length_take, List.length_drop]
  omega

/-- Copying over one part of a buffer leaves the parts beside it as they were. -/
theorem slice_splice_of_not_mem {bytes data : Bytes} {offset start stop : Nat}
    (hinside : offset + data.length ≤ bytes.length)
    (h : stop ≤ offset ∨ offset + data.length ≤ start) :
    slice (splice bytes offset data) start stop = slice bytes start stop := by
  have hfront : (bytes.take offset).length = offset := by
    rw [List.length_take]
    omega
  apply List.ext_getElem?
  intro i
  simp only [getElem?_slice]
  split
  · rename_i hstop
    rw [splice]
    rcases h with hbefore | hafter
    · rw [List.getElem?_append_left (by omega), List.getElem?_take_of_lt (by omega)]
    · rw [List.getElem?_append_right (by omega), List.getElem?_append_right (by omega),
        List.getElem?_drop, hfront]
      congr 1
      omega
  · rfl

/-- What has been copied over a part of a buffer is read there. -/
theorem slice_splice {bytes data : Bytes} {offset : Nat}
    (hinside : offset + data.length ≤ bytes.length) :
    slice (splice bytes offset data) offset (offset + data.length) = data := by
  have hfront : (bytes.take offset).length = offset := by
    rw [List.length_take]
    omega
  exact slice_middle _ _ _ hfront.symm (by rw [hfront])

/-- Copying over exactly the middle of a concatenation. -/
theorem splice_middle (a b c data : Bytes) {offset : Nat} (hoffset : offset = a.length)
    (hlen : data.length = b.length) : splice (a ++ (b ++ c)) offset data = a ++ (data ++ c) := by
  subst hoffset
  have hdrop : (a ++ (b ++ c)).drop (a.length + b.length) = c := by
    rw [← List.append_assoc, ← List.length_append, List.drop_left]
  rw [splice, List.take_left, hlen, hdrop]

/-- Writing a field into zeroed bytes, `skip` bytes after the part already filled in. -/
theorem splice_zeros (front data rest : Bytes) (n skip : Nat) {offset : Nat}
    (hoffset : offset = front.length + skip) (hlen : skip + data.length ≤ n) :
    splice (front ++ (List.replicate n 0 ++ rest)) offset data =
      (front ++ (List.replicate skip 0 ++ data)) ++
        (List.replicate (n - (skip + data.length)) 0 ++ rest) := by
  have hsplit : List.replicate n (0 : UInt8) = List.replicate skip 0 ++
      (List.replicate data.length 0 ++ List.replicate (n - (skip + data.length)) 0) := by
    rw [← List.replicate_add, ← List.replicate_add]
    congr 1
    omega
  have hmiddle : splice ((front ++ List.replicate skip 0) ++ (List.replicate data.length 0 ++
      (List.replicate (n - (skip + data.length)) 0 ++ rest))) offset data =
      (front ++ List.replicate skip 0) ++
        (data ++ (List.replicate (n - (skip + data.length)) 0 ++ rest)) :=
    splice_middle _ _ _ _ (by simpa using hoffset) (by simp)
  rw [hsplit]
  simpa only [List.append_assoc] using hmiddle

end Bytes

end NovaBase.Lib
