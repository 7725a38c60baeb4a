import NovaBase.Lib.Bytes
import NovaBase.Core.Error

/-!
# Variable-length integers

Seven bits a byte, lowest group first, with the high bit of a byte saying that
more bytes follow. The reader refuses an encoding that is not minimal.
-/

namespace NovaBase.Nbf

open Lib

/-- No number takes more bytes than these. -/
def maxVarintBytes : Nat := 10

/-- The rounds of the writer's loop. Ten of them use up any 64-bit value. -/
def writeVarintRounds : Nat → UInt64 → Bytes
  | 0, _ => []
  | rounds + 1, value =>
      if 0x80 ≤ value then
        ((value.toUInt8 &&& 0x7f) ||| 0x80) :: writeVarintRounds rounds (value >>> 7)
      else [value.toUInt8]

/-- A number in groups of seven bits, the lowest first. -/
def writeVarint (value : UInt64) : Bytes := writeVarintRounds maxVarintBytes value

/-- The rounds of the reader's loop that are left at `index`. -/
def readVarintRounds : Nat → Nat → UInt64 → Bytes → Result (UInt64 × Nat)
  | 0, _, _, _ => corruption "varint exceeds 10 bytes"
  | _ + 1, _, _, [] => corruption "truncated varint"
  | rounds + 1, index, value, byte :: rest =>
      let payload := (byte &&& 0x7f).toUInt64
      if index = maxVarintBytes - 1 ∧ 1 < payload then corruption "varint overflows u64"
      else
        let value := value ||| (payload <<< UInt64.ofNat (index * 7))
        if byte &&& 0x80 = 0 then
          if 0 < index ∧ payload = 0 then corruption "non-minimal varint"
          else .ok (value, index + 1)
        else readVarintRounds rounds (index + 1) value rest

/-- The value at the start of the input, and the number of bytes it takes. -/
def readVarint (input : Bytes) : Result (UInt64 × Nat) :=
  readVarintRounds maxVarintBytes 0 0 input

theorem continued_payload (b : UInt8) : ((b &&& 0x7f) ||| 0x80) &&& 0x7f = b &&& 0x7f := by
  have h : ∀ w : BitVec 8, ((w &&& 0x7f#8) ||| 0x80#8) &&& 0x7f#8 = w &&& 0x7f#8 := by
    decide +kernel
  exact UInt8.eq_of_toBitVec_eq (h b.toBitVec)

theorem continued_flag (b : UInt8) : ((b &&& 0x7f) ||| 0x80) &&& 0x80 ≠ 0 := by
  have h : ∀ w : BitVec 8, ((w &&& 0x7f#8) ||| 0x80#8) &&& 0x80#8 ≠ 0#8 := by
    decide +kernel
  exact fun hb => h b.toBitVec (congrArg UInt8.toBitVec hb)

theorem last_flag {v : UInt64} (hv : v.toNat < 0x80) : v.toUInt8 &&& 0x80 = 0 := by
  have h : ∀ w : BitVec 8, w < 0x80#8 → w &&& 0x80#8 = 0#8 := by
    decide +kernel
  apply UInt8.eq_of_toBitVec_eq
  apply h
  rw [BitVec.lt_def, UInt8.toNat_toBitVec, UInt64.toNat_toUInt8]
  exact lt_of_le_of_lt (Nat.mod_le _ _) hv

theorem payload_toNat (v : UInt64) : (v.toUInt8 &&& 0x7f).toUInt64.toNat = v.toNat % 128 := by
  have hmask : (0x7f : UInt8).toNat = 2 ^ 7 - 1 := rfl
  rw [UInt8.toNat_toUInt64, UInt8.toNat_and, UInt64.toNat_toUInt8, hmask,
    Nat.and_two_pow_sub_one_eq_mod]
  omega

theorem shift_toNat (v : UInt64) : (v >>> 7).toNat = v.toNat / 128 := by
  rw [UInt64.toNat_shiftRight]
  exact Nat.shiftRight_eq_div_pow _ 7

/-- Adding the next group of bits above those already read. -/
theorem accumulate_toNat {value payload : UInt64} {index : Nat} (hindex : index ≤ 9)
    (hvalue : value.toNat < 2 ^ (index * 7)) (hfits : payload.toNat * 2 ^ (index * 7) < 2 ^ 64) :
    (value ||| (payload <<< UInt64.ofNat (index * 7))).toNat =
      value.toNat + payload.toNat * 2 ^ (index * 7) := by
  have hshift : (UInt64.ofNat (index * 7)).toNat % 64 = index * 7 := by
    rw [UInt64.toNat_ofNat']
    omega
  rw [UInt64.toNat_or, UInt64.toNat_shiftLeft, hshift, Nat.shiftLeft_eq,
    Nat.mod_eq_of_lt hfits, ← Nat.shiftLeft_eq, Nat.or_comm, ← Nat.shiftLeft_add_eq_or_of_lt hvalue,
    Nat.add_comm]

/-- A group of seven bits above what was read before it. -/
theorem group_lt {low payload weight : Nat} (hlow : low < weight) (hpayload : payload < 128) :
    low + payload * weight < 128 * weight := by
  have hmul : (payload + 1) * weight ≤ 128 * weight := Nat.mul_le_mul_right weight hpayload
  rw [Nat.succ_mul] at hmul
  omega

theorem byte_payload_lt (b : UInt8) : (b &&& 0x7f).toNat < 128 := by
  have h : ∀ w : BitVec 8, (w &&& 0x7f#8).toNat < 128 := by decide +kernel
  exact h b.toBitVec

/-- The last round has room for a single bit. -/
def Overflows (index : Nat) (payload : UInt64) : Prop :=
  index = maxVarintBytes - 1 ∧ 1 < payload

/-- A payload that does not overflow in its round can be shifted to its place. -/
theorem groups_fit {index : Nat} {byte : UInt8} (hround : index < maxVarintBytes)
    (hfits : ¬Overflows index (byte &&& 0x7f).toUInt64) :
    (byte &&& 0x7f).toUInt64.toNat * 2 ^ (index * 7) < 2 ^ 64 := by
  have hpayload : (byte &&& 0x7f).toUInt64.toNat = (byte &&& 0x7f).toNat :=
    UInt8.toNat_toUInt64 _
  have hsmall := byte_payload_lt byte
  unfold maxVarintBytes at hround
  by_cases hlast : index = 9
  · have hone : (byte &&& 0x7f).toUInt64.toNat ≤ 1 := by
      by_contra hlt
      exact hfits ⟨hlast, UInt64.lt_iff_toNat_lt.mpr (not_le.mp hlt)⟩
    subst hlast
    omega
  · calc (byte &&& 0x7f).toUInt64.toNat * 2 ^ (index * 7)
        ≤ 127 * 2 ^ (8 * 7) :=
          Nat.mul_le_mul (by omega) (Nat.pow_le_pow_right (by decide) (by omega))
      _ < 2 ^ 64 := by decide

/-- The low bits of what fits at a place fit there, and do not overflow in the last round. -/
theorem low_bits_fit {high : UInt64} {index : Nat}
    (hbound : high.toNat * 2 ^ (index * 7) < 2 ^ 64) :
    (high.toUInt8 &&& 0x7f).toUInt64.toNat * 2 ^ (index * 7) < 2 ^ 64 ∧
      ¬(index = maxVarintBytes - 1 ∧ 1 < (high.toUInt8 &&& 0x7f).toUInt64) := by
  rw [UInt64.lt_iff_toNat_lt, payload_toNat]
  refine ⟨(Nat.mul_le_mul_right _ (Nat.mod_le _ _)).trans_lt hbound, ?_⟩
  rintro ⟨rfl, hlt⟩
  have hone : (1 : UInt64).toNat = 1 := rfl
  simp only [maxVarintBytes] at hbound
  omega

theorem pos_of_ne_zero {value : UInt64} (h : value ≠ 0) : 0 < value.toNat := by
  refine Nat.pos_of_ne_zero fun hzero => h (UInt64.toNat_inj.mp ?_)
  rw [hzero]
  rfl

theorem ne_zero_of_pos {value : UInt64} (h : 0 < value.toNat) : value ≠ 0 := by
  rintro rfl
  exact absurd h (by decide)

/-- The reader, part of the way through, takes back what the writer has still to write. -/
theorem readVarintRounds_writeVarintRounds (rest : Bytes) {rounds index : Nat}
    (hrounds : rounds + index = maxVarintBytes) (hpos : 0 < rounds) {low high value : UInt64}
    (hlow : low.toNat < 2 ^ (index * 7)) (hhigh : 0 < index → high ≠ 0)
    (hvalue : value.toNat = low.toNat + high.toNat * 2 ^ (index * 7)) :
    readVarintRounds rounds index low (writeVarintRounds rounds high ++ rest) =
      .ok (value, index + (writeVarintRounds rounds high).length) := by
  induction rounds generalizing index low high with
  | zero => omega
  | succ rounds ih =>
      have hindex : index ≤ 9 := by
        unfold maxVarintBytes at hrounds
        omega
      have hbound : high.toNat * 2 ^ (index * 7) < 2 ^ 64 := by
        have hlt := value.toNat_lt
        omega
      obtain ⟨hpayload, hoverflow⟩ := low_bits_fit hbound
      have hnext := accumulate_toNat hindex hlow hpayload
      rw [payload_toNat] at hnext
      by_cases hmore : 0x80 ≤ high
      case pos =>
        have hlarge : 128 ≤ high.toNat := UInt64.le_iff_toNat_le.mp hmore
        have hnotlast : index ≠ 9 := by
          rintro rfl
          omega
        unfold maxVarintBytes at hrounds
        have hpow : 2 ^ ((index + 1) * 7) = 128 * 2 ^ (index * 7) := by ring
        rw [writeVarintRounds, if_pos hmore, List.cons_append, readVarintRounds,
          continued_payload, if_neg hoverflow]
        simp only [continued_flag, if_false]
        rw [ih (by unfold maxVarintBytes; omega) (by omega) ?_ ?_ ?_]
        · simp only [List.length_cons]
          congr 2
          omega
        · rw [hnext, hpow]
          exact group_lt hlow (Nat.mod_lt _ (by decide))
        · intro _
          apply ne_zero_of_pos
          rw [shift_toNat]
          omega
        · have hsplit : high.toNat = high.toNat / 128 * 128 + high.toNat % 128 :=
            (Nat.div_add_mod' _ _).symm
          rw [hnext, hpow, shift_toNat, hvalue]
          nth_rewrite 1 [hsplit]
          ring
      case neg =>
        have hsmall : high.toNat < 128 := by
          rw [UInt64.le_iff_toNat_le] at hmore
          exact not_le.mp hmore
        have hminimal : ¬(0 < index ∧ (high.toUInt8 &&& 0x7f).toUInt64 = 0) := by
          rintro ⟨hindex, hzero⟩
          have hpos := pos_of_ne_zero (hhigh hindex)
          rw [← Nat.mod_eq_of_lt hsmall, ← payload_toNat, hzero] at hpos
          exact absurd hpos (by decide)
        have hresult : (low ||| ((high.toUInt8 &&& 0x7f).toUInt64 <<<
            UInt64.ofNat (index * 7))) = value := by
          apply UInt64.toNat_inj.mp
          rw [hnext, hvalue, Nat.mod_eq_of_lt hsmall]
        rw [writeVarintRounds, if_neg hmore, List.cons_append, readVarintRounds,
          if_neg hoverflow]
        simp only [last_flag hsmall, if_true, if_neg hminimal, hresult, List.length_singleton]

theorem readVarint_writeVarint (value : UInt64) (rest : Bytes) :
    readVarint (writeVarint value ++ rest) = .ok (value, (writeVarint value).length) := by
  have h : readVarintRounds maxVarintBytes 0 0 (writeVarintRounds maxVarintBytes value ++ rest) =
      .ok (value, 0 + (writeVarintRounds maxVarintBytes value).length) :=
    readVarintRounds_writeVarintRounds rest rfl (by decide) (by decide) (by simp) (by simp)
  rwa [Nat.zero_add] at h

example : writeVarint 300 = [0xac, 0x02] := by decide +kernel

theorem byte_last {b : UInt8} (hb : b &&& 0x80 = 0) : b &&& 0x7f = b := by
  have h : ∀ w : BitVec 8, w &&& 0x80#8 = 0#8 → w &&& 0x7f#8 = w := by decide +kernel
  exact UInt8.eq_of_toBitVec_eq (h b.toBitVec (congrArg UInt8.toBitVec hb))

theorem byte_continued {b : UInt8} (hb : b &&& 0x80 ≠ 0) : (b &&& 0x7f) ||| 0x80 = b := by
  have h : ∀ w : BitVec 8, w &&& 0x80#8 ≠ 0#8 → (w &&& 0x7f#8) ||| 0x80#8 = w := by
    decide +kernel
  exact UInt8.eq_of_toBitVec_eq
    (h b.toBitVec fun hzero => hb (UInt8.eq_of_toBitVec_eq hzero))

/-- A byte without the flag is written for its payload. -/
theorem writeVarintRounds_last {byte : UInt8} (hflag : byte &&& 0x80 = 0) (rounds : Nat) :
    writeVarintRounds (rounds + 1) (byte &&& 0x7f).toUInt64 = [byte] := by
  have hbyte : ¬0x80 ≤ (byte &&& 0x7f).toUInt64 := by
    rw [UInt64.le_iff_toNat_le, UInt8.toNat_toUInt64]
    exact not_le.mpr (byte_payload_lt byte)
  rw [writeVarintRounds, if_neg hbyte, byte_last hflag, UInt8.toUInt8_toUInt64]

/-- A byte with the flag is written first for its payload below a value that is not zero. -/
theorem writeVarintRounds_continued {byte : UInt8} {high above : UInt64}
    (hflag : byte &&& 0x80 ≠ 0) (habove : above ≠ 0)
    (hhigh : high.toNat = (byte &&& 0x7f).toNat + 128 * above.toNat) (rounds : Nat) :
    writeVarintRounds (rounds + 1) high = byte :: writeVarintRounds rounds above := by
  have hsmall := byte_payload_lt byte
  have hpos := pos_of_ne_zero habove
  have hlarge : 0x80 ≤ high := by
    rw [UInt64.le_iff_toNat_le, hhigh]
    have hone : (0x80 : UInt64).toNat = 128 := rfl
    omega
  have hshift : high >>> 7 = above := by
    apply UInt64.toNat_inj.mp
    rw [shift_toNat, hhigh]
    omega
  have hfirst : high.toUInt8 &&& 0x7f = byte &&& 0x7f := by
    have hpayload := payload_toNat high
    rw [UInt8.toNat_toUInt64] at hpayload
    apply UInt8.toNat_inj.mp
    rw [hpayload, hhigh]
    omega
  rw [writeVarintRounds, if_pos hlarge, hfirst, byte_continued hflag, hshift]

/-- A payload below another value fits into a word, if it does at a higher place. -/
theorem exists_high {low payload weight : Nat} {above value : UInt64} (hweight : 0 < weight)
    (hvalue : value.toNat = low + payload * weight + above.toNat * (128 * weight)) :
    ∃ high : UInt64, high.toNat = payload + 128 * above.toNat := by
  have htotal : payload + 128 * above.toNat < 2 ^ 64 := by
    calc payload + 128 * above.toNat
        ≤ (payload + 128 * above.toNat) * weight := Nat.le_mul_of_pos_right _ hweight
      _ = payload * weight + above.toNat * (128 * weight) := by ring
      _ ≤ value.toNat := by
          rw [hvalue, Nat.add_assoc]
          exact Nat.le_add_left _ _
      _ < 2 ^ 64 := value.toNat_lt
  exact ⟨UInt64.ofNat (payload + 128 * above.toNat), by
    rw [UInt64.toNat_ofNat', Nat.mod_eq_of_lt htotal]⟩

/-- What the reader accepts, part of the way through, is what the writer writes for the part of
the value that was not read before. -/
theorem writeVarintRounds_readVarintRounds {rounds index : Nat}
    (hrounds : rounds + index = maxVarintBytes) {low value : UInt64} {input : Bytes} {count : Nat}
    (hlow : low.toNat < 2 ^ (index * 7))
    (h : readVarintRounds rounds index low input = .ok (value, count)) :
    ∃ (high : UInt64) (rest : Bytes), input = writeVarintRounds rounds high ++ rest ∧
      count = index + (writeVarintRounds rounds high).length ∧ (0 < index → high ≠ 0) ∧
      value.toNat = low.toNat + high.toNat * 2 ^ (index * 7) := by
  induction rounds generalizing index low input with
  | zero => simp [readVarintRounds, corruption] at h
  | succ rounds ih =>
      cases input with
      | nil => simp [readVarintRounds, corruption] at h
      | cons byte rest =>
          have hround : index < maxVarintBytes := by omega
          have hindex : index ≤ 9 := Nat.le_of_lt_succ hround
          simp only [readVarintRounds] at h
          split at h
          · simp [corruption] at h
          rename_i hoverflow
          have hnext := accumulate_toNat hindex hlow (groups_fit hround hoverflow)
          rw [UInt8.toNat_toUInt64] at hnext
          split at h
          case isTrue hflag =>
            split at h
            · simp [corruption] at h
            rename_i hminimal
            obtain ⟨rfl, rfl⟩ := Prod.mk.inj (Except.ok.inj h)
            have hwritten := writeVarintRounds_last hflag rounds
            refine ⟨(byte &&& 0x7f).toUInt64, rest, by rw [hwritten]; rfl, by rw [hwritten]; rfl,
              fun hpos hzero => hminimal ⟨hpos, hzero⟩, ?_⟩
            rw [hnext, UInt8.toNat_toUInt64]
          case isFalse hflag =>
            have hpow : 2 ^ ((index + 1) * 7) = 128 * 2 ^ (index * 7) := by ring
            have hbound : (low ||| ((byte &&& 0x7f).toUInt64 <<<
                UInt64.ofNat (index * 7))).toNat < 2 ^ ((index + 1) * 7) := by
              rw [hnext, hpow]
              exact group_lt hlow (byte_payload_lt byte)
            obtain ⟨above, tail, hinput, hcount, habove, hvalue⟩ :=
              ih (by omega : rounds + (index + 1) = maxVarintBytes) hbound h
            have habove := habove (Nat.succ_pos _)
            have hpos := pos_of_ne_zero habove
            rw [hnext, hpow] at hvalue
            obtain ⟨high, hhigh⟩ := exists_high (Nat.two_pow_pos _) hvalue
            have hwritten := writeVarintRounds_continued hflag habove hhigh rounds
            refine ⟨high, tail, by rw [hwritten, hinput]; rfl, ?_,
              fun _ => ne_zero_of_pos (by omega), ?_⟩
            · rw [hwritten, hcount, List.length_cons]
              omega
            · rw [hvalue, hhigh]
              ring

/-- Whatever the reader accepts is what the writer writes. -/
theorem writeVarint_readVarint {input : Bytes} {value : UInt64} {count : Nat}
    (h : readVarint input = .ok (value, count)) :
    input = writeVarint value ++ input.drop count ∧ count = (writeVarint value).length := by
  have hrounds : maxVarintBytes + 0 = maxVarintBytes := rfl
  have hlow : (0 : UInt64).toNat < 2 ^ (0 * 7) := by decide
  obtain ⟨high, rest, hinput, hcount, -, hvalue⟩ :=
    writeVarintRounds_readVarintRounds hrounds hlow h
  have hzero : (0 : UInt64).toNat = 0 := rfl
  obtain rfl : value = high := by
    apply UInt64.toNat_inj.mp
    rw [hvalue, hzero]
    omega
  rw [Nat.zero_add] at hcount
  refine ⟨?_, hcount⟩
  rw [hinput, hcount, writeVarint, List.drop_left]

/-! ## The rounds of both loops -/

/-- A value that `rounds` groups can hold leaves nothing to later rounds of the writer. -/
theorem writeVarintRounds_more (more : Nat) {rounds : Nat} {value : UInt64}
    (hvalue : value.toNat < 2 ^ (7 * (rounds + 1))) :
    writeVarintRounds (rounds + 1 + more) value = writeVarintRounds (rounds + 1) value := by
  induction rounds generalizing value with
  | zero =>
      have hsmall : ¬0x80 ≤ value := by
        rw [UInt64.le_iff_toNat_le]
        exact not_le.mpr hvalue
      rw [Nat.zero_add, Nat.add_comm, writeVarintRounds, if_neg hsmall, writeVarintRounds,
        if_neg hsmall]
  | succ rounds ih =>
      have hshift : (value >>> 7).toNat < 2 ^ (7 * (rounds + 1)) := by
        rw [shift_toNat, Nat.div_lt_iff_lt_mul (by decide)]
        calc value.toNat < 2 ^ (7 * (rounds + 1 + 1)) := hvalue
          _ = 2 ^ (7 * (rounds + 1)) * 128 := by ring
      rw [Nat.add_right_comm, writeVarintRounds, ih hshift]
      rfl

theorem writeVarintRounds_length_le (rounds : Nat) (value : UInt64) :
    (writeVarintRounds rounds value).length ≤ rounds := by
  induction rounds generalizing value with
  | zero => simp [writeVarintRounds]
  | succ rounds ih =>
      rw [writeVarintRounds]
      split
      · exact Nat.succ_le_succ (ih _)
      · simp

/-- The number that groups of seven bits spell, lowest group first. -/
def groupsValue : Bytes → Nat
  | [] => 0
  | byte :: rest => (byte &&& 0x7f).toNat + 128 * groupsValue rest

theorem groupsValue_lt (groups : Bytes) : groupsValue groups < 2 ^ (groups.length * 7) := by
  induction groups with
  | nil => simp [groupsValue]
  | cons byte rest ih =>
      have hbyte := byte_payload_lt byte
      calc (byte &&& 0x7f).toNat + 128 * groupsValue rest
          < 128 * (groupsValue rest + 1) := by omega
        _ ≤ 128 * 2 ^ (rest.length * 7) := Nat.mul_le_mul_left 128 ih
        _ = 2 ^ ((byte :: rest).length * 7) := by
            rw [List.length_cons]
            ring

theorem groupsValue_append_singleton (front : Bytes) (byte : UInt8) :
    groupsValue (front ++ [byte]) =
      groupsValue front + (byte &&& 0x7f).toNat * 2 ^ (front.length * 7) := by
  induction front with
  | nil => simp [groupsValue]
  | cons first front ih =>
      rw [List.cons_append, groupsValue, ih, groupsValue, List.length_cons]
      ring

/-- The accumulator after the round at `index`. -/
def accumulate (index : Nat) (value : UInt64) (byte : UInt8) : UInt64 :=
  value ||| ((byte &&& 0x7f).toUInt64 <<< UInt64.ofNat (index * 7))

/-- How far the reader's loop gets on an input: the bytes behind it, the accumulator and the
bytes ahead, at the top of a round. -/
inductive ReadsTo (input : Bytes) : Bytes → UInt64 → Bytes → Prop
  | start : ReadsTo input [] 0 input
  | more {front : Bytes} {value : UInt64} {byte : UInt8} {rest : Bytes}
      (before : ReadsTo input front value (byte :: rest))
      (hround : front.length < maxVarintBytes)
      (hfits : ¬Overflows front.length (byte &&& 0x7f).toUInt64)
      (hflag : byte &&& 0x80 ≠ 0) :
      ReadsTo input (front ++ [byte]) (accumulate front.length value byte) rest

/-- The rounds are those of the reader. -/
theorem ReadsTo.readVarint_eq {input front rest : Bytes} {value : UInt64}
    (h : ReadsTo input front value rest) :
    input = front ++ rest ∧ front.length ≤ maxVarintBytes ∧
      readVarint input =
        readVarintRounds (maxVarintBytes - front.length) front.length value rest := by
  induction h with
  | start => exact ⟨rfl, Nat.zero_le _, rfl⟩
  | @more front value byte rest before hround hfits hflag ih =>
      obtain ⟨hinput, -, hread⟩ := ih
      refine ⟨by rw [hinput]; simp, by simpa using Nat.succ_le_of_lt hround, ?_⟩
      have hrounds : maxVarintBytes - front.length =
          maxVarintBytes - (front ++ [byte]).length + 1 := by
        rw [List.length_append, List.length_singleton]
        omega
      rw [hread, hrounds, readVarintRounds]
      simp only [Overflows] at hfits
      simp only [hfits, hflag, if_false, List.length_append, List.length_singleton, accumulate]

/-- What the accumulator holds at the top of a round is the number that the bytes behind it
spell. -/
theorem ReadsTo.value_eq {input front rest : Bytes} {value : UInt64}
    (h : ReadsTo input front value rest) : value.toNat = groupsValue front := by
  induction h with
  | start => rfl
  | @more front value byte rest before hround hfits hflag ih =>
      have hindex : front.length ≤ 9 := Nat.le_of_lt_succ hround
      have hvalue : value.toNat < 2 ^ (front.length * 7) := by
        rw [ih]
        exact groupsValue_lt front
      rw [accumulate, accumulate_toNat hindex hvalue (groups_fit hround hfits),
        groupsValue_append_singleton, ih, UInt8.toNat_toUInt64]

/-- Every update of the accumulator is exact. -/
theorem ReadsTo.accumulate_eq {input front rest : Bytes} {value : UInt64} {byte : UInt8}
    (h : ReadsTo input front value (byte :: rest)) (hround : front.length < maxVarintBytes)
    (hfits : ¬Overflows front.length (byte &&& 0x7f).toUInt64) :
    (accumulate front.length value byte).toNat = groupsValue (front ++ [byte]) := by
  have hindex : front.length ≤ 9 := Nat.le_of_lt_succ hround
  have hvalue : value.toNat < 2 ^ (front.length * 7) := by
    rw [h.value_eq]
    exact groupsValue_lt front
  rw [accumulate, accumulate_toNat hindex hvalue (groups_fit hround hfits),
    groupsValue_append_singleton, h.value_eq, UInt8.toNat_toUInt64]

/-- Variable-length integers are a canonical prefix code. The writer stops within ten rounds and
the reader takes back what it wrote, whatever follows; what the reader accepts is what the
writer writes; and in every round the reader gets to, no bit is shifted out of the accumulator
or falls on another one. -/
theorem varint_canonical :
    (∀ (value : UInt64) (rest : Bytes),
      readVarint (writeVarint value ++ rest) = .ok (value, (writeVarint value).length) ∧
        (writeVarint value).length ≤ 10 ∧
        ∀ more, writeVarintRounds (maxVarintBytes + more) value = writeVarint value) ∧
    (∀ (input : Bytes) (value : UInt64) (count : Nat), readVarint input = .ok (value, count) →
      count ≤ input.length ∧ input.take count = writeVarint value) ∧
    ∀ (input front rest : Bytes) (value : UInt64) (byte : UInt8),
      ReadsTo input front value (byte :: rest) → front.length < maxVarintBytes →
      ¬Overflows front.length (byte &&& 0x7f).toUInt64 →
        front.length * 7 < 64 ∧
        (accumulate front.length value byte).toNat = groupsValue (front ++ [byte]) := by
  refine ⟨fun value rest => ?_, fun input value count h => ?_, ?_⟩
  · refine ⟨readVarint_writeVarint value rest, writeVarintRounds_length_le _ _, fun more => ?_⟩
    refine writeVarintRounds_more more ?_
    have := value.toNat_lt
    omega
  · obtain ⟨hinput, hcount⟩ := writeVarint_readVarint h
    constructor
    · rw [hinput, hcount, List.length_append]
      exact Nat.le_add_right _ _
    · rw [hinput, hcount, List.take_left]
  · intro input front rest value byte h hround hfits
    unfold maxVarintBytes at hround
    exact ⟨by omega, h.accumulate_eq hround hfits⟩

end NovaBase.Nbf
